import DistRes.Broker

/-!
# One call of `publish`

`publish` goes through its snapshot while the registry changes under it: by `subscribe` and
`unsubscribe` of other threads, of the callbacks themselves, and by its own removals.

* `fanOut` — one call over any registry, with such changes between its steps;
* `FanOutHistory` — its snapshot, the calls it has made of callbacks, and whether the registry was
  changed by others;
* `publish_fans_out` — every entry of the snapshot is called once and in order, the calls that return
  are counted, and what is removed is an id whose callback raised;
* `fanOut_of_broker` — a thread that publishes is such a call, whatever the other threads do.
-/

namespace DistRes

open Lib

/-! ## The call and its surroundings -/

inductive FanOutAct (C : Type)
  /-- the next step of the call, whose callback returns or raises -/
  | step (ok : Bool)
  | subscribe (subscriberId : Text) (deliver : C)
  | unsubscribe (subscriberId : Text)

section FanOut

variable {C : Type}

def fanOutStep (s : PubSubBroker C × PublishPc C) : FanOutAct C → Option (PubSubBroker C × PublishPc C)
  | .step ok => (publish s.1 ok s.2).map fun r => (r.1, r.2.1)
  | .subscribe u deliver => some (s.1.subscribe u deliver, s.2)
  | .unsubscribe u => some (s.1.unsubscribe u, s.2)

/-- A call `publish(topic, payload)` over the registry `b`. -/
def fanOut (b : PubSubBroker C) (topic : Text) (payload : Update) :
    Machine (PubSubBroker C × PublishPc C) (FanOutAct C) where
  init s := s = (b, .snapshot topic payload)
  step := fanOutStep

/-- A call of a callback. -/
structure FanOutCall (C : Type) where
  subscriberId : Text
  deliver : C
  event : Event
  returned : Bool

/-- The entry of the registry that a call was for. -/
def FanOutCall.entry (d : FanOutCall C) : Text × C := (d.subscriberId, d.deliver)

structure FanOutHistory (C : Type) where
  snapshot : List (Text × C) := []
  calls : List (FanOutCall C) := []
  /-- the registry was changed by others since the snapshot -/
  disturbed : Bool := false

/-- The history after a step. -/
def FanOutHistory.next (h : FanOutHistory C) (s : PubSubBroker C × PublishPc C) :
    FanOutAct C → FanOutHistory C
  | .step ok =>
    match s.2 with
    | .snapshot _ _ => { h with snapshot := s.1.items, disturbed := false }
    | .deliver event ((u, deliver) :: _) _ => { h with calls := h.calls ++ [⟨u, deliver, event, ok⟩] }
    | _ => h
  | _ => { h with disturbed := true }

def recordedFanOut (b : PubSubBroker C) (topic : Text) (payload : Update) :=
  (fanOut b topic payload).withHistory ({} : FanOutHistory C) fun h s a _ => h.next s a

/-- The ids whose callback has returned. -/
def FanOutHistory.succeeded (h : FanOutHistory C) : List Text :=
  (h.calls.filter (·.returned)).map FanOutCall.subscriberId

/-- The ids whose callback has raised. -/
def FanOutHistory.raised (h : FanOutHistory C) : List Text :=
  (h.calls.filter fun d => !d.returned).map FanOutCall.subscriberId

/-- The entries of the snapshot that the call has not come to yet. -/
def PublishPc.todo : PublishPc C → List (Text × C)
  | .deliver _ todo _ | .drop _ _ todo _ => todo
  | .snapshot _ _ | .done _ => []

/-- The number of callbacks counted as delivered to. -/
def PublishPc.delivered : PublishPc C → ℕ
  | .deliver _ _ n | .drop _ _ _ n | .done n => n
  | .snapshot _ _ => 0

/-- The id that is to be removed next. -/
def PublishPc.dropping : PublishPc C → Option Text
  | .drop u _ _ _ => some u
  | _ => none

/-- The event that the call hands out. -/
def PublishPc.event : PublishPc C → Option Event
  | .snapshot topic payload => some ⟨topic, payload⟩
  | .deliver event _ _ | .drop _ event _ _ => some event
  | .done _ => none

def PublishPc.started : PublishPc C → Bool
  | .snapshot _ _ => false
  | _ => true

/-! ## The invariant -/

/-- **The invariant of the call.** -/
structure FanInv (topic : Text) (payload : Update) (b : PubSubBroker C) (pc : PublishPc C)
    (h : FanOutHistory C) : Prop where
  fresh : pc.started = false → h.calls = []
  /-- the calls made and the entries to come are the snapshot -/
  entries : h.calls.map FanOutCall.entry ++ pc.todo = h.snapshot
  nodup : (h.snapshot.map Prod.fst).Nodup
  event : ∀ e ∈ pc.event, e = ⟨topic, payload⟩
  handed : ∀ d ∈ h.calls, d.event = ⟨topic, payload⟩
  count : pc.delivered = (h.calls.filter (·.returned)).length
  dropping : ∀ u ∈ pc.dropping, u ∈ h.raised
  /-- undisturbed, the registry is the snapshot without the ids removed so far -/
  registry : pc.started = true → h.disturbed = false →
    b.items = h.snapshot.filter fun x => x.1 ∉ h.raised ∨ pc.dropping = some x.1

variable {topic : Text} {payload : Update} {b b' : PubSubBroker C} {pc pc' : PublishPc C}
  {h : FanOutHistory C} {ok : Bool}

/-- Somebody else changes the registry. -/
theorem FanInv.disturb (hi : FanInv topic payload b pc h) :
    FanInv topic payload b' pc { h with disturbed := true } :=
  { hi with registry := fun _ hd => (by cases hd) }

/-- The next entry of the snapshot has not been called yet. -/
theorem FanInv.notMem_raised {e : Event} {u : Text} {c : C} {todo : List (Text × C)} {n : ℕ}
    (hi : FanInv topic payload b (.deliver e ((u, c) :: todo) n) h) : u ∉ h.raised := by
  intro hm
  obtain ⟨d, hd, rfl⟩ := List.mem_map.1 hm
  have hnd := hi.nodup
  rw [← hi.entries, List.map_append, List.nodup_append] at hnd
  refine hnd.2.2 d.subscriberId ?_ d.subscriberId ?_ rfl
  · exact List.mem_map.2 ⟨d.entry, List.mem_map.2 ⟨d, (List.mem_filter.1 hd).1, rfl⟩, rfl⟩
  · exact List.mem_map.2 ⟨(d.subscriberId, c), List.mem_cons_self, rfl⟩

theorem raised_concat (d : FanOutCall C) (hs : Bool) (snap : List (Text × C)) :
    (FanOutHistory.raised ⟨snap, h.calls ++ [d], hs⟩) =
      h.raised ++ if d.returned = true then [] else [d.subscriberId] := by
  cases hd : d.returned <;> simp [FanOutHistory.raised, List.filter_append, hd]

/-- **One step of the call.** -/
theorem FanInv.step {d : Option (C × Event)} (hi : FanInv topic payload b pc h)
    (hs : publish b ok pc = some (b', pc', d)) :
    FanInv topic payload b' pc' (h.next (b, pc) (.step ok)) := by
  cases pc with
  | snapshot t p =>
    cases hs
    obtain ⟨rfl, rfl⟩ : t = topic ∧ p = payload := by
      have := hi.event _ rfl
      cases this
      exact ⟨rfl, rfl⟩
    have hcalls : h.calls = [] := hi.fresh rfl
    refine ⟨nofun, ?_, b.nodup, by simp [PublishPc.event], ?_, ?_, nofun, fun _ _ => ?_⟩
    · simp [FanOutHistory.next, hcalls, PublishPc.todo]
    · simp [FanOutHistory.next, hcalls]
    · simp [FanOutHistory.next, hcalls, PublishPc.delivered]
    · simp [FanOutHistory.next, FanOutHistory.raised, hcalls]
  | deliver e todo n =>
    obtain rfl : e = ⟨topic, payload⟩ := hi.event e rfl
    rcases todo with _ | ⟨⟨u, c⟩, todo⟩
    · cases hs
      refine ⟨nofun, hi.entries, hi.nodup, nofun, hi.handed, hi.count, nofun, fun _ hd => ?_⟩
      simpa [PublishPc.dropping, FanOutHistory.next] using hi.registry rfl hd
    · have hu := hi.notMem_raised
      have hentries := hi.entries
      have hcount := hi.count
      simp only [PublishPc.todo, PublishPc.delivered] at hentries hcount
      have hhanded : ∀ x ∈ h.calls ++ [⟨u, c, ⟨topic, payload⟩, ok⟩], x.event = ⟨topic, payload⟩ := by
        intro x hx
        rcases List.mem_append.1 hx with hx | hx
        · exact hi.handed x hx
        · rw [List.mem_singleton.1 hx]
      rcases ok with _ | _
      · -- the callback raises, and its id is to be removed
        cases hs
        refine ⟨nofun, ?_, hi.nodup, by simp [PublishPc.event], hhanded, ?_, ?_, fun _ hd => ?_⟩
        · simp [FanOutHistory.next, PublishPc.todo, FanOutCall.entry, ← hentries]
        · simp [FanOutHistory.next, PublishPc.delivered, hcount]
        · rintro v ⟨⟩
          simp [FanOutHistory.next, raised_concat]
        · rw [hi.registry rfl hd]
          refine List.filter_congr fun x _ => ?_
          simp only [FanOutHistory.next, raised_concat, PublishPc.dropping]
          by_cases hx : x.1 = u
          · simp [hx, hu]
          · simp [hx, Ne.symm hx]
      · cases hs
        refine ⟨nofun, ?_, hi.nodup, by simp [PublishPc.event], hhanded, ?_, nofun, fun _ hd => ?_⟩
        · simp [FanOutHistory.next, PublishPc.todo, FanOutCall.entry, ← hentries]
        · simp [FanOutHistory.next, PublishPc.delivered, hcount]
        · rw [hi.registry rfl hd]
          simp [FanOutHistory.next, raised_concat, PublishPc.dropping]
  | drop u e todo n =>
    cases hs
    refine ⟨nofun, hi.entries, hi.nodup, hi.event, hi.handed, hi.count, nofun, fun _ hd => ?_⟩
    have hu : u ∈ h.raised := hi.dropping u rfl
    simp only [PubSubBroker.unsubscribe, Dict.pop, hi.registry rfl hd, List.filter_filter,
      PublishPc.dropping]
    refine List.filter_congr fun x _ => ?_
    by_cases hx : x.1 = u
    · simp [hx, hu, FanOutHistory.next]
    · simp [hx, Ne.symm hx, FanOutHistory.next]
  | done n => cases hs

theorem fanInv_of_reachable {b₀ : PubSubBroker C} {p : (PubSubBroker C × PublishPc C) × FanOutHistory C}
    (hr : (recordedFanOut b₀ topic payload).Reachable p) : FanInv topic payload p.1.1 p.1.2 p.2 := by
  refine hr.invariant (fun p => FanInv topic payload p.1.1 p.1.2 p.2) ?_ ?_
  · rintro ⟨s, h⟩ ⟨hs, rfl⟩
    obtain rfl : s = (b₀, .snapshot topic payload) := hs
    refine ⟨fun _ => rfl, rfl, List.nodup_nil, ?_, nofun, rfl, nofun, nofun⟩
    rintro e ⟨⟩
    rfl
  · rintro ⟨⟨b, pc⟩, h⟩ a ⟨⟨b', pc'⟩, h'⟩ - hi hs
    obtain ⟨hs, hh⟩ := Machine.withHistory_step.1 hs
    simp only at hh hi
    subst hh
    cases a with
    | step ok =>
      obtain ⟨⟨b1, pc1, d⟩, hpub, he⟩ := Option.map_eq_some_iff.1 hs
      cases he
      exact hi.step hpub
    | subscribe | unsubscribe =>
      cases hs
      exact hi.disturb

/-! ## The results -/

/-- A bound on the steps that are left after the snapshot. -/
def PublishPc.remaining : PublishPc C → ℕ
  | .deliver _ todo _ => 2 * todo.length + 1
  | .drop _ _ todo _ => 2 * todo.length + 2
  | .snapshot _ _ | .done _ => 0

/-- The call always has a next step until it returns, and comes closer to its end with each. -/
theorem publish_goes_on (b : PubSubBroker C) (hpc : ∀ n, pc ≠ .done n) (ok : Bool) :
    ∃ b' pc' d, publish b ok pc = some (b', pc', d) ∧
      (pc.started = true → pc'.remaining < pc.remaining) := by
  cases pc with
  | snapshot => exact ⟨_, _, _, rfl, nofun⟩
  | done n => exact absurd rfl (hpc n)
  | drop => exact ⟨_, _, _, rfl, fun _ => by simp [PublishPc.remaining]⟩
  | deliver e todo n =>
    rcases todo with _ | ⟨⟨u, c⟩, todo⟩
    · exact ⟨_, _, _, rfl, fun _ => by simp [PublishPc.remaining]⟩
    · cases ok
      · refine ⟨_, _, _, rfl, fun _ => ?_⟩
        simp only [PublishPc.remaining, List.length_cons]
        omega
      · refine ⟨_, _, _, rfl, fun _ => ?_⟩
        simp only [PublishPc.remaining, List.length_cons]
        omega

/-- What a step of the call does to the registry. -/
theorem publish_registry {d : Option (C × Event)} (hs : publish b ok pc = some (b', pc', d)) :
    b' = b ∨ ∃ u, pc.dropping = some u ∧ b' = b.unsubscribe u := by
  unfold publish at hs
  split at hs
  · cases hs
    exact .inl rfl
  · split_ifs at hs <;> cases hs
    · exact .inl rfl
    · exact .inl rfl
  · cases hs
    exact .inl rfl
  · cases hs
    exact .inr ⟨_, rfl, rfl⟩
  · cases hs

/-- Of the entries of the snapshot, those whose callback has not raised are those whose callback has
returned. -/
theorem FanInv.succeeded_iff {n : ℕ} (hi : FanInv topic payload b (.done n) h) {x : Text × C}
    (hx : x ∈ h.snapshot) : x.1 ∉ h.raised ↔ x.1 ∈ h.succeeded := by
  have hentries : h.calls.map FanOutCall.entry = h.snapshot := by
    simpa [PublishPc.todo] using hi.entries
  have hids : (h.calls.map FanOutCall.subscriberId).Nodup := by
    have := hi.nodup
    rwa [← hentries, List.map_map] at this
  rw [← hentries] at hx
  obtain ⟨d, hd, rfl⟩ := List.mem_map.1 hx
  have honly : ∀ d' ∈ h.calls, d'.subscriberId = d.subscriberId → d' = d := fun d' hd' he =>
    List.inj_on_of_nodup_map hids hd' hd he
  constructor
  · intro hr
    refine List.mem_map.2 ⟨d, List.mem_filter.2 ⟨hd, ?_⟩, rfl⟩
    by_contra hret
    exact hr (List.mem_map.2 ⟨d, List.mem_filter.2 ⟨hd, by simpa using hret⟩, rfl⟩)
  · intro hs hr
    obtain ⟨d1, hd1, he1⟩ := List.mem_map.1 hs
    obtain ⟨d2, hd2, he2⟩ := List.mem_map.1 hr
    obtain ⟨hm1, hret1⟩ := List.mem_filter.1 hd1
    obtain ⟨hm2, hret2⟩ := List.mem_filter.1 hd2
    rw [honly d1 hm1 he1] at hret1
    rw [honly d2 hm2 he2] at hret2
    simp [hret1] at hret2

/-- **Fan-out with fault isolation.**  In every state of a call of `publish`, over any registry and
with any changes by others between its steps:

* the callbacks called so far are those of the first entries of the snapshot, each once and in order,
  with the topic and the payload of the call;
* when it returns, they are those of all entries, it returns the number of those that did not raise,
  and the registry, if nobody else has changed it since the snapshot, is the snapshot restricted to
  the ids whose callback did not raise;
* a step of the call leaves the registry alone or removes an id of the snapshot whose callback raised;
* until it returns, it has a next step, whatever the callback does, and after the snapshot only so
  many. -/
theorem publish_fans_out {b₀ : PubSubBroker C}
    (hr : (recordedFanOut b₀ topic payload).Reachable ((b, pc), h)) :
    h.calls.map FanOutCall.entry ++ pc.todo = h.snapshot ∧
    (∀ d ∈ h.calls, d.event = ⟨topic, payload⟩) ∧
    (∀ n, pc = .done n → h.calls.map FanOutCall.entry = h.snapshot ∧
      n = (h.calls.filter (·.returned)).length ∧
      (h.disturbed = false → b.items = h.snapshot.filter fun x => x.1 ∈ h.succeeded)) ∧
    (∀ ok b' pc', fanOutStep (b, pc) (.step ok) = some (b', pc') → b' = b ∨
      ∃ d ∈ h.calls, d.returned = false ∧ d.entry ∈ h.snapshot ∧ b' = b.unsubscribe d.subscriberId) ∧
    ((∀ n, pc ≠ .done n) → ∀ ok, ∃ b' pc', fanOutStep (b, pc) (.step ok) = some (b', pc') ∧
      (pc.started = true → pc'.remaining < pc.remaining)) := by
  have hi : FanInv topic payload b pc h := fanInv_of_reachable hr
  refine ⟨hi.entries, hi.handed, ?_, fun ok b' pc' hs => ?_, fun hpc ok => ?_⟩
  · rintro n rfl
    refine ⟨by simpa [PublishPc.todo] using hi.entries, hi.count, fun hd => ?_⟩
    rw [hi.registry rfl hd]
    refine List.filter_congr fun x hx => ?_
    simp [PublishPc.dropping, hi.succeeded_iff hx]
  · obtain ⟨⟨b1, pc1, d⟩, hpub, he⟩ := Option.map_eq_some_iff.1 hs
    cases he
    refine (publish_registry hpub).imp_right fun ⟨u, hu, hb⟩ => ?_
    obtain ⟨d, hd, rfl⟩ := List.mem_map.1 (hi.dropping u hu)
    obtain ⟨hmem, hret⟩ := List.mem_filter.1 hd
    refine ⟨d, hmem, by simpa using hret, ?_, hb⟩
    rw [← hi.entries]
    exact List.mem_append_left _ (List.mem_map.2 ⟨d, hmem, rfl⟩)
  · obtain ⟨b', pc', d, hpub, hlt⟩ := publish_goes_on b hpc ok
    exact ⟨b', pc', by simp [fanOutStep, hpub], hlt⟩

/-! ## Threads that publish -/

/-- What a thread of the broker does to the registry. -/
theorem brokerStep_registry {l l' : BrokerCall C} {a : BrokerAct C}
    (hs : brokerStep b l a = some (b', l')) :
    b' = b ∨ (∃ u c, b' = b.subscribe u c) ∨ ∃ u, b' = b.unsubscribe u := by
  unfold brokerStep at hs
  split at hs
  · cases hs
    exact .inr (.inl ⟨_, _, rfl⟩)
  · cases hs
    exact .inr (.inr ⟨_, rfl⟩)
  · cases hs
    exact .inl rfl
  · cases hs
    exact .inl rfl
  · obtain ⟨⟨b1, pc1, d⟩, hpub, he⟩ := Option.map_eq_some_iff.1 hs
    cases he
    rcases publish_registry hpub with hb | ⟨u, -, hb⟩
    · exact .inl hb
    · exact .inr (.inr ⟨u, hb⟩)
  · cases hs

/-- **A thread that publishes is such a call**, from its snapshot until it returns, with whatever the
other threads of the broker do as the changes by others. -/
theorem fanOut_of_broker {T : Type} [DecidableEq T] {t : T}
    {s₀ s : Pool.State T (PubSubBroker C) (BrokerCall C)}
    (h0 : s₀.thread t = .publish (.snapshot topic payload))
    (hr : ((brokerMachine C T).startingAt s₀).Reach (fun _ a => a.1 = t → a.2 ≠ .return) s) :
    ∃ pc, s.thread t = .publish pc ∧ (fanOut s₀.shared topic payload).Reachable (s.shared, pc) := by
  refine hr.invariant (fun s => ∃ pc, s.thread t = .publish pc ∧
    (fanOut s₀.shared topic payload).Reachable (s.shared, pc)) ?_ ?_
  · intro s hs
    obtain rfl : s = s₀ := hs
    exact ⟨_, h0, .init rfl⟩
  · rintro s ⟨k, a⟩ s' - ⟨pc, ht, hreach⟩ hok hs
    obtain ⟨b', l', hstep, rfl⟩ := Pool.machine_step.1 hs
    have hstep : brokerStep s.shared (s.thread k) a = some (b', l') := hstep
    by_cases hk : k = t
    · subst hk
      simp only [Function.update_self]
      rw [ht] at hstep
      have hret : a ≠ .return := hok rfl
      cases a with
      | step ok =>
        have hpub : ∃ r, publish s.shared ok pc = some r ∧ (r.1, .publish r.2.1) = (b', l') := by
          cases pc <;> exact Option.map_eq_some_iff.1 hstep
        obtain ⟨⟨b1, pc1, d⟩, hpub, he⟩ := hpub
        cases he
        exact ⟨pc1, rfl, hreach.step (a := .step ok) (by simp [fanOut, fanOutStep, hpub])⟩
      | «return» => exact absurd rfl hret
      | subscribe | unsubscribe | publish => cases pc <;> cases hstep
    · simp only [Function.update_of_ne (Ne.symm hk)]
      refine ⟨pc, ht, ?_⟩
      rcases brokerStep_registry hstep with rfl | ⟨u, c, rfl⟩ | ⟨u, rfl⟩
      · exact hreach
      · exact hreach.step (a := .subscribe u c) rfl
      · exact hreach.step (a := .unsubscribe u) rfl

/-! ### A call -/

/-- Two subscribers, of which the first raises. -/
def twoSubscribers : PubSubBroker ℕ := (Dict.empty.set (lit "ENG001") 1).set (lit "ENG002") 2

theorem isolatedRun_fans_out :
    ∃ b pc h, (recordedFanOut twoSubscribers topicResourceUpdate ⟨1, none, .null⟩).run
        ((twoSubscribers, .snapshot topicResourceUpdate ⟨1, none, .null⟩), {})
        [.step true, .step false, .step true, .step true, .step true] = some ((b, pc), h) ∧
      pc = .done 1 ∧ h.calls.map FanOutCall.entry = twoSubscribers.items ∧
      b.items = [(lit "ENG002", 2)] := by
  have hs : ((recordedFanOut twoSubscribers topicResourceUpdate ⟨1, none, .null⟩).run
      ((twoSubscribers, .snapshot topicResourceUpdate ⟨1, none, .null⟩), {})
      [.step true, .step false, .step true, .step true, .step true]).map (fun p =>
        (p.1.2, p.2.snapshot, p.2.disturbed, p.2.succeeded)) =
          some (.done 1, twoSubscribers.items, false, [lit "ENG002"]) := by rfl
  obtain ⟨⟨⟨b, pc⟩, h⟩, hrun, hval⟩ := Option.map_eq_some_iff.1 hs
  simp only [Prod.mk.injEq] at hval
  obtain ⟨hpc, hsnap, hdist, hsucc⟩ := hval
  have h0 : (recordedFanOut twoSubscribers topicResourceUpdate ⟨1, none, .null⟩).Reachable
      ((twoSubscribers, .snapshot topicResourceUpdate ⟨1, none, .null⟩), {}) := .init ⟨rfl, rfl⟩
  obtain ⟨hcalls, -, hreg⟩ := (publish_fans_out (h0.run hrun)).2.2.1 1 hpc
  refine ⟨b, pc, h, hrun, hpc, hcalls.trans hsnap, ?_⟩
  rw [hreg hdist, hsnap, hsucc]
  decide

end FanOut

end DistRes
