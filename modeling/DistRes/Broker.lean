import DistRes.Notification

/-!
# What a failed delivery drops

`publish` works through a snapshot of the registry, and drops an entry whose delivery raises by its
id.  In the meantime the id may have been subscribed again, with another callback.

* `brokerMachine` — any number of threads that call the broker;
* `Removals` — the removals of `publish`, each with the callback that raised, the callback that was
  registered, and what has become of the id since the snapshot;
* `drops_failed_iff` — a removal hits the callback that raised unless the id was subscribed again;
* `broker_of_server` — the handlers of the server are such threads.
-/

namespace DistRes

open Lib

/-! ## The threads of the broker -/

/-- Where a thread is with a call of the broker. -/
inductive BrokerCall (C : Type)
  | idle
  | publish (pc : PublishPc C)

inductive BrokerAct (C : Type)
  | subscribe (subscriberId : Text) (deliver : C)
  | unsubscribe (subscriberId : Text)
  | publish (topic : Text) (payload : Update)
  /-- the next step of `publish`, whose delivery returns or raises -/
  | step (ok : Bool)
  | return

def brokerStep {C : Type} (b : PubSubBroker C) :
    BrokerCall C → BrokerAct C → Option (PubSubBroker C × BrokerCall C)
  | .idle, .subscribe u deliver => some (b.subscribe u deliver, .idle)
  | .idle, .unsubscribe u => some (b.unsubscribe u, .idle)
  | .idle, .publish topic payload => some (b, .publish (.snapshot topic payload))
  | .publish (.done _), .return => some (b, .idle)
  | .publish pc, .step ok => (publish b ok pc).map fun r => (r.1, .publish r.2.1)
  | _, _ => none

def brokerPool (C T : Type) : Pool T (PubSubBroker C) (BrokerCall C) (BrokerAct C) where
  init b := b = Dict.empty
  start := .idle
  step _ := brokerStep

def brokerMachine (C T : Type) [DecidableEq T] := (brokerPool C T).machine

def brokerStart {C T : Type} : Pool.State T (PubSubBroker C) (BrokerCall C) :=
  ⟨Dict.empty, fun _ => .idle⟩

/-! ## The removals -/

/-- A removal by `publish`. -/
structure Removal (C : Type) where
  subscriberId : Text
  /-- the callback whose delivery raised -/
  failed : C
  /-- the callback that was registered for the id -/
  registered : Option C
  /-- what the last change of the id since the snapshot has left for it, if there was one -/
  since : Option (Option C)

/-- The removal hits no other callback than the one that raised. -/
def Removal.Right {C : Type} (r : Removal C) : Prop :=
  r.registered = none ∨ r.registered = some r.failed

/-- The id was last subscribed, with another callback, since the snapshot. -/
def Removal.Renewed {C : Type} (r : Removal C) : Prop := ∃ c, r.since = some (some c) ∧ c ≠ r.failed

structure Removals (C T : Type) where
  /-- for every thread, what the last change of an id since its snapshot has left -/
  since : T → Text → Option (Option C) := fun _ _ => none
  /-- the callback that raised last -/
  failed : T → Option C := fun _ => none
  removals : List (Removal C) := []

section Removals

variable {C T : Type} [DecidableEq T]

/-- The id `u` has been given the entry `x`. -/
def Removals.change (G : Removals C T) (u : Text) (x : Option C) : Removals C T :=
  { G with since := fun t => Function.update (G.since t) u (some x) }

/-- The thread `t` is about to remove the entry of `u`. -/
def Removals.record (G : Removals C T) (t : T) (b : PubSubBroker C) (u : Text) : Removals C T :=
  { G with removals := G.removals ++
      (G.failed t).toList.map fun c => Removal.mk u c (b.get? u) (G.since t u) }

/-- The removals after a step of `t`. -/
def Removals.next (G : Removals C T) (t : T) (b : PubSubBroker C) :
    BrokerCall C → BrokerAct C → Removals C T
  | .idle, .subscribe u deliver => G.change u (some deliver)
  | .idle, .unsubscribe u => G.change u none
  | .publish (.snapshot _ _), .step _ => { G with since := Function.update G.since t fun _ => none }
  | .publish (.deliver _ ((_, deliver) :: _) _), .step false =>
    { G with failed := Function.update G.failed t (some deliver) }
  | .publish (.drop u _ _ _), .step _ => (G.record t b u).change u none
  | _, _ => G

/-- The broker with the removals of its `publish` calls. -/
def droppingBroker (C T : Type) [DecidableEq T] :=
  (brokerMachine C T).withHistory ({} : Removals C T) fun G s a _ =>
    G.next a.1 s.shared (s.thread a.1) a.2

/-- The entries of its snapshot that a thread may still remove. -/
def BrokerCall.Owes (failed : Option C) (u : Text) (c : C) : BrokerCall C → Prop
  | .publish (.deliver _ todo _) => (u, c) ∈ todo
  | .publish (.drop v _ todo _) => (v = u ∧ failed = some c) ∨ (u, c) ∈ todo
  | _ => False

/-- The id that a thread is about to remove. -/
def BrokerCall.removing : BrokerCall C → Option Text
  | .publish (.drop u _ _ _) => some u
  | _ => none

/-- **The invariant of the removals.** -/
structure RemovalInv (b : PubSubBroker C) (th : T → BrokerCall C) (G : Removals C T) : Prop where
  changed : ∀ t u x, G.since t u = some x → b.get? u = x
  unchanged : ∀ t u c, G.since t u = none → (th t).Owes (G.failed t) u c → b.get? u = some c
  blamed : ∀ t u, (th t).removing = some u → ∃ c, G.failed t = some c
  right : ∀ r ∈ G.removals, r.Right ↔ ¬ r.Renewed

variable {b b' : PubSubBroker C} {th : T → BrokerCall C} {G : Removals C T} {t : T} {u : Text}

/-- What every change of the registry does: `u` has the entry `x`, and the others are as before. -/
theorem RemovalInv.change {x : Option C} (hi : RemovalInv b th G) {l : BrokerCall C}
    (hu : b'.get? u = x) (hne : ∀ v, v ≠ u → b'.get? v = b.get? v)
    (howes : ∀ v c, v ≠ u → l.Owes (G.failed t) v c → (th t).Owes (G.failed t) v c)
    (hdrop : l.removing = none) : RemovalInv b' (Function.update th t l) (G.change u x) := by
  refine ⟨fun k v y hy => ?_, fun k v c hv ho => ?_, fun k v hk => ?_, hi.right⟩
  · simp only [Removals.change] at hy
    by_cases hv : v = u
    · subst hv
      rw [Function.update_self] at hy
      exact hu.trans (Option.some.inj hy)
    · rw [Function.update_of_ne hv] at hy
      exact (hne v hv).trans (hi.changed k v y hy)
  · simp only [Removals.change] at hv ho
    by_cases hvu : v = u
    · rw [hvu, Function.update_self] at hv
      cases hv
    · rw [Function.update_of_ne hvu] at hv
      rw [hne v hvu]
      by_cases hkt : k = t
      · subst hkt
        rw [Function.update_self] at ho
        exact hi.unchanged k v c hv (howes v c hvu ho)
      · rw [Function.update_of_ne hkt] at ho
        exact hi.unchanged k v c hv ho
  · by_cases hkt : k = t
    · rw [hkt, Function.update_self, hdrop] at hk
      cases hk
    · rw [Function.update_of_ne hkt] at hk
      exact hi.blamed k v hk

/-- A thread moves on, and may remove no more than before. -/
theorem RemovalInv.moves (hi : RemovalInv b th G) {l : BrokerCall C}
    (howes : ∀ v c, l.Owes (G.failed t) v c → (th t).Owes (G.failed t) v c)
    (hdrop : l.removing = none) : RemovalInv b (Function.update th t l) G := by
  refine ⟨hi.changed, fun k v c hv ho => ?_, fun k v hk => ?_, hi.right⟩
  · by_cases hkt : k = t
    · subst hkt
      rw [Function.update_self] at ho
      exact hi.unchanged k v c hv (howes v c ho)
    · rw [Function.update_of_ne hkt] at ho
      exact hi.unchanged k v c hv ho
  · by_cases hkt : k = t
    · rw [hkt, Function.update_self, hdrop] at hk
      cases hk
    · rw [Function.update_of_ne hkt] at hk
      exact hi.blamed k v hk

/-- The snapshot is the registry. -/
theorem RemovalInv.snapshot (hi : RemovalInv b th G) (e : Event) :
    RemovalInv b (Function.update th t (.publish (.deliver e b.items 0)))
      { G with since := Function.update G.since t fun _ => none } := by
  refine ⟨fun k v y hy => ?_, fun k v c hv ho => ?_, fun k v hk => ?_, hi.right⟩
  · by_cases hkt : k = t
    · rw [hkt] at hy
      simp only [Function.update_self] at hy
      cases hy
    · simp only [Function.update_of_ne hkt] at hy
      exact hi.changed k v y hy
  · by_cases hkt : k = t
    · subst hkt
      rw [Function.update_self] at ho
      exact Dict.mem_items.1 ho
    · rw [Function.update_of_ne hkt] at ho
      simp only [Function.update_of_ne hkt] at hv
      exact hi.unchanged k v c hv ho
  · by_cases hkt : k = t
    · rw [hkt, Function.update_self] at hk
      cases hk
    · rw [Function.update_of_ne hkt] at hk
      exact hi.blamed k v hk

/-- A delivery raises. -/
theorem RemovalInv.fails (hi : RemovalInv b th G) {e : Event} {c : C} {todo : List (Text × C)} {n : ℕ}
    (hpc : th t = .publish (.deliver e ((u, c) :: todo) n)) :
    RemovalInv b (Function.update th t (.publish (.drop u e todo n)))
      { G with failed := Function.update G.failed t (some c) } := by
  refine ⟨hi.changed, fun k v d hv ho => ?_, fun k v hk => ?_, hi.right⟩
  · by_cases hkt : k = t
    · subst hkt
      simp only [Function.update_self] at ho
      refine hi.unchanged k v d hv ?_
      rw [hpc]
      rcases ho with ⟨rfl, hc⟩ | ho
      · cases hc
        exact List.mem_cons_self
      · exact List.mem_cons_of_mem _ ho
    · simp only [Function.update_of_ne hkt] at ho
      exact hi.unchanged k v d hv ho
  · by_cases hkt : k = t
    · exact ⟨c, by simp only [hkt, Function.update_self]⟩
    · rw [Function.update_of_ne hkt] at hk
      simp only [Function.update_of_ne hkt]
      exact hi.blamed k v hk

/-- The removal itself: the registered callback is the one of the snapshot, or what the last change
has left. -/
theorem RemovalInv.removes (hi : RemovalInv b th G) {e : Event} {todo : List (Text × C)} {n : ℕ}
    (hpc : th t = .publish (.drop u e todo n)) :
    RemovalInv (b.unsubscribe u) (Function.update th t (.publish (.deliver e todo n)))
      ((G.record t b u).change u none) := by
  obtain ⟨c, hc⟩ := hi.blamed t u (by rw [hpc]; rfl)
  have hright : (Removal.mk u c (b.get? u) (G.since t u)).Right ↔
      ¬ (Removal.mk u c (b.get? u) (G.since t u)).Renewed := by
    simp only [Removal.Right, Removal.Renewed]
    cases hx : G.since t u with
    | none =>
      have hget := hi.unchanged t u c hx (by rw [hpc]; exact .inl ⟨rfl, hc⟩)
      simp [hget]
    | some x =>
      rw [hi.changed t u x hx]
      rcases x with _ | d
      · simp
      · simp
  have hrec : RemovalInv b th (G.record t b u) := by
    refine { hi with right := fun r hr => ?_ }
    rcases List.mem_append.1 hr with hr | hr
    · exact hi.right r hr
    · rw [hc] at hr
      rw [List.mem_singleton.1 hr]
      exact hright
  refine hrec.change (Dict.get?_pop_self b u) (fun v hv => Dict.get?_pop_of_ne b hv)
    (fun v d _ ho => ?_) rfl
  rw [hpc]
  exact .inr ho

theorem RemovalInv.step {l : BrokerCall C} {a : BrokerAct C} (hi : RemovalInv b th G)
    (hs : brokerStep b (th t) a = some (b', l)) :
    RemovalInv b' (Function.update th t l) (G.next t b (th t) a) := by
  generalize hpc : th t = call at hs
  cases call with
  | idle =>
    cases a with
    | subscribe u c =>
      cases hs
      exact hi.change (Dict.get?_set_self b u c) (fun v hv => Dict.get?_set_of_ne b c hv)
        (fun _ _ _ ho => ho.elim) rfl
    | unsubscribe u =>
      cases hs
      exact hi.change (Dict.get?_pop_self b u) (fun v hv => Dict.get?_pop_of_ne b hv)
        (fun _ _ _ ho => ho.elim) rfl
    | publish topic e =>
      cases hs
      exact hi.moves (fun _ _ ho => ho.elim) rfl
    | step | «return» => cases hs
  | publish pc =>
    cases a with
    | step ok =>
      cases pc with
      | snapshot topic e =>
        cases hs
        exact hi.snapshot ⟨topic, e⟩
      | deliver e todo n =>
        rcases todo with _ | ⟨⟨u, c⟩, todo⟩
        · cases hs
          exact hi.moves (fun _ _ ho => ho.elim) rfl
        · rcases ok with _ | _
          · cases hs
            exact hi.fails hpc
          · cases hs
            refine hi.moves (fun v d ho => ?_) rfl
            rw [hpc]
            exact List.mem_cons_of_mem _ ho
      | drop u e todo n =>
        cases hs
        exact hi.removes hpc
      | done => cases hs
    | «return» =>
      cases pc with
      | done =>
        cases hs
        exact hi.moves (fun _ _ ho => ho.elim) rfl
      | _ => cases hs
    | subscribe | unsubscribe | publish => cases pc <;> cases hs

theorem removalInv_of_reachable {p : Pool.State T (PubSubBroker C) (BrokerCall C) × Removals C T}
    (hr : (droppingBroker C T).Reachable p) : RemovalInv p.1.shared p.1.thread p.2 := by
  refine hr.invariant (fun p => RemovalInv p.1.shared p.1.thread p.2) ?_ ?_
  · rintro ⟨s, G⟩ ⟨⟨hb, hth⟩, hG⟩
    simp only at hG ⊢
    subst hG
    refine ⟨nofun, fun t u c _ ho => ?_, fun t u ht => ?_, nofun⟩
    · rw [show s.thread t = .idle from hth t] at ho
      exact ho.elim
    · rw [show s.thread t = .idle from hth t] at ht
      cases ht
  · rintro ⟨s, G⟩ ⟨t, a⟩ ⟨s', G'⟩ - ih hs
    obtain ⟨hs, hG⟩ := Machine.withHistory_step.1 hs
    obtain ⟨b, l, hstep, rfl⟩ := Pool.machine_step.1 hs
    simp only at hG ih ⊢
    subst hG
    exact ih.step hstep

/-- No `publish` drops an id that was last subscribed, with another callback, since its snapshot. -/
def NoneRenewed (p : Pool.State T (PubSubBroker C) (BrokerCall C) × Removals C T)
    (a : T × BrokerAct C) : Prop :=
  ∀ u ∈ (p.1.thread a.1).removing, ∀ c ∈ p.2.failed a.1, ∀ x ∈ p.2.since a.1 u, ∀ d ∈ x, d = c

theorem removals_next (G : Removals C T) (t : T) (b : PubSubBroker C) (call : BrokerCall C)
    (a : BrokerAct C) {r : Removal C} (hr : r ∈ (G.next t b call a).removals) :
    r ∈ G.removals ∨ ∃ u ∈ call.removing, ∃ c ∈ G.failed t,
      r = ⟨u, c, b.get? u, G.since t u⟩ := by
  unfold Removals.next at hr
  split at hr
  case h_5 u _ _ _ _ =>
    rcases List.mem_append.1 hr with hr | hr
    · exact .inl hr
    · obtain ⟨c, hc, rfl⟩ := List.mem_map.1 hr
      exact .inr ⟨u, rfl, c, Option.mem_toList.1 hc, rfl⟩
  all_goals exact .inl hr

/-- **A failed delivery drops the callback that raised, unless its id was subscribed again.**  In
every run, a removal hits the callback whose delivery raised, or nothing, if and only if the last
change of the id since the snapshot was no `subscribe` with another callback.  So in every run
without such a removal, only callbacks that raised are dropped. -/
theorem drops_failed_iff :
    (∀ p, (droppingBroker C T).Reachable p → ∀ r ∈ p.2.removals, r.Right ↔ ¬ r.Renewed) ∧
    ∀ p, (droppingBroker C T).Reach NoneRenewed p → ∀ r ∈ p.2.removals, r.Right := by
  refine ⟨fun p hr => (removalInv_of_reachable hr).right, fun p hr r hmem => ?_⟩
  refine ((removalInv_of_reachable hr.reachable).right r hmem).2 ?_
  refine hr.invariant (fun p => ∀ r ∈ p.2.removals, ¬ r.Renewed) ?_ ?_ r hmem
  · rintro ⟨s, G⟩ ⟨-, hG⟩ r hr
    simp only at hG hr
    rw [hG] at hr
    cases hr
  · rintro p ⟨t, a⟩ q - ih hok hs r hr
    rw [(Machine.withHistory_step.1 hs).2] at hr
    rcases removals_next _ _ _ _ _ hr with hr | ⟨u, hu, c, hc, rfl⟩
    · exact ih r hr
    · rintro ⟨d, hd, hne⟩
      exact hne (hok u hu c hc (some d) hd d rfl)

/-! ### Runs -/

instance [DecidableEq C] : DecidableRel (NoneRenewed (C := C) (T := T)) := fun _ _ => by
  unfold NoneRenewed
  infer_instance

/-- The thread `t` publishes to the callback `c` of an id, and the delivery raises; `between` happens
between the snapshot and the delivery. -/
def raisingRun (t k : T) (c : C) (between : List (T × BrokerAct C)) : List (T × BrokerAct C) :=
  (k, .subscribe (lit "ENG001") c) :: (t, .publish topicResourceUpdate ⟨1, none, .null⟩) ::
    (t, .step true) :: between ++ [(t, .step false), (t, .step true)]

/-- The id is unsubscribed, and subscribed again with another callback: that one is dropped. -/
theorem raisingRun_drops_renewed :
    ¬ ∀ p, (droppingBroker ℕ (Fin 2)).Reachable p → ∀ r ∈ p.2.removals, r.Right := by
  intro hall
  have hs : ((droppingBroker ℕ (Fin 2)).run (brokerStart, {})
      (raisingRun 0 1 0 [(1, .unsubscribe (lit "ENG001")), (1, .subscribe (lit "ENG001") 1)])).map
        (fun p => p.2.removals.map fun r => (r.failed, r.registered)) = some [(0, some 1)] := by decide
  obtain ⟨p, hrun, hval⟩ := Option.map_eq_some_iff.1 hs
  have hr : (droppingBroker ℕ (Fin 2)).Reachable p :=
    Machine.Reachable.run (s := (brokerStart, {})) (.init ⟨⟨rfl, fun _ => rfl⟩, rfl⟩) hrun
  obtain ⟨r, hmem, hfields⟩ := List.mem_map.1 (hval ▸ List.mem_singleton_self _)
  obtain ⟨hfailed, hreg⟩ := Prod.mk.inj hfields
  rcases hall p hr r hmem with h | h
  · rw [hreg] at h
    cases h
  · rw [hreg, hfailed] at h
    cases h

/-- Nothing happens in between: the callback that raised is dropped. -/
theorem raisingRun_drops_failed :
    ∃ p, (droppingBroker ℕ (Fin 2)).runIf NoneRenewed (brokerStart, {})
        (raisingRun 0 1 0 []) = some p ∧
      ∃ r ∈ p.2.removals, r.registered = some 0 ∧ r.Right ∧ ¬ r.Renewed := by
  have hs : ((droppingBroker ℕ (Fin 2)).runIf NoneRenewed (brokerStart, {})
      (raisingRun 0 1 0 [])).map
        (fun p => p.2.removals.map fun r => (r.failed, r.registered)) = some [(0, some 0)] := by decide
  obtain ⟨p, hrun, hval⟩ := Option.map_eq_some_iff.1 hs
  have hr : (droppingBroker ℕ (Fin 2)).Reach NoneRenewed p :=
    Machine.Reach.runIf (s := (brokerStart, {})) (.init ⟨⟨rfl, fun _ => rfl⟩, rfl⟩) hrun
  obtain ⟨r, hmem, hfields⟩ := List.mem_map.1 (hval ▸ List.mem_singleton_self _)
  have hright := drops_failed_iff.2 p hr r hmem
  exact ⟨p, hrun, r, hmem, (Prod.mk.inj hfields).2, hright,
    (drops_failed_iff.1 p hr.reachable r hmem).1 hright⟩

end Removals

/-! ## The handlers of the server -/

section Handlers

variable {H : Type}

/-- The call of the broker that a handler is in. -/
def HandlerPc.brokerCall : HandlerPc H → BrokerCall H
  | .publish pc => .publish pc
  | _ => .idle

theorem brokerCall_of_atRest {pc : HandlerPc H} (h : pc.atRest = true) : pc.brokerCall = .idle := by
  cases pc <;> first | rfl | cases h

theorem brokerCall_cleanup (l : ClientHandler H) : l.cleanup.pc.brokerCall = .idle :=
  brokerCall_of_atRest (atRest_cleanup l)

theorem brokerCall_dispatch (cfg : Config) (l : ClientHandler H) (m : Json) :
    (l.dispatch cfg m).pc.brokerCall = .idle := by
  have hd := dispatch_cases cfg l m
  generalize l.dispatch cfg m = l' at hd
  cases hd with
  | notDict | unhashable => exact brokerCall_cleanup l
  | ignored | login | refused | read | write | logout | ping | unknown => rfl

theorem brokerCall_of_ne {pc : HandlerPc H} (h : ∀ p, pc ≠ .publish p) : pc.brokerCall = .idle := by
  cases pc with
  | publish p => exact absurd rfl (h p)
  | _ => rfl

variable [DecidableEq H] {cfg : Config} {h : H} {s s' : DistResServer H} {l l' : ClientHandler H}
  {a : HandlerAct}

omit [DecidableEq H] in
theorem brokerCall_handleLogin (id : Json) (pc : LoginPc) :
    (handleLogin cfg h s l id pc).2.pc.brokerCall = .idle := by
  refine handleLogin_pc cfg h s id pc (P := fun p => p.brokerCall = .idle) (brokerCall_cleanup l) ?_ ?_
  · exact fun r => rfl
  · exact fun pc' => rfl

/-- A handler that is in no `publish` enters one, or none. -/
theorem brokerCall_of_step (hs : handlerStep cfg h s l a = some (s', l'))
    (hne : ∀ pc, l.pc ≠ .publish pc) : l'.pc.brokerCall = .idle ∨
      s'.broker = s.broker ∧ ∃ topic e, l'.pc = .publish (.snapshot topic e) := by
  cases handlerStep_cases hs with
  | accept | readReturns | writeReturns => exact .inl rfl
  | receive m => exact .inl (brokerCall_dispatch cfg l m)
  | hangup | unsent | authenticate | readRaised | writeRaised => exact .inl (brokerCall_cleanup l)
  | respond r next =>
    cases next with
    | loop => exact .inl rfl
    | publish v text => exact .inr ⟨rfl, _, _, rfl⟩
    | release => exact .inl (brokerCall_of_atRest (atRest_releaseSession l .logout))
  | login id pc => exact .inl (brokerCall_handleLogin id pc)
  | read id u pc a _ hread =>
    obtain ⟨d, pc', -, -, rfl⟩ := handleRead_cases hread
    exact .inl rfl
  | write id content u pc a _ hwrite =>
    obtain ⟨d, pc', -, -, rfl⟩ := handleWrite_cases hwrite
    exact .inl rfl
  | readDone | writeDone => split <;> exact .inl rfl
  | publish pc _ _ _ _ h1 => exact absurd h1 (hne pc)
  | published n h1 => exact absurd h1 (hne _)
  | release pc caller => exact .inl (brokerCall_of_atRest (atRest_releaseStep l cfg s caller pc))

/-- A handler leaves the broker alone, or takes a step of one of its calls. -/
theorem brokerStep_of_handlerStep (hs : handlerStep cfg h s l a = some (s', l')) :
    (s'.broker = s.broker ∧ l'.pc.brokerCall = l.pc.brokerCall) ∨
      ∃ b, brokerStep s.broker l.pc.brokerCall b = some (s'.broker, l'.pc.brokerCall) := by
  by_cases hp : ∃ pc, l.pc = .publish pc
  · obtain ⟨pc, hpc⟩ := hp
    cases handlerStep_cases hs with
    | publish pc pc' ok b d h1 hok hpub =>
      refine .inr ⟨.step ok, ?_⟩
      have hd : ({ s with broker := b }.delivered d).broker = b := by cases d <;> rfl
      rw [h1, hd]
      cases pc with
      | done => cases hpub
      | _ =>
        simp only [HandlerPc.brokerCall, brokerStep, hpub]
        rfl
    | published n h1 =>
      refine .inr ⟨.return, ?_⟩
      rw [h1]
      rfl
    | _ => simp_all
  · have hne : ∀ pc, l.pc ≠ .publish pc := fun pc hpc => hp ⟨pc, hpc⟩
    rw [brokerCall_of_ne hne]
    rcases brokerCall_of_step hs hne with hidle | ⟨hb, topic, e, hpc⟩
    · rw [hidle]
      rcases broker_of_step hs with hb | ⟨id, u, -, hb, -⟩ | ⟨u, c, -, hb⟩ | ⟨u, e, todo, n, hpc, -⟩
      · exact .inl ⟨hb, rfl⟩
      · exact .inr ⟨.subscribe u h, by rw [hb]; rfl⟩
      · exact .inr ⟨.unsubscribe u, by rw [hb]; rfl⟩
      · exact absurd hpc (hne _)
    · exact .inr ⟨.publish topic e, by rw [hb, hpc]; rfl⟩

/-- The broker of a server, with its handlers. -/
def brokerOf (s : Pool.State H (DistResServer H) (ClientHandler H)) :
    Pool.State H (PubSubBroker H) (BrokerCall H) :=
  ⟨s.shared.broker, fun h => (s.thread h).pc.brokerCall⟩

theorem brokerCall_update (th : H → ClientHandler H) (h : H) (l : ClientHandler H) :
    (fun k => (Function.update th h l k).pc.brokerCall) =
      Function.update (fun k => (th k).pc.brokerCall) h l.pc.brokerCall :=
  Function.comp_update (fun l : ClientHandler H => l.pc.brokerCall) th h l

/-- **The handlers are threads of the broker**: what holds of every run of the broker holds of the
broker of the server. -/
theorem broker_of_server {file : Bytes} {s : Pool.State H (DistResServer H) (ClientHandler H)}
    (hr : (serverMachine cfg H file).Reachable s) : (brokerMachine H H).Reachable (brokerOf s) := by
  refine hr.map brokerOf (fun s hs => ?_) ?_
  · have hb : s.shared = { data := { file := file }, sessions := cfg.maxSessions } := hs.1
    have hth : ∀ h, s.thread h = {} := hs.2
    exact ⟨by rw [brokerOf, hb]; rfl, fun h => by simp only [brokerOf, hth]; rfl⟩
  · rintro s ⟨h, a⟩ s' - - hs
    obtain ⟨d, l, hstep, rfl⟩ := Pool.machine_step.1 hs
    simp only [brokerOf, brokerCall_update]
    rcases brokerStep_of_handlerStep hstep with ⟨hb, hc⟩ | ⟨b, hb⟩
    · left
      rw [hb, hc, Function.update_eq_self_iff.2 rfl]
    · exact .inr ⟨(h, b), trivial, Pool.machine_step.2 ⟨_, _, hb, rfl⟩⟩

end Handlers

end DistRes
