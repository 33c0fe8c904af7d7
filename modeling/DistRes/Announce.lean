import DistRes.LogRefinement
import DistRes.ServerSteps

/-!
# What becomes of a committed write

A write that has committed is returned to its handler, replied to the writer and published, in this
order and with nothing held in between.

* `AnnounceEffect` is everything that a step does, seen from these stages and from the EVENTs that
  have been put on the sockets;
* `published_iff_replied` — a write is published, and then once, exactly when its reply could be sent;
* `events_in_order` — on every socket the versions increase, as long as no delivery overtakes a
  lower version.
-/

namespace DistRes

open Lib

/-! ## The stages of a write -/

/-- The version that an outcome tells of a commit. -/
def committedIn : Outcome → Option ℕ
  | .ok r => if r.ok then some r.version else none
  | .error _ => none

def WritePc.carried : WritePc → Option ℕ
  | .release o | .done o => committedIn o
  | _ => none

/-- The version that a handler has committed and not published yet. -/
def HandlerPc.carried {H : Type} : HandlerPc H → Option ℕ
  | .write _ _ _ pc => pc.carried
  | .writeDone _ _ _ r => committedIn (.ok r)
  | .respond _ (.publish v _) => some v
  | .publish (.snapshot _ payload) => some payload.version
  | _ => none

/-- The version that a handler has replied and not published yet. -/
def HandlerPc.replied {H : Type} : HandlerPc H → Option ℕ
  | .publish (.snapshot _ payload) => some payload.version
  | _ => none

/-- The deliveries that a handler has not made yet. -/
def HandlerPc.due {H : Type} : HandlerPc H → List (H × ℕ)
  | .publish (.deliver e todo _) | .publish (.drop _ e todo _) =>
    todo.map fun x => (x.2, e.payload.version)
  | _ => []

/-- The delivery that a step of a handler at the given point makes. -/
def delivery {H : Type} : HandlerPc H → HandlerAct → Option (H × ℕ)
  | .publish (.deliver e ((_, t) :: _) _), .go => some (t, e.payload.version)
  | _, _ => none

/-- The versions of the EVENTs among the messages on a socket. -/
def eventVersions (ms : List ServerMessage) : List ℕ :=
  ms.filterMap fun m => match m with
    | .event e => some e.payload.version
    | .response _ => none

@[simp] theorem eventVersions_append (ms ns : List ServerMessage) :
    eventVersions (ms ++ ns) = eventVersions ms ++ eventVersions ns := List.filterMap_append

@[simp] theorem eventVersions_event (e : Event) : eventVersions [.event e] = [e.payload.version] := rfl
@[simp] theorem eventVersions_response (r : Response) : eventVersions [.response r] = [] := rfl

/-- A stage that a write reaches. -/
inductive Stage
  | returned (v : ℕ)
  | replied (v : ℕ)
  | published (v : ℕ)

/-- The stage that a step of a handler at the given point reaches. -/
def stage {H : Type} : HandlerPc H → HandlerAct → Option Stage
  | .write _ _ _ (.done o), .go => (committedIn o).map .returned
  | .respond _ (.publish v _), .go => some (.replied v)
  | .publish (.snapshot _ payload), .go => some (.published payload.version)
  | _, _ => none

section Points

variable {H : Type} (l : ClientHandler H)

/-- A point at which a handler carries no write and owes no delivery. -/
def HandlerPc.clear (pc : HandlerPc H) : Prop := pc.carried = none ∧ pc.due = []

theorem replied_of_carried {pc : HandlerPc H} (h : pc.carried = none) : pc.replied = none := by
  unfold HandlerPc.replied
  split
  · cases h
  · rfl

/-- A handler that is between two messages, on its way out, or out. -/
def HandlerPc.atRest : HandlerPc H → Bool
  | .recv | .release _ _ | .ended => true
  | _ => false

theorem atRest_return (caller : Caller) : (caller.return : HandlerPc H).atRest = true := by
  cases caller <;> rfl

theorem atRest_releaseSession (caller : Caller) : (l.releaseSession caller).pc.atRest = true := by
  unfold ClientHandler.releaseSession
  split
  · rfl
  · rfl
  · exact atRest_return caller

theorem atRest_cleanup : l.cleanup.pc.atRest = true := atRest_releaseSession l .cleanup

theorem atRest_releaseStep (cfg : Config) (s : DistResServer H) (caller : Caller) (pc : ReleasePc) :
    (releaseStep cfg s l caller pc).2.pc.atRest = true := by
  cases pc with
  | unsubscribe | unregister => rfl
  | clear => exact atRest_releaseSession _ caller
  | free =>
    simp only [releaseStep]
    split_ifs
    · rfl
    · cases caller with
      | logout => exact atRest_cleanup l
      | cleanup => rfl
  | unhold => exact atRest_return caller

theorem clear_of_atRest {pc : HandlerPc H} (h : pc.atRest = true) : pc.clear := by
  cases pc <;> first | exact ⟨rfl, rfl⟩ | cases h

theorem clear_cleanup : l.cleanup.pc.clear := clear_of_atRest (atRest_cleanup l)

theorem clear_reject (id : Json) (message : Text) : (l.reject id message).pc.clear := ⟨rfl, rfl⟩

theorem clear_dispatch (cfg : Config) (m : Json) : (l.dispatch cfg m).pc.clear := by
  have hd := dispatch_cases cfg l m
  generalize l.dispatch cfg m = l' at hd
  cases hd with
  | notDict | unhashable => exact clear_cleanup l
  | ignored | login | refused | read | write | logout | ping | unknown => exact ⟨rfl, rfl⟩

theorem clear_handleLogin [DecidableEq H] (cfg : Config) (h : H) (s : DistResServer H) (id : Json)
    (pc : LoginPc) : (handleLogin cfg h s l id pc).2.pc.clear := by
  exact handleLogin_pc cfg h s id pc (clear_cleanup l) (fun r => ⟨rfl, rfl⟩) fun pc' => ⟨rfl, rfl⟩

end Points

/-! ## What a step does -/

theorem readResource_version {T : Type} [DecidableEq T] {t : T} {d d' : DataLayer T} {pc pc' : ReadPc}
    {a : DataAct} (h : readResource t d pc a = some (d', pc')) : d'.version = d.version := by
  cases readResource_effect h with
  | silent _ hv => exact hv
  | loaded | unreadable | seen | refused | raised => rfl

/-- What a call holds of a commit. -/
def Call.carried (c : Call) : Option ℕ :=
  match c.toLog with
  | .finished o => committedIn o
  | _ => none

theorem carried_write (u x : Text) (pc : WritePc) : (Call.write u x pc).carried = pc.carried := by
  cases pc <;> rfl

theorem carried_of_pending {c : Call} {op : LogOp (Text × Text)} (h : c.toLog = .pending op) :
    c.carried = none := by rw [Call.carried, h]

theorem carried_of_finished {c : Call} {o : Outcome} (h : c.toLog = .finished o) :
    c.carried = committedIn o := by rw [Call.carried, h]

theorem writeResource_carried {T : Type} [DecidableEq T] {t : T} {u x : Text} {d d' : DataLayer T}
    {pc pc' : WritePc} {a : DataAct} (h : writeResource t u x d pc a = some (d', pc')) :
    d'.version = d.version ∧ pc'.carried = pc.carried ∨
      pc.carried = none ∧ d'.version = d.version + 1 ∧ pc'.carried = some (d.version + 1) := by
  rw [← carried_write u x pc, ← carried_write u x pc']
  cases writeResource_effect h with
  | silent _ hv htl => exact .inl ⟨hv, by simp only [Call.carried, htl]⟩
  | opened | flushed | closed | torn | unclosed => exact .inl ⟨rfl, rfl⟩
  | refused op h1 h2 =>
    exact .inl ⟨rfl, by rw [carried_of_pending h1, carried_of_finished h2]; rfl⟩
  | raised op e h1 h2 =>
    exact .inl ⟨rfl, by rw [carried_of_pending h1, carried_of_finished h2]; rfl⟩
  | bumped => exact .inr ⟨rfl, rfl, rfl⟩

section Effect

variable {H : Type} [DecidableEq H] {cfg : Config}

/-- **What a step of a handler does** to the writes that are to be announced. -/
inductive AnnounceEffect (s : DistResServer H) (l : ClientHandler H) (a : HandlerAct)
    (s' : DistResServer H) (l' : ClientHandler H) : Prop
  | quiet : s'.data.version = s.data.version →
      (∀ t, eventVersions (s'.sockets t) = eventVersions (s.sockets t)) →
      l'.pc.carried = l.pc.carried → l'.pc.replied = l.pc.replied → l'.pc.due.Sublist l.pc.due →
      stage l.pc a = none → AnnounceEffect s l a s' l'
  | commits : s'.data.version = s.data.version + 1 → s'.sockets = s.sockets →
      l.pc.carried = none → l'.pc.carried = some (s.data.version + 1) → l'.pc.replied = none →
      l'.pc.due = [] → stage l.pc a = none → AnnounceEffect s l a s' l'
  | returns (v : ℕ) : s' = s → l.pc.carried = some v → l'.pc.carried = some v →
      l.pc.replied = none → l'.pc.replied = none → l'.pc.due = [] →
      stage l.pc a = some (.returned v) → AnnounceEffect s l a s' l'
  | replies (v : ℕ) : s'.data.version = s.data.version →
      (∀ t, eventVersions (s'.sockets t) = eventVersions (s.sockets t)) →
      (∃ r x, l.pc = .respond r (.publish v x)) → l'.pc.carried = some v →
      l'.pc.replied = some v → l'.pc.due = [] → stage l.pc a = some (.replied v) →
      AnnounceEffect s l a s' l'
  | loses (v : ℕ) : s' = s → (∃ r x, l.pc = .respond r (.publish v x)) → a = .fail → l'.pc.clear →
      AnnounceEffect s l a s' l'
  | publishes (e : Update) (topic : Text) : s' = s → l.pc = .publish (.snapshot topic e) →
      l'.pc.carried = none → (∀ x ∈ l'.pc.due, x.2 = e.version) →
      stage l.pc a = some (.published e.version) → AnnounceEffect s l a s' l'
  | delivers (t : H) (v : ℕ) : s'.data.version = s.data.version →
      eventVersions (s'.sockets t) = eventVersions (s.sockets t) ++ [v] →
      (∀ u, u ≠ t → s'.sockets u = s.sockets u) → l.pc.carried = none → l'.pc.carried = none →
      l.pc.due = (t, v) :: l'.pc.due → stage l.pc a = none → delivery l.pc a = some (t, v) →
      AnnounceEffect s l a s' l'

omit [DecidableEq H] in
/-- A step between two points at which nothing is carried or due. -/
theorem AnnounceEffect.of_clear {s s' : DistResServer H} {l l' : ClientHandler H} {a : HandlerAct}
    (hv : s'.data.version = s.data.version) (hsock : s'.sockets = s.sockets)
    (hc : l.pc.carried = none) (hc' : l'.pc.clear) (hstage : stage l.pc a = none) :
    AnnounceEffect s l a s' l' :=
  .quiet hv (fun t => by rw [hsock]) (hc'.1.trans hc.symm)
    ((replied_of_carried hc'.1).trans (replied_of_carried hc).symm)
    (by rw [hc'.2]; exact List.nil_sublist _) hstage

theorem eventVersions_send_response (s : DistResServer H) (h : H) (r : Response) (t : H) :
    eventVersions ((s.send h (.response r)).sockets t) = eventVersions (s.sockets t) := by
  by_cases ht : t = h
  · subst ht
    simp [DistResServer.send]
  · simp [DistResServer.send, ht]

theorem handleRead_announces {h : H} {s s' : DistResServer H} {l l' : ClientHandler H} {id : Json}
    {u : Text} {pc : ReadPc} {a : DataAct} (hpc : l.pc = .read id u pc)
    (hs : handleRead h s l id u pc a = some (s', l')) : AnnounceEffect s l (.data a) s' l' := by
  obtain ⟨d, pc', hread, hin, rfl⟩ := handleRead_cases hs
  have hv := readResource_version hread
  exact .of_clear (hin.data ▸ hv) hin.sockets (by rw [hpc]; rfl) ⟨rfl, rfl⟩ (by rw [hpc]; rfl)

theorem handleWrite_announces {h : H} {s s' : DistResServer H} {l l' : ClientHandler H}
    {id content : Json} {u : Text} {pc : WritePc} {a : DataAct} (hpc : l.pc = .write id content u pc)
    (hs : handleWrite cfg h s l id content u pc a = some (s', l')) :
    AnnounceEffect s l (.data a) s' l' := by
  obtain ⟨d, pc', hwrite, hin, rfl⟩ := handleWrite_cases hs
  have hc : l.pc.carried = pc.carried := by rw [hpc]; rfl
  have hstage : stage l.pc (.data a) = none := by rw [hpc]; cases pc <;> rfl
  have hrep : l.pc.replied = none := by rw [hpc]; rfl
  rcases writeResource_carried hwrite with ⟨hv, hcar⟩ | ⟨h0, hv, h1⟩
  · exact .quiet (hin.data ▸ hv) (fun t => by rw [hin.sockets]) (hcar.trans hc.symm) hrep.symm
      (List.nil_sublist _) hstage
  · exact .commits (hin.data ▸ hv) hin.sockets (hc.trans h0) h1 rfl rfl hstage

/-- What `publish` does, a delivery that succeeds or fails, seen from the stages. -/
theorem publish_announces (ok : Bool) {s : DistResServer H} {l : ClientHandler H} {pc pc' : PublishPc H}
    {broker : PubSubBroker H} {d : Option (H × Event)} (hpc : l.pc = .publish pc)
    (hok : ok = false → ∃ e x todo n, pc = .deliver e (x :: todo) n)
    (hp : publish s.broker ok pc = some (broker, pc', d)) :
    AnnounceEffect s l (if ok then .go else .fail) ({ s with broker }.delivered d)
      { l with pc := .publish pc' } := by
  unfold publish at hp
  split at hp
  case h_1 topic payload =>
    cases hp
    cases ok with
    | false =>
      obtain ⟨e, x, todo, n, h⟩ := hok rfl
      cases h
    | true =>
      refine .publishes payload topic rfl hpc rfl ?_ (by rw [hpc]; rfl)
      intro x hx
      obtain ⟨y, -, rfl⟩ := List.mem_map.1 hx
      rfl
  case h_2 e u t todo n =>
    split_ifs at hp with hb <;> cases hp
    · refine .delivers t e.payload.version rfl ?_ ?_ (by rw [hpc]; rfl) rfl (by rw [hpc]; rfl)
        (by rw [hpc]; rfl) (by rw [hpc, if_pos hb]; rfl)
      · simp [DistResServer.delivered, DistResServer.send]
      · intro v hv
        simp [DistResServer.delivered, DistResServer.send, hv]
    · refine .quiet rfl (fun _ => rfl) (by rw [hpc]; rfl) (by rw [hpc]; rfl) ?_ (by rw [hpc]; rfl)
      rw [hpc]
      exact List.sublist_cons_self _ _
  case h_3 =>
    cases hp
    exact .of_clear rfl rfl (by rw [hpc]; rfl) ⟨rfl, rfl⟩ (by rw [hpc]; rfl)
  case h_4 =>
    cases hp
    refine .quiet rfl (fun _ => rfl) (by rw [hpc]; rfl) (by rw [hpc]; rfl) ?_ (by rw [hpc]; rfl)
    rw [hpc]
    exact List.Sublist.refl _
  case h_5 => cases hp

theorem handlerStep_announces {h : H} {s s' : DistResServer H} {l l' : ClientHandler H} {a : HandlerAct}
    (hs : handlerStep cfg h s l a = some (s', l')) : AnnounceEffect s l a s' l' := by
  cases handlerStep_cases hs with
  | accept hpc => exact .of_clear rfl rfl (by rw [hpc]; rfl) ⟨rfl, rfl⟩ (by rw [hpc]; rfl)
  | receive m hpc =>
    exact .of_clear rfl rfl (by rw [hpc]; rfl) (clear_dispatch l cfg m) (by rw [hpc]; rfl)
  | hangup hpc => exact .of_clear rfl rfl (by rw [hpc]; rfl) (clear_cleanup l) (by rw [hpc]; rfl)
  | respond r next hpc =>
    cases next with
    | loop =>
      exact .quiet rfl (eventVersions_send_response s h r) (by rw [hpc]; rfl) (by rw [hpc]; rfl)
        (List.nil_sublist _) (by rw [hpc]; rfl)
    | publish v x =>
      exact .replies v rfl (eventVersions_send_response s h r) ⟨r, x, hpc⟩ rfl rfl rfl
        (by rw [hpc]; rfl)
    | release =>
      have hcl := clear_of_atRest (atRest_releaseSession l .logout)
      refine .quiet rfl (eventVersions_send_response s h r) ?_ ?_ ?_ (by rw [hpc]; rfl)
      · rw [hpc]
        exact hcl.1
      · rw [hpc]
        exact replied_of_carried hcl.1
      · rw [show (l.proceed .release).pc.due = [] from hcl.2]
        exact List.nil_sublist _
  | unsent r next hpc =>
    cases next with
    | loop => exact .of_clear rfl rfl (by rw [hpc]; rfl) (clear_cleanup l) (by rw [hpc]; rfl)
    | publish v x => exact .loses v rfl ⟨r, x, hpc⟩ rfl (clear_cleanup l)
    | release => exact .of_clear rfl rfl (by rw [hpc]; rfl) (clear_cleanup l) (by rw [hpc]; rfl)
  | login id pc hpc =>
    have hd := handleLogin_data cfg h s l id pc
    exact .of_clear (by rw [hd.1]) hd.2 (by rw [hpc]; rfl) (clear_handleLogin l cfg h s id pc)
      (by rw [hpc]; rfl)
  | authenticate _ _ _ hpc =>
    exact .of_clear rfl rfl (by rw [hpc]; rfl) (clear_cleanup l) (by rw [hpc]; rfl)
  | read id u pc b hpc hread => exact handleRead_announces hpc hread
  | readRaised _ _ _ hpc =>
    exact .of_clear rfl rfl (by rw [hpc]; rfl) (clear_cleanup l) (by rw [hpc]; rfl)
  | readReturns id u r hpc =>
    exact .of_clear rfl rfl (by rw [hpc]; rfl) ⟨rfl, rfl⟩ (by rw [hpc]; rfl)
  | readDone id u r hpc =>
    refine .of_clear rfl rfl (by rw [hpc]; rfl) ?_ (by rw [hpc]; rfl)
    split
    · exact ⟨rfl, rfl⟩
    · exact clear_reject l _ _
  | write id content u pc b hpc hwrite => exact handleWrite_announces hpc hwrite
  | writeRaised _ _ _ _ hpc =>
    exact .of_clear rfl rfl (by rw [hpc]; rfl) (clear_cleanup l) (by rw [hpc]; rfl)
  | writeReturns id content u r hpc =>
    by_cases hok : r.ok = true
    · refine .returns r.version rfl ?_ ?_ (by rw [hpc]; rfl) rfl rfl ?_ <;> simp [hpc,
        HandlerPc.carried, WritePc.carried, committedIn, stage, hok]
    · refine .of_clear rfl rfl ?_ ⟨?_, rfl⟩ ?_ <;> simp [hpc, HandlerPc.carried, WritePc.carried,
        committedIn, stage, hok]
  | writeDone id content u r hpc =>
    by_cases hok : r.ok = true
    · refine .quiet rfl (fun _ => rfl) ?_ ?_ ?_ ?_ <;> simp [hpc, HandlerPc.carried,
        HandlerPc.replied, HandlerPc.due, committedIn, stage, hok, ClientHandler.respond]
    · refine .of_clear rfl rfl ?_ ?_ ?_
      · simp [hpc, HandlerPc.carried, committedIn, hok]
      · rw [if_neg hok]
        exact clear_reject l _ _
      · rw [hpc]
        rfl
  | publish pc pc' ok b d hpc hok hp => exact publish_announces ok hpc hok hp
  | published n hpc => exact .of_clear rfl rfl (by rw [hpc]; rfl) ⟨rfl, rfl⟩ (by rw [hpc]; rfl)
  | release pc caller hpc =>
    have hd := releaseStep_data cfg s l caller pc
    exact .of_clear (by rw [hd.1]) hd.2 (by rw [hpc]; rfl)
      (clear_of_atRest (atRest_releaseStep l cfg s caller pc)) (by rw [hpc]; rfl)

end Effect

/-! ## Every replied write is published, once -/

/-- The stages that writes have reached, and the handlers that they were returned to. -/
structure Announcements (H : Type) where
  returned : List (H × ℕ) := []
  replied : List ℕ := []
  published : List ℕ := []

/-- The stages after a step of `h`. -/
def Announcements.reach {H : Type} (A : Announcements H) (h : H) : Option Stage → Announcements H
  | none => A
  | some (.returned v) => { A with returned := A.returned ++ [(h, v)] }
  | some (.replied v) => { A with replied := A.replied ++ [v] }
  | some (.published v) => { A with published := A.published ++ [v] }

/-- The server with the stages that its writes have reached. -/
def announcingServer (cfg : Config) (H : Type) [DecidableEq H] (file : Bytes) :=
  (serverMachine cfg H file).withHistory ({} : Announcements H) fun A s a _ =>
    A.reach a.1 (stage (s.thread a.1).pc a.2)

section Announced

variable {H : Type} [DecidableEq H]

/-- **The invariant of the announcements**, for the versions `c` that handlers carry and the
versions `r` that they have replied. -/
structure AnnounceInv (version : ℕ) (c r : H → Option ℕ) (A : Announcements H) : Prop where
  carried : ∀ h v, r h = some v → c h = some v
  alone : ∀ h h' v, c h = some v → c h' = some v → h = h'
  bound : ∀ h v, c h = some v → v ≤ version
  unpublished : ∀ h v, c h = some v → v ∉ A.published
  once : A.published.Nodup
  publishedBound : ∀ v ∈ A.published, v ≤ version
  repliedBound : ∀ v ∈ A.replied, v ≤ version
  returnedBound : ∀ h v, (h, v) ∈ A.returned → v ≤ version
  owner : ∀ h h' v, (h, v) ∈ A.returned → c h' = some v → h' = h
  publishedReplied : ∀ v ∈ A.published, v ∈ A.replied
  repliedHeld : ∀ h v, r h = some v → v ∈ A.replied
  repliedNext : ∀ v ∈ A.replied, v ∈ A.published ∨ ∃ h, r h = some v

variable {version : ℕ} {c r : H → Option ℕ} {A : Announcements H} {h : H} {v : ℕ}

/-- What holds of the others after `h` has moved holds of everybody but `h` before. -/
theorem of_update_eq_some {f : H → Option ℕ} {x : Option ℕ} {k : H}
    (hk : Function.update f h x k = some v) :
    k = h ∧ x = some v ∨ k ≠ h ∧ f k = some v := by
  by_cases hkh : k = h
  · subst hkh
    rw [Function.update_self] at hk
    exact .inl ⟨rfl, hk⟩
  · rw [Function.update_of_ne hkh] at hk
    exact .inr ⟨hkh, hk⟩

theorem AnnounceInv.commits (hi : AnnounceInv version c r A) (hc : c h = none) :
    AnnounceInv (version + 1) (Function.update c h (some (version + 1))) r A := by
  have hnew : ∀ w, w ≤ version → w ≠ version + 1 := fun w hw => by omega
  refine ⟨?_, ?_, ?_, ?_, hi.once, ?_, ?_, ?_, ?_, hi.publishedReplied, hi.repliedHeld,
    hi.repliedNext⟩
  · intro k w hk
    have hck := hi.carried k w hk
    by_cases hkh : k = h
    · rw [hkh, hc] at hck
      cases hck
    · rwa [Function.update_of_ne hkh]
  · intro k k' w hk hk'
    rcases of_update_eq_some hk with ⟨h1, hw⟩ | ⟨-, hc1⟩ <;>
      rcases of_update_eq_some hk' with ⟨h2, hw'⟩ | ⟨-, hc2⟩
    · exact h1.trans h2.symm
    · exact absurd (Option.some.inj hw).symm (hnew w (hi.bound k' w hc2))
    · exact absurd (Option.some.inj hw').symm (hnew w (hi.bound k w hc1))
    · exact hi.alone k k' w hc1 hc2
  · intro k w hk
    rcases of_update_eq_some hk with ⟨-, hw⟩ | ⟨-, hk⟩
    · exact le_of_eq (Option.some.inj hw).symm
    · exact Nat.le_succ_of_le (hi.bound k w hk)
  · intro k w hk hm
    rcases of_update_eq_some hk with ⟨-, hw⟩ | ⟨-, hk⟩
    · exact hnew w (hi.publishedBound w hm) (Option.some.inj hw).symm
    · exact hi.unpublished k w hk hm
  · exact fun w hm => Nat.le_succ_of_le (hi.publishedBound w hm)
  · exact fun w hm => Nat.le_succ_of_le (hi.repliedBound w hm)
  · exact fun k w hm => Nat.le_succ_of_le (hi.returnedBound k w hm)
  · intro k k' w hm hk'
    rcases of_update_eq_some hk' with ⟨-, hw⟩ | ⟨-, hk'⟩
    · exact absurd (Option.some.inj hw).symm (hnew w (hi.returnedBound k w hm))
    · exact hi.owner k k' w hm hk'

omit [DecidableEq H] in
theorem AnnounceInv.returns (hi : AnnounceInv version c r A) (hc : c h = some v) :
    AnnounceInv version c r (A.reach h (some (.returned v))) := by
  refine { hi with returnedBound := ?_, owner := ?_ }
  · intro k w hm
    rcases List.mem_append.1 hm with hm | hm
    · exact hi.returnedBound k w hm
    · obtain ⟨rfl, rfl⟩ := Prod.mk.inj (List.mem_singleton.1 hm)
      exact hi.bound _ _ hc
  · intro k k' w hm hk'
    rcases List.mem_append.1 hm with hm | hm
    · exact hi.owner k k' w hm hk'
    · obtain ⟨rfl, rfl⟩ := Prod.mk.inj (List.mem_singleton.1 hm)
      exact hi.alone _ _ _ hk' hc

theorem AnnounceInv.replies (hi : AnnounceInv version c r A) (hc : c h = some v) (hr : r h = none) :
    AnnounceInv version c (Function.update r h (some v)) (A.reach h (some (.replied v))) := by
  refine { hi with
    carried := ?_, repliedBound := ?_, publishedReplied := ?_, repliedHeld := ?_, repliedNext := ?_ }
  · intro k w hk
    rcases of_update_eq_some hk with ⟨rfl, hw⟩ | ⟨-, hk⟩
    · exact hc.trans hw
    · exact hi.carried k w hk
  · intro w hm
    rcases List.mem_append.1 hm with hm | hm
    · exact hi.repliedBound w hm
    · rw [List.mem_singleton.1 hm]
      exact hi.bound h v hc
  · exact fun w hm => List.mem_append_left _ (hi.publishedReplied w hm)
  · intro k w hk
    rcases of_update_eq_some hk with ⟨-, hw⟩ | ⟨-, hk⟩
    · exact List.mem_append_right _ (List.mem_singleton.2 (Option.some.inj hw).symm)
    · exact List.mem_append_left _ (hi.repliedHeld k w hk)
  · intro w hm
    rcases List.mem_append.1 hm with hm | hm
    · rcases hi.repliedNext w hm with hp | ⟨k, hk⟩
      · exact .inl hp
      · refine .inr ⟨k, ?_⟩
        rwa [Function.update_of_ne (by rintro rfl; rw [hr] at hk; cases hk)]
    · rw [List.mem_singleton.1 hm]
      exact .inr ⟨h, Function.update_self ..⟩

/-- A handler gives up a write that it has not replied. -/
theorem AnnounceInv.loses (hi : AnnounceInv version c r A) (hr : r h = none) :
    AnnounceInv version (Function.update c h none) r A := by
  have hold : ∀ {k w}, Function.update c h none k = some w → c k = some w := by
    intro k w hk
    rcases of_update_eq_some hk with ⟨-, hw⟩ | ⟨-, hk⟩
    · cases hw
    · exact hk
  refine { hi with carried := ?_, alone := ?_, bound := ?_, unpublished := ?_, owner := ?_ }
  · intro k w hk
    rw [Function.update_of_ne (by rintro rfl; rw [hr] at hk; cases hk)]
    exact hi.carried k w hk
  · exact fun k k' w hk hk' => hi.alone k k' w (hold hk) (hold hk')
  · exact fun k w hk => hi.bound k w (hold hk)
  · exact fun k w hk => hi.unpublished k w (hold hk)
  · exact fun k k' w hm hk' => hi.owner k k' w hm (hold hk')

theorem AnnounceInv.publishes (hi : AnnounceInv version c r A) (hr : r h = some v) :
    AnnounceInv version (Function.update c h none) (Function.update r h none)
      (A.reach h (some (.published v))) := by
  have hc := hi.carried h v hr
  have hold : ∀ {f : H → Option ℕ} {k w}, Function.update f h none k = some w →
      k ≠ h ∧ f k = some w := by
    intro f k w hk
    rcases of_update_eq_some hk with ⟨-, hw⟩ | hk
    · cases hw
    · exact hk
  refine { hi with
    carried := ?_, alone := ?_, bound := ?_, unpublished := ?_, once := ?_, publishedBound := ?_,
    owner := ?_, publishedReplied := ?_, repliedHeld := ?_, repliedNext := ?_ }
  · intro k w hk
    rw [Function.update_of_ne (hold hk).1]
    exact hi.carried k w (hold hk).2
  · exact fun k k' w hk hk' => hi.alone k k' w (hold hk).2 (hold hk').2
  · exact fun k w hk => hi.bound k w (hold hk).2
  · intro k w hk hm
    obtain ⟨hne, hk⟩ := hold hk
    rcases List.mem_append.1 hm with hm | hm
    · exact hi.unpublished k w hk hm
    · rw [List.mem_singleton.1 hm] at hk
      exact hne (hi.alone k h v hk hc)
  · rw [show (A.reach h (some (.published v))).published = A.published ++ [v] from rfl,
      List.nodup_append]
    refine ⟨hi.once, by simp, fun a ha b hb => ?_⟩
    rw [List.mem_singleton.1 hb]
    rintro rfl
    exact hi.unpublished h a hc ha
  · intro w hm
    rcases List.mem_append.1 hm with hm | hm
    · exact hi.publishedBound w hm
    · rw [List.mem_singleton.1 hm]
      exact hi.bound h v hc
  · exact fun k k' w hm hk' => hi.owner k k' w hm (hold hk').2
  · intro w hm
    rcases List.mem_append.1 hm with hm | hm
    · exact hi.publishedReplied w hm
    · rw [List.mem_singleton.1 hm]
      exact hi.repliedHeld h v hr
  · exact fun k w hk => hi.repliedHeld k w (hold hk).2
  · intro w hm
    rcases hi.repliedNext w hm with hp | ⟨k, hk⟩
    · exact .inl (List.mem_append_left _ hp)
    · by_cases hkh : k = h
      · rw [hkh, hr] at hk
        exact .inl (List.mem_append_right _ (List.mem_singleton.2 (Option.some.inj hk).symm))
      · exact .inr ⟨k, by rwa [Function.update_of_ne hkh]⟩

theorem AnnounceInv.step {s s' : DistResServer H} {th : H → ClientHandler H} {l' : ClientHandler H}
    {a : HandlerAct}
    (hi : AnnounceInv s.data.version (fun k => (th k).pc.carried) (fun k => (th k).pc.replied) A)
    (he : AnnounceEffect s (th h) a s' l') :
    AnnounceInv s'.data.version (fun k => (Function.update th h l' k).pc.carried)
      (fun k => (Function.update th h l' k).pc.replied) (A.reach h (stage (th h).pc a)) := by
  have hC : ∀ {x}, l'.pc.carried = x → (fun k => (Function.update th h l' k).pc.carried) =
      Function.update (fun k => (th k).pc.carried) h x := by
    rintro x rfl
    exact Function.comp_update (fun l : ClientHandler H => l.pc.carried) th h l'
  have hR : ∀ {x}, l'.pc.replied = x → (fun k => (Function.update th h l' k).pc.replied) =
      Function.update (fun k => (th k).pc.replied) h x := by
    rintro x rfl
    exact Function.comp_update (fun l : ClientHandler H => l.pc.replied) th h l'
  have hC' := fun (he : l'.pc.carried = (th h).pc.carried) => (hC he).trans (Function.update_eq_self ..)
  have hR' := fun (he : l'.pc.replied = (th h).pc.replied) => (hR he).trans (Function.update_eq_self ..)
  cases he with
  | quiet hv _ hc hr _ hst =>
    rw [hv, hst, hC' hc, hR' hr]
    exact hi
  | commits hv _ hc hc' hr' _ hst =>
    rw [hv, hst, hC hc', hR' (hr'.trans (replied_of_carried hc).symm)]
    exact hi.commits hc
  | returns v hs hc hc' hr hr' _ hst =>
    rw [hs, hst, hC' (hc'.trans hc.symm), hR' (hr'.trans hr.symm)]
    exact hi.returns hc
  | replies v hv _ hpc hc' hr' _ hst =>
    obtain ⟨resp, x, hpc⟩ := hpc
    have hc : (th h).pc.carried = some v := by rw [hpc]; rfl
    rw [hv, hst, hC' (hc'.trans hc.symm), hR hr']
    exact hi.replies hc (by rw [hpc]; rfl)
  | loses v hs hpc ha hcl =>
    obtain ⟨resp, x, hpc⟩ := hpc
    have hr : (th h).pc.replied = none := by rw [hpc]; rfl
    have hst : stage (th h).pc a = none := by rw [hpc, ha]; rfl
    rw [hs, hst, hC hcl.1, hR' ((replied_of_carried hcl.1).trans hr.symm)]
    exact hi.loses hr
  | publishes e topic hs hpc hc' _ hst =>
    have hr : (th h).pc.replied = some e.version := by rw [hpc]; rfl
    rw [hs, hst, hC hc', hR (replied_of_carried hc')]
    exact hi.publishes hr
  | delivers t v hv _ _ hc hc' _ hst _ =>
    rw [hv, hst, hC' (hc'.trans hc.symm),
      hR' ((replied_of_carried hc').trans (replied_of_carried hc).symm)]
    exact hi

theorem announceInv_of_reachable {cfg : Config} {file : Bytes}
    {p : Pool.State H (DistResServer H) (ClientHandler H) × Announcements H}
    (hr : (announcingServer cfg H file).Reachable p) :
    AnnounceInv p.1.shared.data.version (fun k => (p.1.thread k).pc.carried)
      (fun k => (p.1.thread k).pc.replied) p.2 := by
  refine hr.invariant (fun p => AnnounceInv p.1.shared.data.version
    (fun k => (p.1.thread k).pc.carried) (fun k => (p.1.thread k).pc.replied) p.2) ?_ ?_
  · rintro ⟨s, A⟩ ⟨⟨hs, hth⟩, hA⟩
    simp only at hA ⊢
    have hc : ∀ k, (s.thread k).pc.carried = none := fun k => by rw [hth k]; rfl
    have hr : ∀ k, (s.thread k).pc.replied = none := fun k => by rw [hth k]; rfl
    subst hA
    refine ⟨?_, ?_, ?_, ?_, ?_, ?_, ?_, ?_, ?_, ?_, ?_, ?_⟩
    all_goals simp [hc, hr]
  · rintro ⟨s, A⟩ ⟨h, a⟩ ⟨s', A'⟩ - ih hs
    obtain ⟨hs, hA⟩ := Machine.withHistory_step.1 hs
    obtain ⟨d, l, hstep, rfl⟩ := Pool.machine_step.1 hs
    simp only at hA ih ⊢
    subst hA
    exact ih.step (handlerStep_announces hstep)

/-- The reply to a committed write cannot be sent. -/
def replyFails : HandlerPc H → HandlerAct → Bool
  | .respond _ (.publish _ _), .fail => true
  | _, _ => false

/-- No reply to a committed write fails. -/
abbrev RepliesSent (p : Pool.State H (DistResServer H) (ClientHandler H) × Announcements H)
    (a : H × HandlerAct) : Prop :=
  replyFails (p.1.thread a.1).pc a.2 = false

variable {cfg : Config} {file : Bytes}

/-- While replies can be sent, a write that has been returned is carried until it is published. -/
theorem carried_or_published
    {p : Pool.State H (DistResServer H) (ClientHandler H) × Announcements H}
    (hr : (announcingServer cfg H file).Reach RepliesSent p) :
    ∀ h v, (h, v) ∈ p.2.returned → (p.1.thread h).pc.carried = some v ∨ v ∈ p.2.published := by
  refine hr.invariant (fun p => ∀ h v, (h, v) ∈ p.2.returned →
    (p.1.thread h).pc.carried = some v ∨ v ∈ p.2.published) ?_ ?_
  · rintro ⟨s, A⟩ ⟨-, hA⟩
    simp only at hA
    subst hA
    exact fun h v hm => absurd hm List.not_mem_nil
  rintro ⟨s, A⟩ ⟨h, a⟩ ⟨s', A'⟩ - ih hok hs
  obtain ⟨hs, hA⟩ := Machine.withHistory_step.1 hs
  obtain ⟨d, l, hstep, rfl⟩ := Pool.machine_step.1 hs
  have hok : replyFails (s.thread h).pc a = false := hok
  have heff := handlerStep_announces hstep
  simp only at hA ih heff ⊢
  subst hA
  -- the other handlers, and `h` itself where it goes on carrying what it has carried
  have keep : ∀ k v, (k, v) ∈ A.returned → (k = h → (s.thread h).pc.carried = some v →
      l.pc.carried = some v) → (Function.update s.thread h l k).pc.carried = some v ∨ v ∈ A.published := by
    intro k v hm hk
    rcases ih k v hm with hc | hp
    · by_cases hkh : k = h
      · subst hkh
        rw [Function.update_self]
        exact .inl (hk rfl hc)
      · rw [Function.update_of_ne hkh]
        exact .inl hc
    · exact .inr hp
  intro k v hm
  cases heff with
  | quiet _ _ hc _ _ hst =>
    rw [hst] at hm ⊢
    exact keep k v hm fun _ => hc.trans
  | commits _ _ hc _ _ _ hst =>
    rw [hst] at hm ⊢
    exact keep k v hm fun _ h1 => absurd (hc.symm.trans h1) nofun
  | returns w _ hc hc' _ _ _ hst =>
    rw [hst] at hm ⊢
    rcases List.mem_append.1 hm with hm | hm
    · exact keep k v hm fun _ h1 => hc'.trans (hc.symm.trans h1)
    · obtain ⟨rfl, rfl⟩ := Prod.mk.inj (List.mem_singleton.1 hm)
      rw [Function.update_self]
      exact .inl hc'
  | replies w _ _ hpc hc' _ _ hst =>
    obtain ⟨resp, x, hpc⟩ := hpc
    rw [hst] at hm ⊢
    refine keep k v hm fun _ h1 => hc'.trans (Eq.trans ?_ h1)
    rw [hpc]
    rfl
  | loses w _ hpc ha =>
    obtain ⟨resp, x, hpc⟩ := hpc
    rw [hpc, ha] at hok
    cases hok
  | publishes e topic _ hpc _ _ hst =>
    rw [hst] at hm ⊢
    have hm : (k, v) ∈ A.returned := hm
    by_cases hv : v = e.version
    · exact .inr (hv ▸ List.mem_append_right _ (List.mem_singleton.2 rfl))
    · refine (keep k v hm fun _ h1 => ?_).imp id (List.mem_append_left _)
      rw [hpc] at h1
      exact absurd (Option.some.inj h1).symm hv
  | delivers _ _ _ _ _ hc _ _ hst _ =>
    rw [hst] at hm ⊢
    exact keep k v hm fun _ h1 => absurd (hc.symm.trans h1) nofun

/-- **A write is announced if and only if its reply could be sent.**  In every reachable state and
for every write that was returned to a handler and that the handler is not about to publish any
more: `publish` has been called for it exactly once if its reply was sent, and never if not.  So in
every run whose replies to committed writes are sent, every committed write is announced once. -/
theorem published_iff_replied :
    (∀ s A, (announcingServer cfg H file).Reachable (s, A) → ∀ h v, (h, v) ∈ A.returned →
      (s.thread h).pc.carried ≠ some v →
        (A.published.count v = 1 ↔ v ∈ A.replied) ∧ (v ∉ A.replied → A.published.count v = 0)) ∧
    (∀ s A, (announcingServer cfg H file).Reach RepliesSent (s, A) → ∀ h v, (h, v) ∈ A.returned →
      (s.thread h).pc.carried ≠ some v → A.published.count v = 1) := by
  constructor
  · intro s A hr h v hm hc
    have hi := announceInv_of_reachable hr
    have hiff : v ∈ A.published ↔ v ∈ A.replied := by
      refine ⟨hi.publishedReplied v, fun hrep => ?_⟩
      rcases hi.repliedNext v hrep with hp | ⟨k, hk⟩
      · exact hp
      · have hck := hi.carried k v hk
        exact absurd (hi.owner h k v hm hck ▸ hck) hc
    refine ⟨?_, fun hn => List.count_eq_zero.2 fun hp => hn (hiff.1 hp)⟩
    rw [← hiff]
    refine ⟨fun hcount => List.count_pos_iff.1 (by omega), fun hp => ?_⟩
    exact List.count_eq_one_of_mem hi.once hp
  · intro s A hr h v hm hc
    rcases carried_or_published hr h v hm with h1 | hp
    · exact absurd h1 hc
    · exact List.count_eq_one_of_mem (announceInv_of_reachable hr.reachable).once hp

/-- A writer whose connection fails under the reply to its write. -/
def lostReplyRun (h : H) : List (H × HandlerAct) :=
  (h, .accept) :: acceptLogin h (lit "ENG001") (lit "Alice") ++ commitWrite h (lit "a") 16 ++
    (h, .fail) :: List.replicate 5 (h, .go)

/-- The write is in the log, its handler has ended, and nobody was told. -/
theorem lostReplyRun_unannounced :
    ¬ ∀ s A, (announcingServer shippedConfig (Fin 1) []).Reachable (s, A) →
      ∀ h v, (h, v) ∈ A.returned → (s.thread h).pc.carried ≠ some v → A.published.count v = 1 := by
  intro hall
  have hs : ((announcingServer shippedConfig (Fin 1) []).run (serverStart shippedConfig, {})
      (lostReplyRun 0)).map (fun p => (p.2.returned, (p.1.thread 0).pc.carried, p.2.published)) =
        some ([(0, 1)], none, []) := by decide
  obtain ⟨⟨s, A⟩, hrun, hval⟩ := Option.map_eq_some_iff.1 hs
  simp only [Prod.mk.injEq] at hval
  obtain ⟨hret, hcar, hpub⟩ := hval
  have hr : (announcingServer shippedConfig (Fin 1) []).Reachable (s, A) :=
    Machine.Reachable.run (s := (serverStart shippedConfig, {})) (.init ⟨⟨rfl, fun _ => rfl⟩, rfl⟩) hrun
  have := hall s A hr 0 1 (by simp [hret]) (by simp [hcar])
  simp [hpub] at this

/-- A client writes, and its own subscription is told. -/
def announcedRun (h : H) : List (H × HandlerAct) :=
  (h, .accept) :: acceptLogin h (lit "ENG001") (lit "Alice") ++ commitWrite h (lit "a") 16 ++
    List.replicate 5 (h, .go)

theorem announcedRun_published :
    ∃ s A, (announcingServer shippedConfig (Fin 1) []).runIf RepliesSent (serverStart shippedConfig, {})
        (announcedRun 0) = some (s, A) ∧ A.replied = [1] ∧ A.published.count 1 = 1 := by
  have hs : ((announcingServer shippedConfig (Fin 1) []).runIf RepliesSent
      (serverStart shippedConfig, {}) (announcedRun 0)).map (fun p =>
        (p.2.returned, (p.1.thread 0).pc.carried, p.2.replied)) = some ([(0, 1)], none, [1]) := by decide
  obtain ⟨⟨s, A⟩, hrun, hval⟩ := Option.map_eq_some_iff.1 hs
  simp only [Prod.mk.injEq] at hval
  obtain ⟨hret, hcar, hrep⟩ := hval
  have hr : (announcingServer shippedConfig (Fin 1) []).Reach RepliesSent (s, A) :=
    Machine.Reach.runIf (s := (serverStart shippedConfig, {})) (.init ⟨⟨rfl, fun _ => rfl⟩, rfl⟩) hrun
  exact ⟨s, A, hrun, hrep, published_iff_replied.2 s A hr 0 1 (by simp [hret]) (by simp [hcar])⟩

end Announced

/-! ## The order of the events on a socket -/

section Order

variable {H : Type} [DecidableEq H]

/-- The handler has a version up to `v` that it has not delivered to `t` yet. -/
def HandlerPc.owes (pc : HandlerPc H) (t : H) (v : ℕ) : Prop :=
  (∃ w, pc.carried = some w ∧ w ≤ v) ∨ ∃ w, (t, w) ∈ pc.due ∧ w ≤ v

/-- No delivery overtakes another: when `v` is delivered to `t`, no other handler has a version up
to `v` left for `t`, and the snapshot does not hold `t` a second time. -/
def InOrder (s : Pool.State H (DistResServer H) (ClientHandler H)) (a : H × HandlerAct) : Prop :=
  ∀ t v, delivery (s.thread a.1).pc a.2 = some (t, v) →
    (∀ x ∈ (s.thread a.1).pc.due.tail, x.1 ≠ t) ∧ ∀ h, h ≠ a.1 → ¬ (s.thread h).pc.owes t v

/-- **The invariant of the events**: what is still to come is above all that has been delivered. -/
structure OrderInv (d : DistResServer H) (th : H → ClientHandler H) : Prop where
  sorted : ∀ t, (eventVersions (d.sockets t)).Pairwise (· < ·)
  bound : ∀ t, ∀ w ∈ eventVersions (d.sockets t), w ≤ d.data.version
  carriedBound : ∀ h v, (th h).pc.carried = some v → v ≤ d.data.version
  dueBound : ∀ h t v, (t, v) ∈ (th h).pc.due → v ≤ d.data.version
  carriedAhead : ∀ h v, (th h).pc.carried = some v → ∀ t, ∀ w ∈ eventVersions (d.sockets t), w < v
  dueAhead : ∀ h t v, (t, v) ∈ (th h).pc.due → ∀ w ∈ eventVersions (d.sockets t), w < v

variable {d d' : DistResServer H} {th : H → ClientHandler H} {h : H} {l' : ClientHandler H}

/-- A step after which `h` carries and owes no more than before, and that delivers nothing. -/
theorem OrderInv.quiet (hi : OrderInv d th) (hv : d'.data.version = d.data.version)
    (hsock : ∀ t, eventVersions (d'.sockets t) = eventVersions (d.sockets t))
    (hc : ∀ v, l'.pc.carried = some v → (th h).pc.carried = some v)
    (hd : ∀ t v, (t, v) ∈ l'.pc.due → (t, v) ∈ (th h).pc.due ∨ (th h).pc.carried = some v) :
    OrderInv d' (Function.update th h l') := by
  have hC : ∀ k v, (Function.update th h l' k).pc.carried = some v → (th k).pc.carried = some v := by
    intro k v hk
    by_cases hkh : k = h
    · rw [hkh] at hk ⊢
      rw [Function.update_self] at hk
      exact hc v hk
    · rwa [Function.update_of_ne hkh] at hk
  have hD : ∀ k t v, (t, v) ∈ (Function.update th h l' k).pc.due →
      (t, v) ∈ (th k).pc.due ∨ (th k).pc.carried = some v := by
    intro k t v hk
    by_cases hkh : k = h
    · rw [hkh] at hk ⊢
      rw [Function.update_self] at hk
      exact hd t v hk
    · rw [Function.update_of_ne hkh] at hk
      exact .inl hk
  refine ⟨?_, ?_, ?_, ?_, ?_, ?_⟩
  · intro t
    rw [hsock]
    exact hi.sorted t
  · intro t
    rw [hsock, hv]
    exact hi.bound t
  · intro k v hk
    rw [hv]
    exact hi.carriedBound k v (hC k v hk)
  · intro k t v hk
    rw [hv]
    rcases hD k t v hk with hk | hk
    · exact hi.dueBound k t v hk
    · exact hi.carriedBound k v hk
  · intro k v hk t
    rw [hsock]
    exact hi.carriedAhead k v (hC k v hk) t
  · intro k t v hk
    rw [hsock]
    rcases hD k t v hk with hk | hk
    · exact hi.dueAhead k t v hk
    · exact hi.carriedAhead k v hk t

theorem OrderInv.commits (hi : OrderInv d th) (hv : d'.data.version = d.data.version + 1)
    (hsock : d'.sockets = d.sockets) (hc : l'.pc.carried = some (d.data.version + 1))
    (hd : l'.pc.due = []) : OrderInv d' (Function.update th h l') := by
  refine ⟨?_, ?_, ?_, ?_, ?_, ?_⟩
  · intro t
    rw [hsock]
    exact hi.sorted t
  · intro t w hw
    rw [hsock] at hw
    rw [hv]
    exact Nat.le_succ_of_le (hi.bound t w hw)
  · intro k v hk
    rw [hv]
    by_cases hkh : k = h
    · rw [hkh, Function.update_self, hc] at hk
      exact le_of_eq (Option.some.inj hk).symm
    · rw [Function.update_of_ne hkh] at hk
      exact Nat.le_succ_of_le (hi.carriedBound k v hk)
  · intro k t v hk
    rw [hv]
    by_cases hkh : k = h
    · rw [hkh, Function.update_self, hd] at hk
      cases hk
    · rw [Function.update_of_ne hkh] at hk
      exact Nat.le_succ_of_le (hi.dueBound k t v hk)
  · intro k v hk t w hw
    rw [hsock] at hw
    by_cases hkh : k = h
    · rw [hkh, Function.update_self, hc] at hk
      rw [← Option.some.inj hk]
      exact Nat.lt_succ_of_le (hi.bound t w hw)
    · rw [Function.update_of_ne hkh] at hk
      exact hi.carriedAhead k v hk t w hw
  · intro k t v hk w hw
    rw [hsock] at hw
    by_cases hkh : k = h
    · rw [hkh, Function.update_self, hd] at hk
      cases hk
    · rw [Function.update_of_ne hkh] at hk
      exact hi.dueAhead k t v hk w hw

/-- A delivery that overtakes nothing. -/
theorem OrderInv.delivers {t : H} {v : ℕ} (hi : OrderInv d th) (hv : d'.data.version = d.data.version)
    (ht : eventVersions (d'.sockets t) = eventVersions (d.sockets t) ++ [v])
    (hu : ∀ u, u ≠ t → d'.sockets u = d.sockets u) (hc : l'.pc.carried = none)
    (hdue : (th h).pc.due = (t, v) :: l'.pc.due) (hrest : ∀ x ∈ l'.pc.due, x.1 ≠ t)
    (hothers : ∀ k, k ≠ h → ¬ (th k).pc.owes t v) : OrderInv d' (Function.update th h l') := by
  have hmem : (t, v) ∈ (th h).pc.due := by
    rw [hdue]
    exact List.mem_cons_self
  have hC : ∀ k w, (Function.update th h l' k).pc.carried = some w →
      k ≠ h ∧ (th k).pc.carried = some w := by
    intro k w hk
    by_cases hkh : k = h
    · rw [hkh, Function.update_self, hc] at hk
      cases hk
    · rw [Function.update_of_ne hkh] at hk
      exact ⟨hkh, hk⟩
  have hD : ∀ k u w, (u, w) ∈ (Function.update th h l' k).pc.due →
      (u, w) ∈ (th k).pc.due ∧ (u = t → v < w) := by
    intro k u w hk
    by_cases hkh : k = h
    · rw [hkh, Function.update_self] at hk
      refine ⟨?_, fun hut => absurd hut (hrest _ hk)⟩
      rw [hkh, hdue]
      exact List.mem_cons_of_mem _ hk
    · rw [Function.update_of_ne hkh] at hk
      refine ⟨hk, ?_⟩
      rintro rfl
      by_contra hle
      exact hothers k hkh (.inr ⟨w, hk, by omega⟩)
  refine ⟨?_, ?_, ?_, ?_, ?_, ?_⟩
  · intro u
    by_cases hut : u = t
    · rw [hut, ht, List.pairwise_append]
      refine ⟨hi.sorted t, List.pairwise_singleton _ _, fun w hw x hx => ?_⟩
      rw [List.mem_singleton.1 hx]
      exact hi.dueAhead h t v hmem w hw
    · rw [hu u hut]
      exact hi.sorted u
  · intro u w hw
    rw [hv]
    by_cases hut : u = t
    · rw [hut, ht] at hw
      rcases List.mem_append.1 hw with hw | hw
      · exact hi.bound t w hw
      · rw [List.mem_singleton.1 hw]
        exact hi.dueBound h t v hmem
    · rw [hu u hut] at hw
      exact hi.bound u w hw
  · intro k w hk
    rw [hv]
    exact hi.carriedBound k w (hC k w hk).2
  · intro k u w hk
    rw [hv]
    exact hi.dueBound k u w (hD k u w hk).1
  · intro k x hk u w hw
    obtain ⟨hkh, hk⟩ := hC k x hk
    by_cases hut : u = t
    · rw [hut, ht] at hw
      rcases List.mem_append.1 hw with hw | hw
      · exact hi.carriedAhead k x hk t w hw
      · rw [List.mem_singleton.1 hw]
        by_contra hle
        exact hothers k hkh (.inl ⟨x, hk, by omega⟩)
    · rw [hu u hut] at hw
      exact hi.carriedAhead k x hk u w hw
  · intro k u x hk w hw
    obtain ⟨hk, hlt⟩ := hD k u x hk
    by_cases hut : u = t
    · subst hut
      rw [ht] at hw
      rcases List.mem_append.1 hw with hw | hw
      · exact hi.dueAhead k u x hk w hw
      · rw [List.mem_singleton.1 hw]
        exact hlt rfl
    · rw [hu u hut] at hw
      exact hi.dueAhead k u x hk w hw

theorem OrderInv.step {s : Pool.State H (DistResServer H) (ClientHandler H)} {cfg : Config}
    {a : HandlerAct} (hi : OrderInv s.shared s.thread) (hok : InOrder s (h, a))
    (hs : handlerStep cfg h s.shared (s.thread h) a = some (d', l')) :
    OrderInv d' (Function.update s.thread h l') := by
  cases handlerStep_announces hs with
  | quiet hv hsock hc _ hd _ =>
    exact hi.quiet hv hsock (fun v => hc.symm.trans) fun t v hm => .inl (hd.subset hm)
  | commits hv hsock _ hc' _ hd _ => exact hi.commits hv hsock hc' hd
  | returns v hs hc hc' _ _ hd _ =>
    rw [hs]
    refine hi.quiet rfl (fun _ => rfl) (fun w hw => hc.trans (hc'.symm.trans hw)) fun t w hm => ?_
    rw [hd] at hm
    cases hm
  | replies v hv hsock hpc hc' _ hd _ =>
    obtain ⟨r, x, hpc⟩ := hpc
    refine hi.quiet hv hsock (fun w hw => ?_) fun t w hm => ?_
    · rw [hpc, ← hc'.symm.trans hw]
      rfl
    · rw [hd] at hm
      cases hm
  | loses v hs hpc _ hcl =>
    rw [hs]
    refine hi.quiet rfl (fun _ => rfl) (fun w hw => ?_) fun t w hm => ?_
    · rw [hcl.1] at hw
      cases hw
    · rw [hcl.2] at hm
      cases hm
  | publishes e topic hs hpc hc' hd _ =>
    rw [hs]
    refine hi.quiet rfl (fun _ => rfl) (fun w hw => ?_) fun t w hm => .inr ?_
    · rw [hc'] at hw
      cases hw
    · rw [hpc, show w = e.version from hd _ hm]
      rfl
  | delivers t v hv ht hu _ hc' hdue _ hdel =>
    obtain ⟨hrest, hothers⟩ := hok t v hdel
    rw [hdue] at hrest
    exact hi.delivers hv ht hu hc' hdue hrest hothers

/-- **Events in order.**  In every run in which no delivery overtakes another, the versions of the
EVENTs on every socket increase strictly. -/
theorem events_in_order {cfg : Config} {file : Bytes}
    {s : Pool.State H (DistResServer H) (ClientHandler H)}
    (hr : (serverMachine cfg H file).Reach InOrder s) (t : H) :
    (eventVersions (s.shared.sockets t)).Pairwise (· < ·) := by
  refine (hr.invariant (fun s => OrderInv s.shared s.thread) ?_ ?_).sorted t
  · rintro s ⟨hs, hth⟩
    have hs : s.shared = { data := { file := file }, sessions := cfg.maxSessions } := hs
    have hth : ∀ h, s.thread h = {} := hth
    refine ⟨?_, ?_, ?_, ?_, ?_, ?_⟩
    all_goals simp [hs, hth, eventVersions, HandlerPc.carried, HandlerPc.due]
  · rintro s ⟨h, a⟩ s' - ih hok hs
    obtain ⟨d, l, hstep, rfl⟩ := Pool.machine_step.1 hs
    exact ih.step hok hstep

/-! ### Runs -/

instance (pc : HandlerPc H) (t : H) (v : ℕ) : Decidable (pc.owes t v) :=
  decidable_of_iff ((∃ w ∈ pc.carried, w ≤ v) ∨ ∃ x ∈ pc.due, x.1 = t ∧ x.2 ≤ v) <| by
    refine or_congr Iff.rfl ⟨?_, ?_⟩
    · rintro ⟨⟨u, w⟩, hx, rfl, hle⟩
      exact ⟨w, hx, hle⟩
    · rintro ⟨w, hx, hle⟩
      exact ⟨(t, w), hx, rfl, hle⟩

instance [Fintype H] : DecidableRel (InOrder (H := H)) := fun s a =>
  decidable_of_iff (∀ x ∈ delivery (s.thread a.1).pc a.2,
    (∀ y ∈ (s.thread a.1).pc.due.tail, y.1 ≠ x.1) ∧ ∀ h, h ≠ a.1 → ¬ (s.thread h).pc.owes x.1 x.2) <| by
    refine ⟨fun h t v hd => h (t, v) hd, fun h x hx => h x.1 x.2 hx⟩

/-- Two clients log in and commit a write each; the later write is published first. -/
def overtakingRun (h k : H) : List (H × HandlerAct) :=
  (h, .accept) :: acceptLogin h (lit "ENG001") (lit "Alice") ++
    (k, .accept) :: acceptLogin k (lit "ENG002") (lit "Bob") ++
    commitWrite h (lit "a") 16 ++ commitWrite k (lit "b") 16 ++
    List.replicate 4 (k, .go) ++ List.replicate 4 (h, .go)

/-- The first client is told of its own write after it was told of the write that followed. -/
theorem overtakingRun_unordered :
    ¬ ∀ s, (serverMachine shippedConfig (Fin 2) []).Reachable s → ∀ t,
      (eventVersions (s.shared.sockets t)).Pairwise (· < ·) := by
  intro hall
  have hs : ((serverMachine shippedConfig (Fin 2) []).run (serverStart shippedConfig)
      (overtakingRun 0 1)).map (fun s => eventVersions (s.shared.sockets 0)) = some [2, 1] := by decide
  obtain ⟨s, hrun, hev⟩ := Option.map_eq_some_iff.1 hs
  have hr : (serverMachine shippedConfig (Fin 2) []).Reachable s :=
    Machine.Reachable.run (s := serverStart shippedConfig) (.init ⟨rfl, fun _ => rfl⟩) hrun
  have := hall s hr 0
  rw [hev] at this
  simp at this

/-- The same two writes, each published before the next is replied. -/
def orderedRun (h k : H) : List (H × HandlerAct) :=
  (h, .accept) :: acceptLogin h (lit "ENG001") (lit "Alice") ++
    (k, .accept) :: acceptLogin k (lit "ENG002") (lit "Bob") ++
    commitWrite h (lit "a") 16 ++ List.replicate 5 (h, .go) ++
    commitWrite k (lit "b") 16 ++ List.replicate 5 (k, .go)

theorem orderedRun_ordered :
    ∃ s, (serverMachine shippedConfig (Fin 2) []).runIf InOrder (serverStart shippedConfig)
        (orderedRun 0 1) = some s ∧ eventVersions (s.shared.sockets 0) = [1, 2] ∧
      (eventVersions (s.shared.sockets 0)).Pairwise (· < ·) := by
  have hs : ((serverMachine shippedConfig (Fin 2) []).runIf InOrder (serverStart shippedConfig)
      (orderedRun 0 1)).map (fun s => eventVersions (s.shared.sockets 0)) = some [1, 2] := by decide
  obtain ⟨s, hrun, hev⟩ := Option.map_eq_some_iff.1 hs
  have hr : (serverMachine shippedConfig (Fin 2) []).Reach InOrder s :=
    Machine.Reach.runIf (s := serverStart shippedConfig) (.init ⟨rfl, fun _ => rfl⟩) hrun
  exact ⟨s, hrun, hev, events_in_order hr 0⟩

end Order

end DistRes
