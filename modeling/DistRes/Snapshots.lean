import DistRes.Freshness

/-!
# Snapshots and sessions

A login and a logout clear the snapshot that the node holds.  A read fills it when its reply is
processed, whatever has happened to the session since the request was issued.

* `SessionClock` — when the requests were issued and answered, and which of them filled the snapshot;
* `OwnSnapshot` — the property, and `lateRead`, the step that breaks it;
* `own_snapshot_iff` — a read that is processed with nobody logged in, or after a login that it was
  issued before, and nothing else, leaves the node with a snapshot that is not of its session.
-/

namespace DistRes

open Lib

/-! ## The history -/

/-- What counts as the moment of a login: the answer of the server, or that the node records it. -/
inductive LoginMoment
  | answered
  | recorded

structure SessionClock (U : Type) where
  now : ℕ := 0
  /-- when the thread has issued its request -/
  issued : U → ℕ := fun _ => 0
  /-- when the request of the thread was answered -/
  answered : U → ℕ := fun _ => 0
  /-- the login that is recorded in `_node["user"]` -/
  login : ℕ := 0
  /-- when the READ was issued that has filled the snapshot -/
  filled : ℕ := 0

section Snapshots

variable {U : Type} [DecidableEq U] {s s' : NodeState U} {a : NodeAct U} {m : LoginMoment}
  {h : SessionClock U} {n : Node}

/-- The moment of a login of `t` that is recorded now. -/
def SessionClock.loginOf (h : SessionClock U) (t : U) : LoginMoment → ℕ
  | .answered => h.answered t
  | .recorded => h.now

/-- The history after the update of a request of `t`. -/
def SessionClock.update (h : SessionClock U) (m : LoginMoment) (t : U) (resp : Reply) :
    ApiCall → SessionClock U
  | .login _ _ => if resp.status = statusOk then { h with login := h.loginOf t m } else h
  | .read => if resp.status = statusOk then { h with filled := h.issued t } else h
  | .logout | .write _ => h

/-- The history after a step. -/
def SessionClock.next (h : SessionClock U) (m : LoginMoment) (s : NodeState U) (a : NodeAct U) :
    SessionClock U :=
  let h' := match a with
    | .call t _ => { h with issued := Function.update h.issued t h.now }
    | .return t _ => { h with answered := Function.update h.answered t h.now }
    | .update t =>
      match s.thread t with
      | .returned call resp => h.update m t resp call
      | _ => h
    | _ => h
  { h' with now := h.now + 1 }

def clockedNode (U : Type) [DecidableEq U] (m : LoginMoment) :=
  (nodeMachine U).withHistory ({} : SessionClock U) fun h s a _ => h.next m s a

/-! ## The snapshot of a session -/

/-- Nobody is logged in and there is no snapshot, or it was asked for after the login. -/
structure OwnSnapshot (n : Node) (h : SessionClock U) : Prop where
  loggedOut : n.user = none →
    n.contentLoaded = false ∧ n.content = [] ∧ n.contentVersion = none
  own : n.contentLoaded = true → h.login < h.filled

/-- A read of `t` was answered OK, and nobody is logged in or it was issued before the login. -/
def ApiCall.late (n : Node) (h : SessionClock U) (t : U) (resp : Reply) : ApiCall → Bool
  | .read => resp.status = statusOk && (n.user.isNone || decide (h.issued t ≤ h.login))
  | _ => false

/-- The step is the update of a late read. -/
def lateRead (h : SessionClock U) (s : NodeState U) : NodeAct U → Bool
  | .update t =>
    match s.thread t with
    | .returned call resp => call.late s.node h t resp
    | _ => false
  | _ => false

section

omit [DecidableEq U]

/-- A change of the node that does not touch the user or the snapshot. -/
theorem OwnSnapshot.congr {n' : Node} {h' : SessionClock U} (hi : OwnSnapshot n h)
    (hu : n'.user = n.user) (hl : n'.contentLoaded = n.contentLoaded) (hc : n'.content = n.content)
    (hv : n'.contentVersion = n.contentVersion) (hlogin : h'.login = h.login)
    (hfilled : h'.filled = h.filled) : OwnSnapshot n' h' := by
  refine ⟨fun hnone => ?_, fun hload => ?_⟩
  · rw [hl, hc, hv]
    exact hi.loggedOut (hu ▸ hnone)
  · rw [hlogin, hfilled]
    exact hi.own (hl ▸ hload)

theorem ownSnapshot_cleared (hl : n.contentLoaded = false) (hc : n.content = [])
    (hv : n.contentVersion = none) : OwnSnapshot n h := by
  refine ⟨fun _ => ⟨hl, hc, hv⟩, fun hload => ?_⟩
  rw [hl] at hload
  cases hload

/-- A read fills the snapshot. -/
theorem ownSnapshot_apiRead {t : U} {resp : Reply} (hok : resp.status = statusOk) :
    OwnSnapshot (n.apiRead resp) { h with filled := h.issued t } ↔
      ApiCall.read.late n h t resp = false := by
  have hlate : ApiCall.read.late n h t resp = false ↔ n.user ≠ none ∧ h.login < h.issued t := by
    simp [ApiCall.late, hok, Option.isNone_eq_false_iff, Option.isSome_iff_ne_none]
  rw [hlate, Node.apiRead, if_pos hok]
  constructor
  · intro hown
    refine ⟨fun hnone => ?_, hown.own rfl⟩
    cases (hown.loggedOut hnone).1
  · rintro ⟨huser, hlt⟩
    exact ⟨fun hnone => absurd hnone huser, fun _ => hlt⟩

/-- The update of a request. -/
theorem ownSnapshot_update (hi : OwnSnapshot n h) (call : ApiCall) (t : U) (resp : Reply) :
    OwnSnapshot (call.update n resp) (h.update m t resp call) ↔ call.late n h t resp = false := by
  by_cases hok : resp.status = statusOk
  · cases call with
    | login u name =>
      refine iff_of_true ?_ rfl
      simp only [ApiCall.update, Node.apiLogin, if_pos hok]
      exact ownSnapshot_cleared rfl rfl rfl
    | logout => exact iff_of_true (ownSnapshot_cleared rfl rfl rfl) rfl
    | read =>
      simp only [ApiCall.update, SessionClock.update, if_pos hok]
      exact ownSnapshot_apiRead hok
    | write content =>
      refine iff_of_true ?_ rfl
      simp only [ApiCall.update, Node.apiWrite, if_pos hok]
      exact hi.congr rfl rfl rfl rfl rfl rfl
  · cases call with
    | login | read | write =>
      refine iff_of_true ?_ (by simp [ApiCall.late, hok])
      simpa only [ApiCall.update, SessionClock.update, Node.apiLogin, Node.apiRead, Node.apiWrite,
        if_neg hok] using hi
    | logout => exact iff_of_true (ownSnapshot_cleared rfl rfl rfl) rfl

end

/-- **One step** keeps the snapshot of the session unless it is a late read, and a late read never
does. -/
theorem ownSnapshot_step (hi : OwnSnapshot s.node h) (hs : nodeStep s a = some s') :
    OwnSnapshot s'.node (h.next m s a) ↔ lateRead h s a = false := by
  cases a with
  | call | «return» =>
    simp only [nodeStep] at hs
    split at hs <;> cases hs
    exact iff_of_true (hi.congr rfl rfl rfl rfl rfl rfl) rfl
  | event e =>
    cases hs
    refine iff_of_true ?_ rfl
    obtain ⟨hl, hv, -⟩ := onEvent_fields s.node e
    refine hi.congr ?_ hl ?_ hv rfl rfl
    · simp only [Node.onEvent]
      split_ifs <;> rfl
    · simp only [Node.onEvent]
      split_ifs <;> rfl
  | state state =>
    cases hs
    exact iff_of_true (hi.congr rfl rfl rfl rfl rfl rfl) rfl
  | update t =>
    simp only [nodeStep] at hs
    split at hs
    · rename_i call resp ht
      cases hs
      simp only [SessionClock.next, lateRead, ht]
      have hkeep : OwnSnapshot (call.update s.node resp) (h.update m t resp call) ↔
          OwnSnapshot (call.update s.node resp) { h.update m t resp call with now := h.now + 1 } :=
        ⟨fun hn => hn.congr rfl rfl rfl rfl rfl rfl, fun hn => hn.congr rfl rfl rfl rfl rfl rfl⟩
      rw [← hkeep]
      exact ownSnapshot_update hi call t resp
    · cases hs

/-- **A snapshot belongs to its session until a late read.**  In every run without a late read, a node
on which nobody is logged in holds no snapshot, and one that holds a snapshot has asked for it after
the login it records; and a step from a state in which this holds breaks it if and only if it is the
update of a late read.  This is so whether the login counts from its answer or from its record. -/
theorem own_snapshot_iff (m : LoginMoment) :
    (∀ p, (clockedNode U m).Reach (fun p a => lateRead p.2 p.1 a = false) p →
      OwnSnapshot p.1.node p.2) ∧
    ∀ p a q, OwnSnapshot p.1.node p.2 → (clockedNode U m).step p a = some q →
      (OwnSnapshot q.1.node q.2 ↔ lateRead p.2 p.1 a = false) := by
  constructor
  · intro p hr
    refine hr.invariant (fun p => OwnSnapshot p.1.node p.2) ?_ ?_
    · rintro ⟨s, h⟩ ⟨hs, -⟩
      obtain rfl : s = {} := hs
      exact ownSnapshot_cleared rfl rfl rfl
    · rintro ⟨s, h⟩ a ⟨s', h'⟩ - hi hok hs
      obtain ⟨hs, hh⟩ := Machine.withHistory_step.1 hs
      simp only at hi hok hs hh ⊢
      rw [hh]
      exact (ownSnapshot_step hi hs).2 hok
  · intro p a q hi hs
    obtain ⟨hs, hh⟩ := Machine.withHistory_step.1 hs
    rw [hh]
    exact ownSnapshot_step hi hs

/-! ### Runs -/

/-- A login, and a read that is answered; with `logout`, the logout of the other thread comes in
between the answer of the read and its update. -/
def lateReadRun (logout : Bool) : List (NodeAct Bool) :=
  [.call false (.login (lit "ENG001") (lit "Alice")), .return false ⟨statusOk, some 0, none⟩,
    .update false, .call false .read, .return false ⟨statusOk, some 0, some (lit "a")⟩] ++
    (if logout then [.call true .logout, .return true ⟨statusOk, none, none⟩, .update true] else []) ++
    [.update false]

/-- Nobody is logged in, and the node holds the text `a`. -/
theorem lateReadRun_keeps :
    ¬ ∀ p, (clockedNode Bool .answered).Reachable p → OwnSnapshot p.1.node p.2 := by
  intro hall
  have hs : ((clockedNode Bool .answered).run ({}, {}) (lateReadRun true)).map (fun p =>
      (p.1.node.user.isNone, p.1.node.contentLoaded)) = some (true, true) := by decide
  obtain ⟨p, hrun, hval⟩ := Option.map_eq_some_iff.1 hs
  obtain ⟨hu, hl⟩ := Prod.mk.inj hval
  have h0 : (clockedNode Bool .answered).Reachable ({}, {}) := .init ⟨rfl, rfl⟩
  have hr : (clockedNode Bool .answered).Reachable p := h0.run hrun
  have := ((hall p hr).loggedOut (Option.isNone_iff_eq_none.1 hu)).1
  rw [hl] at this
  cases this

theorem readRun_own :
    ∃ p, (clockedNode Bool .answered).runIf (fun p a => lateRead p.2 p.1 a = false) ({}, {})
        (lateReadRun false) = some p ∧ p.1.node.contentLoaded = true ∧ p.2.login < p.2.filled := by
  have hs : ((clockedNode Bool .answered).runIf (fun p a => lateRead p.2 p.1 a = false) ({}, {})
      (lateReadRun false)).map (fun p => p.1.node.contentLoaded) = some true := by decide
  obtain ⟨p, hrun, hl⟩ := Option.map_eq_some_iff.1 hs
  have hr : (clockedNode Bool .answered).Reach (fun p a => lateRead p.2 p.1 a = false) p :=
    Machine.Reach.runIf (s := (({} : NodeState Bool), {})) (.init ⟨rfl, rfl⟩) hrun
  exact ⟨p, hrun, hl, ((own_snapshot_iff .answered).1 p hr).own hl⟩

end Snapshots

end DistRes
