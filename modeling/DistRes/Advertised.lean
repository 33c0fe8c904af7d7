import DistRes.Snapshots

/-!
# The advertised version

A node shows the version of whatever it has processed last: a reply to a login, a read or a write, or
an EVENT.  The replies were obtained before `_state_lock` was taken.

* `SessionVersions` — the versions that the node has processed since the login of its session;
* `Advertised` — what it shows is the largest of them, and `advances`, the steps that keep it so;
* `advertised_iff` — it stays so exactly as long as nothing is processed that carries a version lower
  than one processed before.
-/

namespace DistRes

open Lib

/-! ## The history -/

/-- The versions processed in the session, if there is one, and those of all EVENTs so far. -/
structure SessionVersions where
  session : Option (List ℕ) := none
  events : List ℕ := []

section Advertised

variable {U : Type} [DecidableEq U] {s s' : NodeState U} {a : NodeAct U} {n : Node}

/-- The version of an OK reply is processed in the session. -/
def SessionVersions.reply (h : SessionVersions) (v : Option ℕ) : SessionVersions :=
  { h with session := h.session.map (· ++ v.toList) }

/-- The history after the update of a request.  A login begins the session, unless there is one. -/
def SessionVersions.update (h : SessionVersions) (resp : Reply) : ApiCall → SessionVersions
  | .login _ _ =>
    if resp.status = statusOk then { h with session := some (h.session.getD [] ++ resp.version.toList) }
    else h
  | .logout => { h with session := none }
  | .read | .write _ => if resp.status = statusOk then h.reply resp.version else h

/-- The history after a step. -/
def SessionVersions.next (h : SessionVersions) (s : NodeState U) : NodeAct U → SessionVersions
  | .event e => { h.reply (some e.payload.version) with events := h.events ++ [e.payload.version] }
  | .update t =>
    match s.thread t with
    | .returned call resp => h.update resp call
    | _ => h
  | _ => h

def versionedNode (U : Type) [DecidableEq U] :=
  (nodeMachine U).withHistory ({} : SessionVersions) fun h s a _ => h.next s a

/-- EVENTs arrive in increasing order of their versions. -/
def eventsIncrease (h : SessionVersions) : NodeAct U → Bool
  | .event e => h.events.all fun v => v < e.payload.version
  | _ => true

/-! ## The largest version -/

/-- In a session, the node shows the largest of the versions that it has processed. -/
def Advertised (n : Node) (h : SessionVersions) : Prop :=
  ∀ vs ∈ h.session, ∃ v, n.version = some v ∧ v ∈ vs ∧ ∀ w ∈ vs, w ≤ v

/-- What is processed carries a version, and the session has no larger one. -/
def SessionVersions.admits (h : SessionVersions) : Option ℕ → Bool
  | some v => (h.session.getD []).all fun w => w ≤ v
  | none => false

/-- The update of a request carries a version that the session admits. -/
def ApiCall.advances (h : SessionVersions) (resp : Reply) : ApiCall → Bool
  | .login _ _ => resp.status ≠ statusOk || h.admits resp.version
  | .read | .write _ => resp.status ≠ statusOk || h.session.isNone || h.admits resp.version
  | .logout => true

/-- What the step processes carries no lower version than the session has. -/
def advances (h : SessionVersions) (s : NodeState U) : NodeAct U → Bool
  | .event e => h.session.isNone || h.admits (some e.payload.version)
  | .update t =>
    match s.thread t with
    | .returned call resp => call.advances h resp
    | _ => true
  | _ => true

variable {h h' : SessionVersions}

theorem advertised_of_no_session (hs : h.session = none) : Advertised n h := by
  intro vs hvs
  rw [hs] at hvs
  cases hvs

theorem Advertised.congr {n' : Node} (hi : Advertised n h) (hn : n'.version = n.version)
    (hh : h'.session = h.session) : Advertised n' h' := by
  intro vs hvs
  rw [hn]
  exact hi vs (hh ▸ hvs)

/-- The node shows what it processes last. -/
theorem advertised_reply {vs : List ℕ} (hs : h'.session = some (vs ++ n.version.toList)) :
    Advertised n h' ↔ ∃ v, n.version = some v ∧ ∀ w ∈ vs, w ≤ v := by
  constructor
  · intro hi
    obtain ⟨v, hv, -, hle⟩ := hi _ hs
    exact ⟨v, hv, fun w hw => hle w (List.mem_append_left _ hw)⟩
  · rintro ⟨v, hv, hle⟩ vs' hvs'
    rw [hs, hv, Option.mem_some_iff] at hvs'
    subst hvs'
    refine ⟨v, hv, by simp, fun w hw => ?_⟩
    rcases List.mem_append.1 hw with hw | hw
    · exact hle w hw
    · exact Nat.le_of_eq (List.mem_singleton.1 hw)

theorem admits_iff {v : Option ℕ} : h.admits v = true ↔
    ∃ x, v = some x ∧ ∀ w ∈ h.session.getD [], w ≤ x := by
  cases v with
  | none => simp [SessionVersions.admits]
  | some x => simp [SessionVersions.admits]

/-- An OK reply, or an EVENT, is processed. -/
theorem advertised_processed {v : Option ℕ} (hn : n.version = v)
    (hs : h'.session = h.session.map (· ++ v.toList)) :
    Advertised n h' ↔ (h.session.isNone || h.admits v) = true := by
  cases hsess : h.session with
  | none =>
    rw [hsess] at hs
    exact iff_of_true (advertised_of_no_session hs) rfl
  | some vs =>
    rw [hsess, Option.map_some, ← hn] at hs
    rw [Option.isNone_some, Bool.false_or, admits_iff, advertised_reply hs, hsess, hn]
    rfl

/-- The update of a request. -/
theorem advertised_update (hi : Advertised n h) (call : ApiCall) (resp : Reply) :
    Advertised (call.update n resp) (h.update resp call) ↔ call.advances h resp = true := by
  by_cases hok : resp.status = statusOk
  · cases call with
    | login u name =>
      simp only [ApiCall.update, Node.apiLogin, SessionVersions.update, ApiCall.advances, ne_eq, hok,
        not_true_eq_false, decide_false, Bool.false_or]
      rw [admits_iff]
      exact advertised_reply rfl
    | logout => exact iff_of_true (advertised_of_no_session rfl) rfl
    | read | write =>
      simp only [ApiCall.update, Node.apiRead, Node.apiWrite, SessionVersions.update, ApiCall.advances,
        ne_eq, hok, not_true_eq_false, decide_false, Bool.false_or]
      exact advertised_processed rfl rfl
  · cases call with
    | login | read | write =>
      refine iff_of_true ?_ (by simp [ApiCall.advances, hok])
      simpa only [ApiCall.update, SessionVersions.update, Node.apiLogin, Node.apiRead, Node.apiWrite,
        if_neg hok] using hi
    | logout => exact iff_of_true (advertised_of_no_session rfl) rfl

/-- **One step** keeps the largest version shown if and only if what it processes is no lower. -/
theorem advertised_step (hi : Advertised s.node h) (hs : nodeStep s a = some s') :
    Advertised s'.node (h.next s a) ↔ advances h s a = true := by
  cases a with
  | call | «return» =>
    simp only [nodeStep] at hs
    split at hs <;> cases hs
    exact iff_of_true hi rfl
  | event e =>
    cases hs
    refine advertised_processed ?_ rfl
    simp only [Node.onEvent]
    split_ifs <;> rfl
  | state state =>
    cases hs
    exact iff_of_true (hi.congr rfl rfl) rfl
  | update t =>
    simp only [nodeStep] at hs
    split at hs
    · rename_i call resp ht
      cases hs
      simp only [SessionVersions.next, advances, ht]
      exact advertised_update hi call resp
    · cases hs

omit [DecidableEq U] in
/-- What a session has processed, it keeps. -/
theorem session_grows (s : NodeState U) (a : NodeAct U) {vs vs' : List ℕ} (h0 : vs ∈ h.session)
    (h1 : vs' ∈ (h.next s a).session) : vs ⊆ vs' := by
  have reply : ∀ v : Option ℕ, vs' ∈ (h.reply v).session → vs ⊆ vs' := by
    intro v hv
    rw [SessionVersions.reply, Option.mem_def.1 h0] at hv
    cases hv
    exact List.subset_append_left _ _
  have same : vs' ∈ h.session → vs ⊆ vs' := by
    intro hv
    rw [Option.mem_unique h0 hv]
    exact List.Subset.refl _
  have update : ∀ (call : ApiCall) (resp : Reply), vs' ∈ (h.update resp call).session → vs ⊆ vs' := by
    intro call resp hv
    by_cases hok : resp.status = statusOk
    · cases call with
      | login u name =>
        simp only [SessionVersions.update, if_pos hok, Option.mem_def.1 h0] at hv
        cases hv
        exact List.subset_append_left _ _
      | logout => cases hv
      | read | write =>
        simp only [SessionVersions.update, if_pos hok] at hv
        exact reply _ hv
    · cases call with
      | logout => cases hv
      | login | read | write =>
        simp only [SessionVersions.update, if_neg hok] at hv
        exact same hv
  cases a with
  | call | «return» | state => exact same h1
  | event e => exact reply _ h1
  | update t =>
    simp only [SessionVersions.next] at h1
    split at h1
    · exact update _ _ h1
    · exact same h1

/-- **The advertised version never goes backwards** as long as no step processes a lower version than
the session has.  In every run without such a step, the node shows in a session the largest version
that it has processed since the login, and no step of the session lowers it; and a step from a state in
which the node shows the largest version leads to one in which it does if and only if it is no such
step. -/
theorem advertised_iff :
    (∀ p, (versionedNode U).Reach (fun p a => advances p.2 p.1 a = true) p →
      Advertised p.1.node p.2 ∧
      ∀ a q, advances p.2 p.1 a = true → (versionedNode U).step p a = some q →
        ∀ vs ∈ p.2.session, ∀ vs' ∈ q.2.session,
          ∃ v w, p.1.node.version = some v ∧ q.1.node.version = some w ∧ v ≤ w) ∧
    ∀ p a q, Advertised p.1.node p.2 → (versionedNode U).step p a = some q →
      (Advertised q.1.node q.2 ↔ advances p.2 p.1 a = true) := by
  have hstep : ∀ (p : NodeState U × SessionVersions) (a : NodeAct U) (q : NodeState U × SessionVersions),
      Advertised p.1.node p.2 → (versionedNode U).step p a = some q →
        (Advertised q.1.node q.2 ↔ advances p.2 p.1 a = true) := by
    intro p a q hi hs
    obtain ⟨hs, hh⟩ := Machine.withHistory_step.1 hs
    rw [hh]
    exact advertised_step hi hs
  have hrun : ∀ p, (versionedNode U).Reach (fun p a => advances p.2 p.1 a = true) p →
      Advertised p.1.node p.2 := by
    intro p hr
    refine hr.invariant (fun p => Advertised p.1.node p.2) ?_ ?_
    · rintro ⟨s, h⟩ ⟨-, rfl⟩
      exact advertised_of_no_session rfl
    · intro p a q _ hi hok hs
      exact (hstep p a q hi hs).2 hok
  refine ⟨fun p hr => ⟨hrun p hr, fun a q hok hs vs hvs vs' hvs' => ?_⟩, hstep⟩
  have hi := hrun p hr
  obtain ⟨v, hv, hmem, -⟩ := hi vs hvs
  obtain ⟨w, hw, -, hle⟩ := (hstep p a q hi hs).2 hok vs' hvs'
  refine ⟨v, w, hv, hw, hle v ?_⟩
  obtain ⟨-, hh⟩ := Machine.withHistory_step.1 hs
  rw [hh] at hvs'
  exact session_grows p.1 a hvs hvs' hmem

/-! ### Runs -/

/-- A login, and a read that returns version 1; the EVENT of version 2 is processed before the reply,
or after it. -/
def loweredRun (early : Bool) : List (NodeAct Unit) :=
  let e := NodeAct.event ⟨topicResourceUpdate, 2, some (lit "ENG002"), .str (lit "b")⟩
  [.call () (.login (lit "ENG001") (lit "Alice")), .return () ⟨statusOk, some 1, none⟩, .update (),
    .call () .read, .return () ⟨statusOk, some 1, some (lit "a")⟩] ++
    if early then [e, .update ()] else [.update (), e]

/-- The EVENTs increase, and the node shows version 1 after it has processed version 2. -/
theorem loweredRun_backwards :
    ¬ ∀ p, (versionedNode Unit).Reach (fun p a => eventsIncrease p.2 a = true) p →
      Advertised p.1.node p.2 := by
  intro hall
  have hs : ((versionedNode Unit).runIf (fun p a => eventsIncrease p.2 a = true) ({}, {})
      (loweredRun true)).map (fun p => (p.1.node.version, p.2.session)) =
        some (some 1, some [1, 2, 1]) := by decide
  obtain ⟨p, hrun, hval⟩ := Option.map_eq_some_iff.1 hs
  obtain ⟨hv, hsess⟩ := Prod.mk.inj hval
  have h0 : (versionedNode Unit).Reach (fun p a => eventsIncrease p.2 a = true) ({}, {}) :=
    .init ⟨rfl, rfl⟩
  obtain ⟨v, hver, -, hle⟩ := hall p (h0.runIf hrun) _ hsess
  rw [hv] at hver
  cases hver
  exact absurd (hle 2 (by decide)) (by decide)

theorem raisedRun_advertised :
    ∃ p, (versionedNode Unit).runIf (fun p a => advances p.2 p.1 a = true) ({}, {})
        (loweredRun false) = some p ∧ p.2.session = some [1, 1, 2] ∧ Advertised p.1.node p.2 := by
  have hs : ((versionedNode Unit).runIf (fun p a => advances p.2 p.1 a = true) ({}, {})
      (loweredRun false)).map (fun p => p.2.session) = some (some [1, 1, 2]) := by decide
  obtain ⟨p, hrun, hsess⟩ := Option.map_eq_some_iff.1 hs
  have h0 : (versionedNode Unit).Reach (fun p a => advances p.2 p.1 a = true) ({}, {}) :=
    .init ⟨rfl, rfl⟩
  exact ⟨p, hrun, hsess, (advertised_iff.1 p (h0.runIf hrun)).1⟩

end Advertised

end DistRes
