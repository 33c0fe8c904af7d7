import DistRes.ClientNode

/-!
# Snapshots that are shown as fresh

A node is told of a version by an EVENT or by the reply to a write of its own.  What it shows as
fresh should be no older than what it was told.

* `toldNode` — a node with the versions that it was told of;
* `Fresh` — the property, and `Overtaken`, the step that breaks it;
* `fresh_iff_not_overtaken` — a read that is applied after a later version was told of, and nothing
  else, makes a node show an outdated snapshot as fresh.
-/

namespace DistRes

open Lib

section Freshness

variable {U : Type} [DecidableEq U] {s s' : NodeState U} {a : NodeAct U} {told : List ℕ}

/-- The versions that the node has been told of after the update of a request, since the last login
that it has processed. -/
def ApiCall.tells (told : List ℕ) (resp : Reply) : ApiCall → List ℕ
  | .login _ _ => if resp.status = statusOk then [] else told
  | .write _ => if resp.status = statusOk then told ++ resp.version.toList else told
  | .logout | .read => told

/-- The versions that the node has been told of after a step. -/
def toldAfter (told : List ℕ) (s : NodeState U) : NodeAct U → List ℕ
  | .event e => told ++ [e.payload.version]
  | .update t =>
    match s.thread t with
    | .returned call resp => call.tells told resp
    | _ => told
  | _ => told

def toldNode (U : Type) [DecidableEq U] :=
  (nodeMachine U).withHistory ([] : List ℕ) fun told s a _ => toldAfter told s a

/-- A snapshot that is older than what the node was told is marked as stale. -/
def Fresh (n : Node) (told : List ℕ) : Prop :=
  n.contentLoaded = true → ∀ v, n.contentVersion = some v → (∃ w ∈ told, v < w) → n.contentStale = true

/-- The update of a read that has returned an older version than the node was told of. -/
def ApiCall.overtaken (told : List ℕ) (resp : Reply) : ApiCall → Bool
  | .read => resp.status = statusOk && resp.version.any fun v => told.any fun w => v < w
  | _ => false

/-- The step is the update of an overtaken read. -/
def overtaken (told : List ℕ) (s : NodeState U) : NodeAct U → Bool
  | .update t =>
    match s.thread t with
    | .returned call resp => call.overtaken told resp
    | _ => false
  | _ => false

variable {n n' : Node}

/-- The node is told of `w`, and marks its snapshot unless it is of this version. -/
theorem Fresh.tells (hf : Fresh n told) (w : Option ℕ) (hl : n'.contentLoaded = n.contentLoaded)
    (hv : n'.contentVersion = n.contentVersion)
    (hs : n'.contentStale = if n.contentLoaded ∧ w ≠ n.contentVersion then true else n.contentStale) :
    Fresh n' (told ++ w.toList) := by
  rintro hload v hver ⟨x, hx, hlt⟩
  rw [hl] at hload
  rw [hv] at hver
  rw [hs]
  split_ifs with hw
  · rfl
  · -- the version told of is the one of the snapshot, so that an earlier one was later
    have hw : w = some v := by
      by_contra hne
      exact hw ⟨hload, by rwa [hver]⟩
    rcases List.mem_append.1 hx with hx | hx
    · exact hf hload v hver ⟨x, hx, hlt⟩
    · rw [hw, Option.toList_some, List.mem_singleton] at hx
      exact absurd hlt (by omega)

theorem fresh_of_not_loaded (h : n.contentLoaded = false) : Fresh n told := by
  intro hl
  rw [h] at hl
  cases hl

theorem onEvent_fields (n : Node) (e : Event) :
    (n.onEvent e).contentLoaded = n.contentLoaded ∧ (n.onEvent e).contentVersion = n.contentVersion ∧
      (n.onEvent e).contentStale =
        if n.contentLoaded ∧ some e.payload.version ≠ n.contentVersion then true
        else n.contentStale := by
  simp only [Node.onEvent]
  split_ifs
  · exact ⟨rfl, rfl, rfl⟩
  · exact ⟨rfl, rfl, rfl⟩

theorem Fresh.onEvent (hf : Fresh n told) (e : Event) :
    Fresh (n.onEvent e) (told ++ [e.payload.version]) := by
  obtain ⟨hl, hv, hs⟩ := onEvent_fields n e
  exact hf.tells (some e.payload.version) hl hv hs

theorem Fresh.apiWrite (hf : Fresh n told) {resp : Reply} (hok : resp.status = statusOk) :
    Fresh (n.apiWrite resp) (told ++ resp.version.toList) := by
  rw [Node.apiWrite, if_pos hok]
  exact hf.tells resp.version rfl rfl rfl

/-- A read shows its snapshot as fresh. -/
theorem fresh_apiRead {resp : Reply} (hok : resp.status = statusOk) :
    Fresh (n.apiRead resp) told ↔ ApiCall.read.overtaken told resp = false := by
  have hover : ApiCall.read.overtaken told resp = true ↔
      ∃ v, resp.version = some v ∧ ∃ w ∈ told, v < w := by
    simp [ApiCall.overtaken, hok, Option.any_eq_true]
  rw [Node.apiRead, if_pos hok, ← Bool.not_eq_true, hover]
  constructor
  · rintro hf ⟨v, hv, hlt⟩
    cases hf rfl v hv hlt
  · intro hno _ v hv hlt
    exact absurd ⟨v, hv, hlt⟩ hno

/-- The update of a request. -/
theorem fresh_update (hf : Fresh n told) (call : ApiCall) (resp : Reply) :
    Fresh (call.update n resp) (call.tells told resp) ↔ call.overtaken told resp = false := by
  by_cases hok : resp.status = statusOk
  · cases call with
    | login u name =>
      refine iff_of_true (fresh_of_not_loaded ?_) rfl
      simp only [ApiCall.update, Node.apiLogin, if_pos hok]
    | logout => exact iff_of_true (fresh_of_not_loaded rfl) rfl
    | read => exact fresh_apiRead hok
    | write content =>
      refine iff_of_true ?_ rfl
      simp only [ApiCall.update, ApiCall.tells, if_pos hok]
      exact hf.apiWrite hok
  · cases call with
    | login | read | write =>
      refine iff_of_true ?_ (by simp [ApiCall.overtaken, hok])
      simpa only [ApiCall.update, ApiCall.tells, Node.apiLogin, Node.apiRead, Node.apiWrite, if_neg hok]
        using hf
    | logout => exact iff_of_true (fresh_of_not_loaded rfl) rfl

/-- **One step** keeps what is fresh unless it is an overtaken read, and an overtaken read is never
fresh. -/
theorem fresh_step (hf : Fresh s.node told) (hs : nodeStep s a = some s') :
    Fresh s'.node (toldAfter told s a) ↔ overtaken told s a = false := by
  cases a with
  | call | «return» =>
    simp only [nodeStep] at hs
    split at hs <;> cases hs
    exact iff_of_true hf rfl
  | event e =>
    cases hs
    exact iff_of_true (hf.onEvent e) rfl
  | state state =>
    cases hs
    exact iff_of_true hf rfl
  | update t =>
    simp only [nodeStep] at hs
    split at hs
    · rename_i call resp ht
      cases hs
      simp only [toldAfter, overtaken, ht]
      exact fresh_update hf call resp
    · cases hs

/-- **A node shows an outdated snapshot as fresh exactly after an overtaken read.**  In every run
without an overtaken read, a snapshot older than what the node was told since its last login is
marked as stale; and a step from a state in which this holds breaks it if and only if it is an
overtaken read. -/
theorem fresh_iff_not_overtaken :
    (∀ p, (toldNode U).Reach (fun p a => overtaken p.2 p.1 a = false) p → Fresh p.1.node p.2) ∧
    ∀ p a q, Fresh p.1.node p.2 → (toldNode U).step p a = some q →
      (Fresh q.1.node q.2 ↔ overtaken p.2 p.1 a = false) := by
  refine ⟨fun p hr => ?_, fun p a q hf hs => ?_⟩
  · refine hr.invariant (fun p => Fresh p.1.node p.2) ?_ ?_
    · rintro ⟨s, told⟩ ⟨hs, -⟩
      obtain rfl : s = {} := hs
      exact fresh_of_not_loaded rfl
    · rintro ⟨s, told⟩ a ⟨s', told'⟩ - hf hok hs
      obtain ⟨hs, ht⟩ := Machine.withHistory_step.1 hs
      simp only at hf hok hs ht ⊢
      rw [ht]
      exact (fresh_step hf hs).2 hok
  · obtain ⟨hs, ht⟩ := Machine.withHistory_step.1 hs
    rw [ht]
    exact fresh_step hf hs

/-! ### Runs -/

/-- A read returns version 1; the node is told of version 2 before it updates its state, or after. -/
def overtakenRun (early : Bool) : List (NodeAct Unit) :=
  let e := NodeAct.event ⟨topicResourceUpdate, 2, some (lit "ENG002"), .str (lit "b")⟩
  [.call () (.login (lit "ENG001") (lit "Alice")), .return () ⟨statusOk, some 1, none⟩, .update (),
    .call () .read, .return () ⟨statusOk, some 1, some (lit "a")⟩] ++
    if early then [e, .update ()] else [.update (), e]

/-- Told of version 2, the node shows version 1 as fresh. -/
theorem overtakenRun_outdated :
    ¬ ∀ p, (toldNode Unit).Reachable p → Fresh p.1.node p.2 := by
  intro hall
  have hs : ((toldNode Unit).run ({}, []) (overtakenRun true)).map (fun p =>
      (p.1.node.contentLoaded, p.1.node.contentVersion, p.1.node.contentStale, p.2)) =
        some (true, some 1, false, [2]) := by decide
  obtain ⟨p, hrun, hval⟩ := Option.map_eq_some_iff.1 hs
  simp only [Prod.mk.injEq] at hval
  obtain ⟨hl, hv, hst, ht⟩ := hval
  have hr : (toldNode Unit).Reachable p :=
    Machine.Reachable.run (s := (({} : NodeState Unit), [])) (.init ⟨rfl, rfl⟩) hrun
  have := hall p hr hl 1 hv ⟨2, by simp [ht], by omega⟩
  rw [hst] at this
  cases this

theorem overtakenRun_marked :
    ∃ p, (toldNode Unit).runIf (fun p a => overtaken p.2 p.1 a = false) ({}, []) (overtakenRun false) =
        some p ∧ p.1.node.contentVersion = some 1 ∧ p.1.node.contentStale = true := by
  have hs : ((toldNode Unit).runIf (fun p a => overtaken p.2 p.1 a = false) ({}, [])
      (overtakenRun false)).map (fun p => (p.1.node.contentLoaded, p.1.node.contentVersion, p.2)) =
        some (true, some 1, [2]) := by decide
  obtain ⟨p, hrun, hval⟩ := Option.map_eq_some_iff.1 hs
  simp only [Prod.mk.injEq] at hval
  obtain ⟨hl, hv, ht⟩ := hval
  have hr : (toldNode Unit).Reach (fun p a => overtaken p.2 p.1 a = false) p :=
    Machine.Reach.runIf (s := (({} : NodeState Unit), [])) (.init ⟨rfl, rfl⟩) hrun
  exact ⟨p, hrun, hv, fresh_iff_not_overtaken.1 p hr hl 1 hv ⟨2, by simp [ht], by omega⟩⟩

end Freshness

end DistRes
