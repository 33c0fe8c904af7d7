import DistRes.Broker

/-!
# A delivery that never returns

`publish` hands the event to the entries of its snapshot one after the other, on one thread.  A
delivery that raises is caught and the next one is made; one that blocks holds back all that come
after it.

* `Delivery` — what becomes of a delivery: it returns, raises, or blocks for ever;
* `FanOut` — the last snapshot of a thread and the entries that it has handed the event to;
* `isolated_iff` — nobody is held back if and only if no entry but the last of the snapshot blocks.
-/

namespace DistRes

open Lib

/-- What becomes of a delivery to a subscriber. -/
inductive Delivery
  | returns
  | raises
  | blocks
  deriving DecidableEq

/-- The fan-out of a thread. -/
structure FanOut (C : Type) where
  /-- the entries of its last snapshot of the registry -/
  snapshot : List (Text × C) := []
  /-- those whose delivery has returned or raised -/
  handed : List (Text × C) := []

section Isolation

variable {C T : Type}

def FanOut.next (f : FanOut C) (b : PubSubBroker C) : BrokerCall C → BrokerAct C → FanOut C
  | .publish (.snapshot _ _), .step _ => ⟨b.items, []⟩
  | .publish (.deliver _ (x :: _) _), .step _ => { f with handed := f.handed ++ [x] }
  | _, _ => f

/-- Everybody in the snapshot but `x` has been handed the event. -/
def FanOut.Isolates (f : FanOut C) (x : Text × C) : Prop := ∀ y ∈ f.snapshot, y ≠ x → y ∈ f.handed

/-- The entry that a thread is delivering to. -/
def BrokerCall.delivering : BrokerCall C → Option (Text × C)
  | .publish (.deliver _ (x :: _) _) => some x
  | _ => none

variable (outcome : Text × C → Delivery)

/-- A step that ends a delivery ends it as `outcome` says, so a delivery that blocks does not end. -/
def Obeys (call : BrokerCall C) (a : BrokerAct C) : Prop :=
  ∀ x ∈ call.delivering, match a with
    | .step true => outcome x = .returns
    | .step false => outcome x = .raises
    | _ => True

/-- No entry of the registry blocks, but for the last. -/
def OnlyLastBlocks (b : PubSubBroker C) : Prop := ∀ x ∈ b.items.dropLast, outcome x ≠ .blocks

/-- The step is no snapshot of a registry in which another entry than the last blocks. -/
def SnapshotFit (b : PubSubBroker C) : BrokerCall C → BrokerAct C → Prop
  | .publish (.snapshot _ _), .step _ => OnlyLastBlocks outcome b
  | _, _ => True

/-- A thread that is on its way through a snapshot has handed the event to what is not left. -/
def FanOut.Progress (f : FanOut C) : BrokerCall C → Prop
  | .publish (.deliver _ todo _) => f.snapshot = f.handed ++ todo
  | .publish (.drop _ _ todo _) => f.snapshot = f.handed ++ todo
  | _ => True

variable {outcome} {b b' : PubSubBroker C} {call call' : BrokerCall C} {a : BrokerAct C} {f : FanOut C}

theorem FanOut.Progress.step (h : f.Progress call) (hs : brokerStep b call a = some (b', call')) :
    (f.next b call a).Progress call' := by
  cases call with
  | idle =>
    cases a with
    | subscribe | unsubscribe | publish =>
      cases hs
      trivial
    | step | «return» => cases hs
  | publish pc =>
    cases a with
    | step ok =>
      cases pc with
      | snapshot topic e =>
        cases hs
        exact (List.nil_append _).symm
      | deliver e todo n =>
        rcases todo with _ | ⟨⟨u, c⟩, todo⟩
        · cases hs
          trivial
        · have hnext : f.snapshot = (f.handed ++ [(u, c)]) ++ todo := by
            rw [List.append_assoc]
            exact h
          rcases ok with _ | _ <;> cases hs <;> exact hnext
      | drop u e todo n =>
        cases hs
        exact h
      | done => cases hs
    | «return» =>
      cases pc with
      | done =>
        cases hs
        trivial
      | _ => cases hs
    | subscribe | unsubscribe | publish => cases pc <;> cases hs

/-- What the snapshot of a thread satisfies, if the registry did when it was taken. -/
theorem FanOut.snapshot_next {P : List (Text × C) → Prop} (h : P f.snapshot)
    (hb : ∀ topic e ok, call = .publish (.snapshot topic e) → a = .step ok → P b.items) :
    P (f.next b call a).snapshot := by
  unfold FanOut.next
  split
  · exact hb _ _ _ rfl rfl
  · exact h
  · exact h

/-- If nobody but the last entry blocks, then the entry that blocks is the last. -/
theorem FanOut.isolates {x : Text × C} (hp : f.Progress call) (hx : x ∈ call.delivering)
    (hblock : outcome x = .blocks) (hfit : ∀ y ∈ f.snapshot.dropLast, outcome y ≠ .blocks) :
    f.Isolates x := by
  cases call with
  | idle => cases hx
  | publish pc =>
    cases pc with
    | deliver e todo n =>
      rcases todo with _ | ⟨z, todo⟩
      · cases hx
      · cases hx
        have hsplit : f.snapshot = f.handed ++ x :: todo := hp
        have htodo : todo = [] := by
          by_contra hne
          refine hfit x ?_ hblock
          rw [hsplit, List.dropLast_append_of_ne_nil (List.cons_ne_nil _ _),
            List.dropLast_cons_of_ne_nil hne]
          exact List.mem_append_right _ List.mem_cons_self
        intro y hy hne
        rw [hsplit, htodo] at hy
        rcases List.mem_append.1 hy with hy | hy
        · exact hy
        · exact absurd (List.mem_singleton.1 hy) hne
    | _ => cases hx

/-! ## The threads and their fan-outs -/

variable [DecidableEq T]

/-- The broker with the fan-out of every thread. -/
def broadcasting (C T : Type) [DecidableEq T] := (brokerPool C T).withLocal ({} : FanOut C) FanOut.next

/-- The deliveries end as `outcome` says. -/
def ObeysAll (outcome : Text × C → Delivery)
    (p : Pool.State T (PubSubBroker C) (BrokerCall C) × (T → FanOut C)) (a : T × BrokerAct C) : Prop :=
  Obeys outcome (p.1.thread a.1) a.2

/-- The deliveries end as `outcome` says, and no snapshot is taken of a registry in which another
entry than the last blocks. -/
def FitAll (outcome : Text × C → Delivery)
    (p : Pool.State T (PubSubBroker C) (BrokerCall C) × (T → FanOut C)) (a : T × BrokerAct C) : Prop :=
  ObeysAll outcome p a ∧ SnapshotFit outcome p.1.shared (p.1.thread a.1) a.2

/-- No thread that is blocked holds anybody back. -/
def NobodyHeldBack (outcome : Text × C → Delivery)
    (p : Pool.State T (PubSubBroker C) (BrokerCall C) × (T → FanOut C)) : Prop :=
  ∀ t, ∀ x ∈ (p.1.thread t).delivering, outcome x = .blocks → (p.2 t).Isolates x

variable {p q : Pool.State T (PubSubBroker C) (BrokerCall C) × (T → FanOut C)} {t : T}

theorem progress_of_reach {ok} (hr : (broadcasting C T).Reach ok p) (t : T) :
    (p.2 t).Progress (p.1.thread t) :=
  Pool.withLocal_invariant (P := brokerPool C T) FanOut.Progress trivial
    (fun _ _ _ _ _ _ _ hs h => h.step hs) hr t

/-- The ids of a snapshot differ, so its entries do. -/
theorem nodup_snapshot {ok} (hr : (broadcasting C T).Reach ok p) (t : T) : (p.2 t).snapshot.Nodup :=
  Pool.withLocal_invariant (P := brokerPool C T) (fun f _ => f.snapshot.Nodup) List.nodup_nil
    (fun p _ _ _ _ _ _ _ h => FanOut.snapshot_next h fun _ _ _ _ _ => p.1.shared.nodup.of_map _) hr t

theorem fit_snapshot (hr : (broadcasting C T).Reach (FitAll outcome) p) (t : T) :
    ∀ x ∈ (p.2 t).snapshot.dropLast, outcome x ≠ .blocks := by
  refine Pool.withLocal_invariant (P := brokerPool C T)
    (fun f _ => ∀ x ∈ f.snapshot.dropLast, outcome x ≠ .blocks) (fun _ h => by cases h)
    (fun p t a b l _ hok _ h => ?_) hr t
  refine FanOut.snapshot_next (P := fun l => ∀ x ∈ l.dropLast, outcome x ≠ .blocks) h
    fun topic e ok hpc ha => ?_
  have hfit := hok.2
  simp only [hpc, ha] at hfit
  exact hfit

/-! ## What comes before an entry that blocks -/

/-- A thread may take any step that obeys. -/
theorem reach_step {a : BrokerAct C} {b : PubSubBroker C} {l : BrokerCall C}
    (hr : (broadcasting C T).Reach (ObeysAll outcome) p) (hok : Obeys outcome (p.1.thread t) a)
    (hs : brokerStep p.1.shared (p.1.thread t) a = some (b, l)) :
    (broadcasting C T).Reach (ObeysAll outcome) (⟨b, Function.update p.1.thread t l⟩,
      Function.update p.2 t ((p.2 t).next p.1.shared (p.1.thread t) a)) :=
  hr.step (a := (t, a)) hok (Pool.withLocal_step.2 ⟨b, l, hs, rfl⟩)

/-- A delivery that does not block is followed by the next one. -/
theorem passes_entry {e : Event} {y : Text × C} {todo : List (Text × C)} {n : ℕ}
    (hy : outcome y ≠ .blocks) (hr : (broadcasting C T).Reach (ObeysAll outcome) p)
    (hpc : p.1.thread t = .publish (.deliver e (y :: todo) n)) :
    ∃ q m, (broadcasting C T).Reach (ObeysAll outcome) q ∧ (q.2 t).snapshot = (p.2 t).snapshot ∧
      q.1.thread t = .publish (.deliver e todo m) := by
  obtain ⟨u, c⟩ := y
  have hdel : (p.1.thread t).delivering = some (u, c) := by rw [hpc]; rfl
  have hsnap : ∀ ok, ((p.2 t).next p.1.shared (p.1.thread t) (.step ok)).snapshot =
      (p.2 t).snapshot := fun ok => by rw [hpc]; rfl
  cases h : outcome (u, c) with
  | blocks => exact absurd h hy
  | returns =>
    have hok : Obeys outcome (p.1.thread t) (.step true) := by
      intro z hz
      rw [hdel] at hz
      exact Option.some.inj hz ▸ h
    have hs : brokerStep p.1.shared (p.1.thread t) (.step true) =
        some (p.1.shared, .publish (.deliver e todo (n + 1))) := by
      rw [hpc]
      rfl
    refine ⟨_, n + 1, reach_step hr hok hs, ?_, Function.update_self ..⟩
    simp only [Function.update_self, hsnap]
  | raises =>
    have hok : Obeys outcome (p.1.thread t) (.step false) := by
      intro z hz
      rw [hdel] at hz
      exact Option.some.inj hz ▸ h
    have hs : brokerStep p.1.shared (p.1.thread t) (.step false) =
        some (p.1.shared, .publish (.drop u e todo n)) := by
      rw [hpc]
      rfl
    have hr₁ := reach_step hr hok hs
    -- the removal is a step of its own
    have hr₂ := reach_step (t := t) (a := .step true) (b := p.1.shared.unsubscribe u)
      (l := .publish (.deliver e todo n)) hr₁
      (fun z hz => by simp only [Function.update_self] at hz; cases hz)
      (by simp only [Function.update_self]; rfl)
    refine ⟨_, n, hr₂, ?_, Function.update_self ..⟩
    simp only [Function.update_self, FanOut.next]
    exact hsnap false

/-- The thread `t` delivers to the entries before `x`, none of which blocks, and comes to `x`. -/
theorem reaches_entry {e : Event} {x : Text × C} {post : List (Text × C)} (pre : List (Text × C))
    (hpre : ∀ y ∈ pre, outcome y ≠ .blocks) {n : ℕ}
    (hr : (broadcasting C T).Reach (ObeysAll outcome) p)
    (hpc : p.1.thread t = .publish (.deliver e (pre ++ x :: post) n)) :
    ∃ q, (broadcasting C T).Reach (ObeysAll outcome) q ∧ (q.2 t).snapshot = (p.2 t).snapshot ∧
      ∃ m, q.1.thread t = .publish (.deliver e (x :: post) m) := by
  induction pre generalizing p n with
  | nil => exact ⟨p, hr, rfl, n, hpc⟩
  | cons y pre ih =>
    obtain ⟨p', n', hr', hsnap, hpc'⟩ := passes_entry (hpre y List.mem_cons_self) hr hpc
    obtain ⟨q, hq, hsnap', hpcq⟩ := ih (fun y hy => hpre y (List.mem_cons_of_mem _ hy)) hr' hpc'
    exact ⟨q, hq, hsnap'.trans hsnap, hpcq⟩

/-- The first entry of a list with the property, if there is one before the last. -/
theorem first_before_last {α : Type} {P : α → Prop} {l : List α} (h : ∃ x ∈ l.dropLast, P x) :
    ∃ pre x y post, l = pre ++ x :: y :: post ∧ P x ∧ ∀ z ∈ pre, ¬ P z := by
  classical
  induction l with
  | nil =>
    obtain ⟨x, hx, -⟩ := h
    cases hx
  | cons z l ih =>
    rcases l with _ | ⟨w, l⟩
    · obtain ⟨x, hx, -⟩ := h
      cases hx
    · by_cases hz : P z
      · exact ⟨[], z, w, l, rfl, hz, nofun⟩
      · obtain ⟨x, hx, hP⟩ := h
        rw [List.dropLast_cons_of_ne_nil (List.cons_ne_nil w l)] at hx
        rcases List.mem_cons.1 hx with rfl | hx
        · exact absurd hP hz
        · obtain ⟨pre, x, y, post, hl, hP, hpre⟩ := ih ⟨x, hx, hP⟩
          refine ⟨z :: pre, x, y, post, by rw [hl]; rfl, hP, fun v hv => ?_⟩
          rcases List.mem_cons.1 hv with rfl | hv
          · exact hz
          · exact hpre v hv

/-- A snapshot in which another entry than the last blocks leads to somebody held back. -/
theorem heldBack_of_snapshot {topic : Text} {e : Update}
    (hr : (broadcasting C T).Reach (ObeysAll outcome) p)
    (hpc : p.1.thread t = .publish (.snapshot topic e)) (hb : ¬ OnlyLastBlocks outcome p.1.shared) :
    ∃ q, (broadcasting C T).Reach (ObeysAll outcome) q ∧ (q.2 t).snapshot = p.1.shared.items ∧
      ∃ x ∈ (q.1.thread t).delivering, outcome x = .blocks ∧ ¬ (q.2 t).Isolates x := by
  simp only [OnlyLastBlocks, not_forall, not_not, exists_prop] at hb
  obtain ⟨pre, x, y, post, hitems, hx, hpre⟩ := first_before_last hb
  have hr₁ := reach_step (t := t) (a := .step true) hr
    (fun z hz => by rw [hpc] at hz; cases hz) (by rw [hpc]; rfl)
  have hsnap₁ : ((p.2 t).next p.1.shared (p.1.thread t) (.step true)).snapshot =
      pre ++ x :: y :: post := by
    rw [hpc]
    exact hitems
  obtain ⟨q, hq, hsnap, m, hqpc⟩ := reaches_entry (t := t) (e := ⟨topic, e⟩) (n := 0) pre hpre hr₁
    (by simp only [Function.update_self]; rw [hitems])
  simp only [Function.update_self] at hsnap
  refine ⟨q, hq, hsnap.trans (hsnap₁.trans hitems.symm), x, by rw [hqpc]; rfl, hx, fun hiso => ?_⟩
  have hprog : (q.2 t).snapshot = (q.2 t).handed ++ x :: y :: post := by
    have h := progress_of_reach hq t
    rw [hqpc] at h
    exact h
  have hnodup := nodup_snapshot hq t
  rw [hprog] at hnodup
  have hne : y ≠ x := fun h =>
    (List.nodup_cons.1 hnodup.of_append_right).1 (h ▸ List.mem_cons_self)
  have hmem : y ∈ (q.2 t).handed := hiso y (by rw [hprog]; simp) hne
  exact List.disjoint_of_nodup_append hnodup hmem (by simp)

/-- **A subscriber that blocks holds back all that come after it.**  In every run whose snapshots are
taken of registries in which no entry but the last blocks, everybody else in the snapshot of a
blocked thread has been handed the event; and a snapshot of any other registry leads to a state in
which the thread is blocked and somebody else has not. -/
theorem isolated_iff (outcome : Text × C → Delivery) :
    (∀ p, (broadcasting C T).Reach (FitAll outcome) p → NobodyHeldBack outcome p) ∧
    ∀ p, (broadcasting C T).Reach (ObeysAll outcome) p → ∀ t topic e,
      p.1.thread t = .publish (.snapshot topic e) → ¬ OnlyLastBlocks outcome p.1.shared →
        ∃ q, (broadcasting C T).Reach (ObeysAll outcome) q ∧
          (q.2 t).snapshot = p.1.shared.items ∧ ¬ NobodyHeldBack outcome q := by
  refine ⟨fun p hr t x hx hblock => ?_, fun p hr t topic e hpc hb => ?_⟩
  · exact FanOut.isolates (progress_of_reach hr t) hx hblock (fit_snapshot hr t)
  · obtain ⟨q, hq, hsnap, x, hx, hblock, hiso⟩ := heldBack_of_snapshot hr hpc hb
    exact ⟨q, hq, hsnap, fun hall => hiso (hall t x hx hblock)⟩

/-- The handlers of the server fan out so too: what a handler has not come to has been handed nothing
by it. -/
theorem fanOut_of_server {H : Type} [DecidableEq H] {cfg : Config} {file : Bytes}
    {s : Pool.State H (DistResServer H) (ClientHandler H)}
    (hr : (serverMachine cfg H file).Reachable s) : ∃ G, (broadcasting H H).Reachable (brokerOf s, G) ∧
      ∀ h e todo n, (s.thread h).pc = .publish (.deliver e todo n) →
        (G h).snapshot = (G h).handed ++ todo := by
  have hrec : ∃ G, (broadcasting H H).Reachable (brokerOf s, G) := Pool.record_local (broker_of_server hr)
  obtain ⟨G, hG⟩ := hrec
  refine ⟨G, hG, fun h e todo n hpc => ?_⟩
  have hprog := progress_of_reach hG h
  simp only [brokerOf, hpc] at hprog
  exact hprog

/-! ### Runs -/

instance : Decidable (Obeys outcome call a) :=
  match a with
  | .step true => inferInstanceAs (Decidable (∀ x ∈ call.delivering, outcome x = .returns))
  | .step false => inferInstanceAs (Decidable (∀ x ∈ call.delivering, outcome x = .raises))
  | .subscribe _ _ | .unsubscribe _ | .publish _ _ | .return =>
    inferInstanceAs (Decidable (∀ x ∈ call.delivering, True))

instance : Decidable (SnapshotFit outcome b call a) := by
  unfold SnapshotFit OnlyLastBlocks
  split <;> infer_instance

instance (p : Pool.State T (PubSubBroker C) (BrokerCall C) × (T → FanOut C)) (a : T × BrokerAct C) :
    Decidable (ObeysAll outcome p a) :=
  inferInstanceAs (Decidable (Obeys ..))

instance (p : Pool.State T (PubSubBroker C) (BrokerCall C) × (T → FanOut C)) (a : T × BrokerAct C) :
    Decidable (FitAll outcome p a) :=
  inferInstanceAs (Decidable (ObeysAll outcome p a ∧ SnapshotFit ..))

/-- The client of `ENG001` has stopped reading. -/
def stalled (x : Text × ℕ) : Delivery := if x.1 = lit "ENG001" then .blocks else .returns

/-- The users `us` subscribe, and the thread `t` publishes. -/
def broadcastRun (t : T) (us : List String) : List (T × BrokerAct ℕ) :=
  us.map (fun u => (t, .subscribe (lit u) 0)) ++
    [(t, .publish topicResourceUpdate ⟨1, none, .null⟩), (t, .step true)]

theorem broadcastStart_reach {ok} :
    (broadcasting ℕ T).Reach ok (brokerStart, fun _ => ({} : FanOut ℕ)) :=
  .init ⟨⟨rfl, fun _ => rfl⟩, rfl⟩

/-- `ENG001` comes first in the registry: `ENG002` gets nothing. -/
theorem broadcastRun_holds_back :
    ¬ ∀ (outcome : Text × ℕ → Delivery) p, (broadcasting ℕ (Fin 2)).Reach (ObeysAll outcome) p →
      NobodyHeldBack outcome p := by
  intro hall
  have hs : ((broadcasting ℕ (Fin 2)).runIf (ObeysAll stalled) (brokerStart, fun _ => {})
      (broadcastRun 0 ["ENG001", "ENG002"])).map (fun p => ((p.1.thread 0).delivering,
        (p.2 0).snapshot, (p.2 0).handed)) =
      some (some (lit "ENG001", 0), [(lit "ENG001", 0), (lit "ENG002", 0)], []) := by decide
  obtain ⟨p, hrun, hval⟩ := Option.map_eq_some_iff.1 hs
  simp only [Prod.mk.injEq] at hval
  obtain ⟨hdel, hsnap, hhanded⟩ := hval
  have hiso := hall stalled p (broadcastStart_reach.runIf hrun) 0 _ hdel rfl
  have hmem : (lit "ENG002", 0) ∈ (p.2 0).handed :=
    hiso (lit "ENG002", 0) (by rw [hsnap]; exact .tail _ (.head _)) (by decide)
  rw [hhanded] at hmem
  cases hmem

/-- `ENG001` comes last: the thread blocks there, when `ENG002` has been handed the event.  In the
other order, `ENG002` is held back. -/
theorem broadcastRun_isolates :
    (∃ p, (broadcasting ℕ (Fin 2)).runIf (FitAll stalled) (brokerStart, fun _ => {})
        (broadcastRun 0 ["ENG002", "ENG001"] ++ [(0, .step true)]) = some p ∧
      (p.1.thread 0).delivering = some (lit "ENG001", 0) ∧ NobodyHeldBack stalled p) ∧
    ∃ q, (broadcasting ℕ (Fin 2)).Reach (ObeysAll stalled) q ∧ ¬ NobodyHeldBack stalled q := by
  constructor
  · have hs : ((broadcasting ℕ (Fin 2)).runIf (FitAll stalled) (brokerStart, fun _ => {})
        (broadcastRun 0 ["ENG002", "ENG001"] ++ [(0, .step true)])).map
          (fun p => (p.1.thread 0).delivering) = some (some (lit "ENG001", 0)) := by decide
    obtain ⟨p, hrun, hdel⟩ := Option.map_eq_some_iff.1 hs
    exact ⟨p, hrun, hdel, (isolated_iff stalled).1 p (broadcastStart_reach.runIf hrun)⟩
  · have hs : ((broadcasting ℕ (Fin 2)).runIf (ObeysAll stalled) (brokerStart, fun _ => {})
        ((broadcastRun 0 ["ENG001", "ENG002"]).take 3)).map (fun p => (p.1.shared.items,
          p.1.thread 0)) = some ([(lit "ENG001", 0), (lit "ENG002", 0)],
            .publish (.snapshot topicResourceUpdate ⟨1, none, .null⟩)) := rfl
    obtain ⟨p, hrun, hval⟩ := Option.map_eq_some_iff.1 hs
    obtain ⟨hitems, hpc⟩ := Prod.mk.inj hval
    have hb : ¬ OnlyLastBlocks stalled p.1.shared := by
      rw [OnlyLastBlocks, hitems]
      decide
    obtain ⟨q, hq, -, hheld⟩ :=
      (isolated_iff stalled).2 p (broadcastStart_reach.runIf hrun) 0 _ _ hpc hb
    exact ⟨q, hq, hheld⟩

end Isolation

end DistRes
