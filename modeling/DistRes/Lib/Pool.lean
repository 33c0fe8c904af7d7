import Mathlib.Data.Fintype.Card
import Mathlib.Algebra.BigOperators.Group.Finset.Piecewise
import DistRes.Lib.Machine

/-!
# Thread pools

A *pool* is any number of threads over one shared state.  A step belongs to one thread: it reads
and changes the shared state and the thread's own local state, and leaves the other threads alone.
Every interleaving of the threads is a run of the pool's machine.

* `Pool.machine_step` — what a step of the machine is;
* `Pool.withLocal` — the machine in which every thread keeps a history of its own, with the invariant
  rule `withLocal_invariant` for the history and the local state of a thread;
* `count` — the number of threads in a given kind of local state, and `count_update`, its change
  when one thread moves.
-/

namespace DistRes.Lib

/-- The state of a pool: the shared state and the local state of every thread. -/
structure Pool.State (T G L : Type*) where
  shared : G
  thread : T → L

/-- A pool of threads `T`: the initial shared states, the local state in which threads start, and
the step of a thread. -/
structure Pool (T G L A : Type*) where
  init : G → Prop
  start : L
  step : T → G → L → A → Option (G × L)

namespace Pool

variable {T G L A : Type*} [DecidableEq T] (P : Pool T G L A)

/-- The machine of a pool: an action is a thread together with what it does. -/
def machine : Machine (State T G L) (T × A) where
  init s := P.init s.shared ∧ ∀ t, s.thread t = P.start
  step s a := (P.step a.1 s.shared (s.thread a.1) a.2).map fun r =>
    ⟨r.1, Function.update s.thread a.1 r.2⟩

variable {P}

theorem machine_step {s s' : State T G L} {a : T × A} :
    P.machine.step s a = some s' ↔ ∃ g l, P.step a.1 s.shared (s.thread a.1) a.2 = some (g, l) ∧
      s' = ⟨g, Function.update s.thread a.1 l⟩ := by
  simp only [machine, Option.map_eq_some_iff, Prod.exists]
  constructor
  · rintro ⟨g, l, h, rfl⟩
    exact ⟨g, l, h, rfl⟩
  · rintro ⟨g, l, h, rfl⟩
    exact ⟨g, l, h, rfl⟩

/-! ## Threads with a history -/

section Local

variable {γ : Type*}

/-- The machine of the pool, where `upd` updates the history of the thread that takes the step. -/
def withLocal (P : Pool T G L A) (g₀ : γ) (upd : γ → G → L → A → γ) :
    Machine (State T G L × (T → γ)) (T × A) :=
  P.machine.withHistory (fun _ => g₀) fun g s a _ =>
    Function.update g a.1 (upd (g a.1) s.shared (s.thread a.1) a.2)

variable {g₀ : γ} {upd : γ → G → L → A → γ}

theorem withLocal_step {p q : State T G L × (T → γ)} {a : T × A} :
    (P.withLocal g₀ upd).step p a = some q ↔ ∃ g l,
      P.step a.1 p.1.shared (p.1.thread a.1) a.2 = some (g, l) ∧
        q = (⟨g, Function.update p.1.thread a.1 l⟩,
          Function.update p.2 a.1 (upd (p.2 a.1) p.1.shared (p.1.thread a.1) a.2)) := by
  constructor
  · intro hs
    obtain ⟨hs, hq⟩ := Machine.withHistory_step.1 hs
    obtain ⟨g, l, hstep, hq'⟩ := machine_step.1 hs
    exact ⟨g, l, hstep, Prod.ext hq' hq⟩
  · rintro ⟨g, l, hstep, rfl⟩
    exact Machine.withHistory_step.2 ⟨machine_step.2 ⟨g, l, hstep, rfl⟩, rfl⟩

/-- **The invariant rule of a thread.**  What holds of a thread and its history at the start, and is
preserved by the steps of the thread, holds of every thread of every state reached. -/
theorem withLocal_invariant {ok : State T G L × (T → γ) → T × A → Prop} (I : γ → L → Prop)
    (h0 : I g₀ P.start)
    (hstep : ∀ p t a g l, (P.withLocal g₀ upd).Reach ok p → ok p (t, a) →
      P.step t p.1.shared (p.1.thread t) a = some (g, l) → I (p.2 t) (p.1.thread t) →
        I (upd (p.2 t) p.1.shared (p.1.thread t) a) l)
    {p : State T G L × (T → γ)} (hr : (P.withLocal g₀ upd).Reach ok p) (t : T) :
    I (p.2 t) (p.1.thread t) := by
  refine hr.invariant (fun p => ∀ t, I (p.2 t) (p.1.thread t)) ?_ ?_ t
  · rintro ⟨s, g⟩ ⟨⟨-, hth⟩, hg⟩ t
    simp only at hg ⊢
    rw [hg, hth t]
    exact h0
  · rintro p ⟨t, a⟩ q hr ih hok hs k
    obtain ⟨g, l, hmove, rfl⟩ := withLocal_step.1 hs
    by_cases hk : k = t
    · subst hk
      simp only [Function.update_self]
      exact hstep p k a g l hr hok hmove (ih k)
    · simp only [Function.update_of_ne hk]
      exact ih k

/-- Forgetting the histories. -/
theorem erase_local {ok : State T G L → T × A → Prop} {p : State T G L × (T → γ)}
    (hr : (P.withLocal g₀ upd).Reach (fun p => ok p.1) p) : P.machine.Reach ok p.1 :=
  hr.erase

/-- Every run of the pool can be recorded. -/
theorem record_local {s : State T G L} (hr : P.machine.Reachable s) :
    ∃ g, (P.withLocal g₀ upd).Reachable (s, g) :=
  hr.record

end Local

end Pool

/-! ## Counting threads -/

section Count

variable {T L : Type*} [Fintype T] (p : L → Prop) [DecidablePred p]

/-- The number of threads whose local state satisfies `p`. -/
def count (th : T → L) : ℕ := (Finset.univ.filter fun t => p (th t)).card

theorem count_eq_sum (th : T → L) : count p th = ∑ t, if p (th t) then 1 else 0 :=
  Finset.card_filter _ _

theorem count_eq_zero {th : T → L} : count p th = 0 ↔ ∀ t, ¬ p (th t) := by
  simp [count, Finset.filter_eq_empty_iff]

theorem count_pos {th : T → L} : 0 < count p th ↔ ∃ t, p (th t) := by
  simp [Nat.pos_iff_ne_zero, count_eq_zero]

theorem count_le_one {th : T → L} : count p th ≤ 1 ↔ ∀ t u, p (th t) → p (th u) → t = u := by
  simp only [count, Finset.card_le_one, Finset.mem_filter, Finset.mem_univ, true_and]
  exact ⟨fun h t u ht hu => h t ht u hu, fun h t ht u hu => h t u ht hu⟩

variable [DecidableEq T]

/-- **One thread moves.**  The count changes by the thread that moves. -/
theorem count_update (th : T → L) (t : T) (l : L) :
    count p (Function.update th t l) + (if p (th t) then 1 else 0) =
      count p th + if p l then 1 else 0 := by
  rw [count_eq_sum, count_eq_sum, ← Finset.add_sum_erase _ _ (Finset.mem_univ t),
    ← Finset.add_sum_erase (Finset.univ : Finset T) (fun u => if p (th u) then 1 else 0)
      (Finset.mem_univ t)]
  have hrest : ∑ u ∈ Finset.univ.erase t, (if p (Function.update th t l u) then 1 else 0) =
      ∑ u ∈ Finset.univ.erase t, if p (th u) then 1 else 0 :=
    Finset.sum_congr rfl fun u hu => by rw [Function.update_of_ne (Finset.ne_of_mem_erase hu)]
  rw [hrest, Function.update_self]
  omega

end Count

end DistRes.Lib
