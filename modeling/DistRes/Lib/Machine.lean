import Mathlib.Data.Nat.Notation
import Mathlib.Logic.Function.Basic

/-!
# Machines, runs and history variables

A *machine* is a set of initial states and a partial step function: an action either leads from a
state to one next state or is not enabled there, so that all nondeterminism sits in the choice of
the actions and a run on a concrete list of actions can be evaluated.

* `Machine.Reach ok` — the states reached by runs all of whose steps meet the condition `ok`;
  `Machine.Reachable` is the case without a condition;
* `Machine.startingAt` — the same machine from a given state on, so that its runs are the intervals of
  runs that begin there;
* `Reach.leads` — the progress rule: where every state has a step that lowers a rank, some run leads to
  the goal;
* `Reach.map` — the simulation rule: a map of states under which every step is a step of the other
  machine or changes nothing carries reachability over;
* `Machine.withHistory` — the machine with a *history variable*, a value that every step updates
  and no step reads; `Reach.erase` and `Reach.record` say that it does not change what is reachable;
* `InPlace` — in a history that is a list of events, every event is in place after those before it.
-/

namespace DistRes.Lib

/-- A machine: its initial states, and the state that an action leads to (`none` where the action
is not enabled). -/
structure Machine (σ α : Type*) where
  init : σ → Prop
  step : σ → α → Option σ

namespace Machine

variable {σ α τ β γ : Type*} (M : Machine σ α)

/-- The state after the given actions, if each of them is enabled in its turn. -/
def run (M : Machine σ α) : σ → List α → Option σ
  | s, [] => some s
  | s, a :: as => (M.step s a).bind fun s' => run M s' as

/-- `run`, refusing a step that does not meet `ok`. -/
def runIf (M : Machine σ α) (ok : σ → α → Prop) [∀ s a, Decidable (ok s a)] : σ → List α → Option σ
  | s, [] => some s
  | s, a :: as => if ok s a then (M.step s a).bind fun s' => runIf M ok s' as else none

/-- The states reached by runs whose every step meets `ok`. -/
inductive Reach (ok : σ → α → Prop) : σ → Prop
  | init {s : σ} : M.init s → Reach ok s
  | step {s s' : σ} {a : α} : Reach ok s → ok s a → M.step s a = some s' → Reach ok s'

/-- The states reached by any run. -/
def Reachable : σ → Prop := M.Reach fun _ _ => True

variable {M}

/-! ## Invariants -/

/-- **The invariant rule.**  What holds initially, and is preserved by every step that meets `ok`
from a state that is itself reachable, holds of every state reached. -/
theorem Reach.invariant {ok : σ → α → Prop} {s : σ} (h : M.Reach ok s) (I : σ → Prop)
    (h0 : ∀ s, M.init s → I s)
    (hstep : ∀ s a s', M.Reach ok s → I s → ok s a → M.step s a = some s' → I s') : I s := by
  induction h with
  | init hi => exact h0 _ hi
  | step hr hok hs ih => exact hstep _ _ _ hr ih hok hs

/-- The invariant rule for runs without a condition. -/
theorem Reachable.invariant {s : σ} (h : M.Reachable s) (I : σ → Prop) (h0 : ∀ s, M.init s → I s)
    (hstep : ∀ s a s', M.Reachable s → I s → M.step s a = some s' → I s') : I s :=
  Reach.invariant h I h0 fun s a s' hr hi _ hs => hstep s a s' hr hi hs

theorem Reach.mono {ok ok' : σ → α → Prop} (hok : ∀ s a, ok s a → ok' s a) {s : σ}
    (h : M.Reach ok s) : M.Reach ok' s := by
  induction h with
  | init hi => exact .init hi
  | step _ h1 h2 ih => exact .step ih (hok _ _ h1) h2

theorem Reach.reachable {ok : σ → α → Prop} {s : σ} (h : M.Reach ok s) : M.Reachable s :=
  h.mono fun _ _ _ => trivial

theorem Reachable.step {s s' : σ} {a : α} (h : M.Reachable s) (hs : M.step s a = some s') :
    M.Reachable s' :=
  Reach.step h trivial hs

/-! ## Runs from a given state -/

/-- The machine that starts in the given state: its runs are what `M` does from there on. -/
def startingAt (M : Machine σ α) (s : σ) : Machine σ α where
  init := (· = s)
  step := M.step

theorem Reach.trans {ok : σ → α → Prop} {s s' : σ} (h : M.Reach ok s)
    (h' : (M.startingAt s).Reach ok s') : M.Reach ok s' := by
  induction h' with
  | init hi =>
    have hi : _ = s := hi
    exact hi ▸ h
  | step _ hok hs ih => exact ih.step hok hs

theorem Reachable.trans {ok : σ → α → Prop} {s s' : σ} (h : M.Reachable s)
    (h' : (M.startingAt s).Reach ok s') : M.Reachable s' := by
  induction h' with
  | init hi =>
    have hi : _ = s := hi
    exact hi ▸ h
  | step _ _ hs ih => exact ih.step hs

/-! ## Progress -/

/-- **The progress rule.**  If from every state of `I` some step reaches the goal, or a state of `I` of
lower rank, then some run reaches the goal. -/
theorem Reach.leads {ok : σ → α → Prop} (I goal : σ → Prop) (rank : σ → ℕ)
    (hstep : ∀ s, M.Reach ok s → I s →
      ∃ a s', ok s a ∧ M.step s a = some s' ∧ (goal s' ∨ I s' ∧ rank s' < rank s))
    {s : σ} (h : M.Reach ok s) (hI : I s) : ∃ s', M.Reach ok s' ∧ goal s' := by
  induction hn : rank s using Nat.strongRecOn generalizing s with
  | ind n ih =>
    obtain ⟨a, s', hok, hs, hgoal | ⟨hI', hlt⟩⟩ := hstep s h hI
    · exact ⟨s', h.step hok hs, hgoal⟩
    · exact ih (rank s') (hn ▸ hlt) (h.step hok hs) hI' rfl

/-! ## Runs on concrete actions -/

theorem Reach.runIf {ok : σ → α → Prop} [∀ s a, Decidable (ok s a)] {as : List α} {s s' : σ}
    (h : M.Reach ok s) (hr : M.runIf ok s as = some s') : M.Reach ok s' := by
  induction as generalizing s with
  | nil =>
    simp only [Machine.runIf, Option.some.injEq] at hr
    exact hr ▸ h
  | cons a as ih =>
    simp only [Machine.runIf] at hr
    split at hr
    · rename_i hok
      obtain ⟨t, ht, hr⟩ := Option.bind_eq_some_iff.1 hr
      exact ih (h.step hok ht) hr
    · cases hr

theorem Reachable.run {as : List α} {s s' : σ} (h : M.Reachable s) (hr : M.run s as = some s') :
    M.Reachable s' := by
  induction as generalizing s with
  | nil =>
    simp only [Machine.run, Option.some.injEq] at hr
    exact hr ▸ h
  | cons a as ih =>
    obtain ⟨t, ht, hr⟩ := Option.bind_eq_some_iff.1 hr
    exact ih (h.step ht) hr

/-! ## Simulation -/

/-- **The simulation rule.**  If every step of `M` maps under `f` to a step of `N`, or to no change,
then `f` maps reachable states to reachable states. -/
theorem Reach.map {N : Machine τ β} {ok : σ → α → Prop} {ok' : τ → β → Prop} (f : σ → τ)
    (hinit : ∀ s, M.init s → N.init (f s))
    (hstep : ∀ s a s', M.Reach ok s → ok s a → M.step s a = some s' →
      f s' = f s ∨ ∃ b, ok' (f s) b ∧ N.step (f s) b = some (f s'))
    {s : σ} (h : M.Reach ok s) : N.Reach ok' (f s) := by
  induction h with
  | init hi => exact .init (hinit _ hi)
  | step hr hok hs ih =>
    rcases hstep _ _ _ hr hok hs with he | ⟨b, hb, hN⟩
    · rw [he]; exact ih
    · exact .step ih hb hN

/-! ## History variables -/

/-- `M` with a history variable that starts at `g₀` and that `upd` updates at every step. -/
def withHistory (M : Machine σ α) (g₀ : γ) (upd : γ → σ → α → σ → γ) : Machine (σ × γ) α where
  init p := M.init p.1 ∧ p.2 = g₀
  step p a := (M.step p.1 a).map fun s' => (s', upd p.2 p.1 a s')

variable {g₀ : γ} {upd : γ → σ → α → σ → γ}

theorem withHistory_step {p q : σ × γ} {a : α} :
    (M.withHistory g₀ upd).step p a = some q ↔
      M.step p.1 a = some q.1 ∧ q.2 = upd p.2 p.1 a q.1 := by
  simp only [withHistory, Option.map_eq_some_iff]
  constructor
  · rintro ⟨s', hs, rfl⟩
    exact ⟨hs, rfl⟩
  · rintro ⟨hs, hq⟩
    exact ⟨q.1, hs, by rw [← hq]⟩

/-- Forgetting the history variable. -/
theorem Reach.erase {ok : σ → α → Prop} {p : σ × γ}
    (h : (M.withHistory g₀ upd).Reach (fun p => ok p.1) p) : M.Reach ok p.1 := by
  induction h with
  | init hi => exact .init hi.1
  | step _ hok hs ih => exact .step ih hok (withHistory_step.1 hs).1

/-- Every run can be recorded. -/
theorem Reach.record {ok : σ → α → Prop} {s : σ} (h : M.Reach ok s) :
    ∃ g, (M.withHistory g₀ upd).Reach (fun p => ok p.1) (s, g) := by
  induction h with
  | init hi => exact ⟨g₀, .init ⟨hi, rfl⟩⟩
  | @step s s' a _ hok hs ih =>
    obtain ⟨g, hg⟩ := ih
    exact ⟨upd g s a s', .step hg hok (withHistory_step.2 ⟨hs, rfl⟩)⟩

end Machine

/-! ## Histories that are lists of events -/

section InPlace

variable {ε : Type*} {P : List ε → ε → Prop} {log : List ε}

/-- Every event stands as `P` asks after the events before it. -/
def InPlace (P : List ε → ε → Prop) (log : List ε) : Prop :=
  ∀ before e after, log = before ++ e :: after → P before e

theorem InPlace.mono (h : InPlace P log) {Q : List ε → ε → Prop}
    (hPQ : ∀ before e, P before e → Q before e) : InPlace Q log :=
  fun before e after hlog => hPQ before e (h before e after hlog)

theorem InPlace.of_append {rest : List ε} (h : InPlace P (log ++ rest)) : InPlace P log :=
  fun before e after hlog => h before e (after ++ rest) (by simp [hlog])

theorem inPlace_nil : InPlace P [] := by
  intro before e after h
  cases before <;> cases h

theorem InPlace.concat (h : InPlace P log) {e : ε} (he : P log e) : InPlace P (log ++ [e]) := by
  intro before d after hlog
  rcases List.eq_nil_or_concat after with rfl | ⟨after, x, rfl⟩
  · obtain ⟨rfl, hd⟩ := List.append_inj' hlog rfl
    cases hd
    exact he
  · rw [List.concat_eq_append, ← List.cons_append, ← List.append_assoc] at hlog
    exact h before d after (List.append_inj' hlog rfl).1

/-- At most one more event. -/
theorem InPlace.append_toList (h : InPlace P log) {e : Option ε} (he : ∀ d ∈ e, P log d) :
    InPlace P (log ++ e.toList) := by
  cases e with
  | none => rwa [Option.toList_none, List.append_nil]
  | some d => exact h.concat (he d rfl)

end InPlace

end DistRes.Lib
