import Mathlib.Data.List.Nodup
import DistRes.Lib.Pool

/-!
# The atomic append-only log

Threads call operations on one log: *look* at it, or *append* an entry to it.  Every call takes
effect in one step: a look sees the whole log, an append adds its entry at the end, and either may
be refused, which shows the current length only, or fail.  A `LogSpec` says how entries are made
and what each way to end gives the caller.

A *history* is what callers observe, in the order in which it happens: calls, commits, returns.  The
`n`-th call of the thread `t` is called `(t, n)`.

* `LogHistory` — what holds of the histories of an atomic log: every call appends at most once, every
  outcome is justified by the log at one moment, and versions (log lengths) respect real time;
* `logHistory_of_reachable` — it holds of every run.
-/

namespace DistRes.Lib

/-- An operation on a log: look at it, or append an entry made from `w`. -/
inductive LogOp (W : Type*)
  | look
  | append (w : W)

/-- How the entries and the outcomes of a log are made, and the version that an outcome carries. -/
structure LogSpec (W S R O E : Type*) where
  entry : W → S → R
  seen : List R → O
  appended : ℕ → O
  refused : LogOp W → ℕ → O
  failed : E → O
  version : O → Option ℕ
  version_seen : ∀ l, version (seen l) = some l.length
  version_appended : ∀ n, version (appended n) = some n
  version_refused : ∀ op n, version (refused op n) = some n
  version_failed : ∀ e, version (failed e) = none

/-! ## Histories -/

/-- What is observed of a run. -/
inductive LogEvent (T W R O : Type*)
  | called (c : T × ℕ) (op : LogOp W)
  | committed (c : T × ℕ) (r : R)
  | returned (c : T × ℕ) (o : O)

section Histories

variable {T W R O : Type*}

/-- The calls that have committed, each with its entry, in the order of the log. -/
def commits (h : List (LogEvent T W R O)) : List ((T × ℕ) × R) :=
  h.filterMap fun e => match e with
    | .committed c r => some (c, r)
    | _ => none

/-- The entries of the log. -/
def entries (h : List (LogEvent T W R O)) : List R := (commits h).map Prod.snd

/-- The calls that have committed. -/
def committers (h : List (LogEvent T W R O)) : List (T × ℕ) := (commits h).map Prod.fst

variable (h : List (LogEvent T W R O)) (c : T × ℕ) (t : T)

@[simp] theorem commits_nil : commits ([] : List (LogEvent T W R O)) = [] := rfl

@[simp] theorem commits_called (op : LogOp W) : commits (h ++ [.called c op]) = commits h := by
  simp [commits, List.filterMap_append]

@[simp] theorem commits_committed (r : R) :
    commits (h ++ [.committed c r]) = commits h ++ [(c, r)] := by
  simp [commits, List.filterMap_append]

@[simp] theorem commits_returned (o : O) : commits (h ++ [.returned c o]) = commits h := by
  simp [commits, List.filterMap_append]

variable [DecidableEq T]

/-- The number of calls of a thread so far. -/
def callNo (h : List (LogEvent T W R O)) (t : T) : ℕ :=
  h.countP fun e => match e with
    | .called c _ => c.1 = t
    | _ => false

/-- The latest call of a thread. -/
def latest (h : List (LogEvent T W R O)) (t : T) : T × ℕ := (t, callNo h t)

@[simp] theorem callNo_nil : callNo ([] : List (LogEvent T W R O)) t = 0 := rfl

@[simp] theorem callNo_called (op : LogOp W) :
    callNo (h ++ [.called c op]) t = callNo h t + if c.1 = t then 1 else 0 := by
  simp [callNo, List.countP_append, List.countP_cons]

@[simp] theorem callNo_committed (r : R) : callNo (h ++ [.committed c r]) t = callNo h t := by
  simp [callNo, List.countP_append]

@[simp] theorem callNo_returned (o : O) : callNo (h ++ [.returned c o]) t = callNo h t := by
  simp [callNo, List.countP_append]

end Histories

/-! ## The machine -/

/-- What a thread is doing. -/
inductive LogCall (W O : Type*)
  | idle
  | pending (op : LogOp W)
  | finished (o : O)

/-- What a thread can do. -/
inductive LogAct (W S E : Type*)
  | call (op : LogOp W)
  | commit (s : S)
  | look
  | refuse
  | fail (e : E)
  | ret

section Machine

variable {T W S R O E : Type*} [DecidableEq T] (spec : LogSpec W S R O E)

/-- A step of a thread. -/
def logStep (_ : T) (log : List R) : LogCall W O → LogAct W S E → Option (List R × LogCall W O)
  | .idle, .call op => some (log, .pending op)
  | .pending (.append w), .commit s =>
    some (log ++ [spec.entry w s], .finished (spec.appended (log.length + 1)))
  | .pending .look, .look => some (log, .finished (spec.seen log))
  | .pending op, .refuse => some (log, .finished (spec.refused op log.length))
  | .pending _, .fail e => some (log, .finished (spec.failed e))
  | .finished _, .ret => some (log, .idle)
  | _, _ => none

omit [DecidableEq T] in
theorem logStep_refuse (t : T) (log : List R) (op : LogOp W) :
    logStep spec t log (.pending op) (.refuse : LogAct W S E) =
      some (log, .finished (spec.refused op log.length)) := by
  cases op <;> rfl

omit [DecidableEq T] in
theorem logStep_fail (t : T) (log : List R) (op : LogOp W) (e : E) :
    logStep spec t log (.pending op) (.fail e) = some (log, .finished (spec.failed e)) := by
  cases op <;> rfl

/-- Threads over one log. -/
def logPool (T : Type*) : Pool T (List R) (LogCall W O) (LogAct W S E) where
  init log := log = []
  start := .idle
  step := logStep spec

/-- The events of a step. -/
def logEvents (h : List (LogEvent T W R O)) (s : Pool.State T (List R) (LogCall W O))
    (a : T × LogAct W S E) : List (LogEvent T W R O) :=
  match a.2, s.thread a.1 with
  | .call op, _ => [.called (a.1, callNo h a.1 + 1) op]
  | .commit x, .pending (.append w) => [.committed (latest h a.1) (spec.entry w x)]
  | .ret, .finished o => [.returned (latest h a.1) o]
  | _, _ => []

/-- The atomic log, with its history. -/
def logMachine (T : Type*) [DecidableEq T] :
    Machine (Pool.State T (List R) (LogCall W O) × List (LogEvent T W R O)) (T × LogAct W S E) :=
  (logPool spec T).machine.withHistory [] fun h s a _ => h ++ logEvents spec h s a

end Machine

/-! ## What holds of the histories -/

section Spec

variable {T W S R O E : Type*} [DecidableEq T] (spec : LogSpec W S R O E)

/-- The outcome `o` of the call `c` of `op` is one that the log gives. -/
inductive Justified (h : List (LogEvent T W R O)) (c : T × ℕ) : LogOp W → O → Prop
  | appended {i : ℕ} {w : W} {s : S} : (commits h)[i]? = some (c, spec.entry w s) →
      Justified h c (.append w) (spec.appended (i + 1))
  | seen {k : ℕ} : k ≤ (commits h).length → c ∉ committers h →
      Justified h c .look (spec.seen ((entries h).take k))
  | refused {op : LogOp W} {k : ℕ} : c ∉ committers h → Justified h c op (spec.refused op k)
  | failed {op : LogOp W} {e : E} : c ∉ committers h → Justified h c op (spec.failed e)

/-- The outcome `o` of the call `c` carries no smaller version than the calls that returned before
`c` began. -/
def Later (h : List (LogEvent T W R O)) (c : T × ℕ) (o : O) : Prop :=
  ∀ h₁ h₂ op c' o' v v', h = h₁ ++ .called c op :: h₂ → .returned c' o' ∈ h₁ →
    spec.version o = some v → spec.version o' = some v' → v' ≤ v

/-- What holds of the histories of an atomic log. -/
structure LogHistory (h : List (LogEvent T W R O)) : Prop where
  calledOnce : ∀ c op op', .called c op ∈ h → .called c op' ∈ h → op = op'
  once : (committers h).Nodup
  justified : ∀ c o, .returned c o ∈ h → ∃ op, .called c op ∈ h ∧ Justified spec h c op o
  later : ∀ c o, .returned c o ∈ h → Later spec h c o

variable {spec} {h : List (LogEvent T W R O)} {c d : T × ℕ} {op : LogOp W} {o : O}

section

omit [DecidableEq T]

theorem Justified.mono_of_commits_eq {h' : List (LogEvent T W R O)} (hc : commits h' = commits h)
    (hj : Justified spec h c op o) : Justified spec h' c op o := by
  have he : entries h' = entries h := by simp [entries, hc]
  have hm : committers h' = committers h := by simp [committers, hc]
  cases hj with
  | appended hi => exact .appended (hc ▸ hi)
  | seen hk hn => exact he ▸ .seen (hc ▸ hk) (hm ▸ hn)
  | refused hn => exact .refused (hm ▸ hn)
  | failed hn => exact .failed (hm ▸ hn)

/-- Another call commits. -/
theorem Justified.mono_committed {r : R} (hd : c ≠ d) (hj : Justified spec h c op o) :
    Justified spec (h ++ [.committed d r]) c op o := by
  have hm : c ∉ committers h → c ∉ committers (h ++ [.committed d r]) := by
    intro hn
    simp only [committers, commits_committed, List.map_append, List.map_cons, List.map_nil,
      List.mem_append, List.mem_singleton, not_or]
    exact ⟨hn, hd⟩
  cases hj with
  | @appended i w s hi =>
    refine .appended (s := s) ?_
    rw [commits_committed, List.getElem?_append_left (List.getElem?_eq_some_iff.1 hi).1]
    exact hi
  | @seen k hk hn =>
    have ht : (entries (h ++ [.committed d r])).take k = (entries h).take k := by
      simp only [entries, commits_committed, List.map_append]
      rw [List.take_append_of_le_length (by simpa using hk)]
    rw [← ht]
    refine .seen ?_ (hm hn)
    rw [commits_committed, List.length_append]
    omega
  | refused hn => exact .refused (hm hn)
  | failed hn => exact .failed (hm hn)

theorem Later.mono {e : LogEvent T W R O} (he : ∀ op, e ≠ .called c op) (hl : Later spec h c o) :
    Later spec (h ++ [e]) c o := by
  intro h₁ h₂ op c' o' v v' heq hm hv hv'
  rcases List.eq_nil_or_concat h₂ with rfl | ⟨h₂, x, rfl⟩
  · obtain ⟨-, hx⟩ := List.append_inj' heq rfl
    simp only [List.cons.injEq, and_true] at hx
    exact absurd hx (he op)
  · rw [List.concat_eq_append, ← List.cons_append, ← List.append_assoc] at heq
    obtain ⟨heq, -⟩ := List.append_inj' heq rfl
    exact hl h₁ h₂ op c' o' v v' heq hm hv hv'

/-- An outcome with the version of a log that is at least as long as every version returned. -/
theorem Later.of_bound {n : ℕ} (hb : ∀ c' o' v', .returned c' o' ∈ h → spec.version o' = some v' → v' ≤ n)
    (ho : ∀ v, spec.version o = some v → n ≤ v) : Later spec h c o := by
  intro h₁ h₂ op c' o' v v' heq hm hv hv'
  have := hb c' o' v' (by rw [heq]; exact List.mem_append_left _ hm) hv'
  have := ho v hv
  omega

end

/-- **The invariant of the atomic log.** -/
structure LogInv (spec : LogSpec W S R O E) (log : List R) (th : T → LogCall W O)
    (h : List (LogEvent T W R O)) : Prop where
  content : log = entries h
  once : (committers h).Nodup
  calledOnce : ∀ c op op', .called c op ∈ h → .called c op' ∈ h → op = op'
  calledFresh : ∀ c op, .called c op ∈ h → c.2 ≤ callNo h c.1
  commitFresh : ∀ c ∈ committers h, c.2 ≤ callNo h c.1
  returnFresh : ∀ c o, .returned c o ∈ h → c.2 ≤ callNo h c.1
  running : ∀ t, th t ≠ .idle → ∀ o, .returned (latest h t) o ∉ h
  pending : ∀ t op, th t = .pending op →
    .called (latest h t) op ∈ h ∧ latest h t ∉ committers h
  finished : ∀ t o, th t = .finished o →
    (∃ op, .called (latest h t) op ∈ h ∧ Justified spec h (latest h t) op o) ∧
      Later spec h (latest h t) o
  bound : ∀ t o v, th t = .finished o → spec.version o = some v → v ≤ log.length
  returned : ∀ c o, .returned c o ∈ h →
    (∃ op, .called c op ∈ h ∧ Justified spec h c op o) ∧ Later spec h c o
  returnedBound : ∀ c o v, .returned c o ∈ h → spec.version o = some v → v ≤ log.length

theorem logInv_init {th : T → LogCall W O} (hth : ∀ t, th t = .idle) : LogInv spec [] th [] := by
  refine ⟨rfl, List.nodup_nil, ?_, ?_, ?_, ?_, ?_, ?_, ?_, ?_, ?_, ?_⟩
  all_goals simp [hth, committers]

section Step

variable {log : List R} {th : T → LogCall W O} {t : T}

theorem LogInv.call (hi : LogInv spec log th h) (ht : th t = .idle) (op : LogOp W) :
    LogInv spec log (Function.update th t (.pending op)) (h ++ [.called (t, callNo h t + 1) op]) := by
  have hcommits := commits_called h (t, callNo h t + 1) op
  have hcm : committers (h ++ [.called (t, callNo h t + 1) op]) = committers h := by
    simp [committers]
  have hmono : ∀ u, callNo h u ≤ callNo (h ++ [.called (t, callNo h t + 1) op]) u := fun u => by
    simp
  have hlatest : ∀ u, u ≠ t → latest (h ++ [.called (t, callNo h t + 1) op]) u = latest h u :=
    fun u hu => by simp [latest, Ne.symm hu]
  have hlatest_t : latest (h ++ [.called (t, callNo h t + 1) op]) t = (t, callNo h t + 1) := by
    simp [latest]
  -- the new call is none that has been called, has committed or has returned
  have hnew : ∀ c : T × ℕ, c.2 ≤ callNo h c.1 → ∀ op', LogEvent.called (t, callNo h t + 1) op ≠
      (.called c op' : LogEvent T W R O) := by
    rintro ⟨u, n⟩ hc op' heq
    obtain ⟨h1, -⟩ := LogEvent.called.inj heq
    cases h1
    simp only at hc
    omega
  refine ⟨?_, ?_, ?_, ?_, ?_, ?_, ?_, ?_, ?_, ?_, ?_, ?_⟩
  · rw [hi.content]; simp [entries]
  · rw [hcm]; exact hi.once
  · intro c op₁ op₂ h1 h2
    rcases List.mem_append.1 h1 with h1 | h1 <;> rcases List.mem_append.1 h2 with h2 | h2
    · exact hi.calledOnce c op₁ op₂ h1 h2
    · exact absurd (List.mem_singleton.1 h2).symm (hnew c (hi.calledFresh c _ h1) _)
    · exact absurd (List.mem_singleton.1 h1).symm (hnew c (hi.calledFresh c _ h2) _)
    · have he := (List.mem_singleton.1 h1).trans (List.mem_singleton.1 h2).symm
      exact (LogEvent.called.inj he).2
  · intro c op' hm
    rcases List.mem_append.1 hm with hm | hm
    · exact le_trans (hi.calledFresh c op' hm) (hmono _)
    · obtain ⟨rfl, -⟩ := LogEvent.called.inj (List.mem_singleton.1 hm)
      simp
  · intro c hm
    rw [hcm] at hm
    exact le_trans (hi.commitFresh c hm) (hmono _)
  · intro c o hm
    exact le_trans (hi.returnFresh c o (by simpa using hm)) (hmono _)
  · intro u hu o hm
    have hm : .returned (latest (h ++ [.called (t, callNo h t + 1) op]) u) o ∈ h := by
      simpa using hm
    by_cases hut : u = t
    · subst hut
      rw [hlatest_t] at hm
      have := hi.returnFresh _ _ hm
      simp only at this
      omega
    · rw [hlatest u hut] at hm
      rw [Function.update_of_ne hut] at hu
      exact hi.running u hu o hm
  · intro u op' hu
    rw [hcm]
    by_cases hut : u = t
    · subst hut
      rw [Function.update_self] at hu
      cases hu
      rw [hlatest_t]
      refine ⟨by simp, fun hm => ?_⟩
      have := hi.commitFresh _ hm
      simp only at this
      omega
    · rw [Function.update_of_ne hut] at hu
      rw [hlatest u hut]
      exact ⟨List.mem_append_left _ (hi.pending u op' hu).1, (hi.pending u op' hu).2⟩
  · intro u o hu
    by_cases hut : u = t
    · subst hut
      rw [Function.update_self] at hu
      cases hu
    · rw [Function.update_of_ne hut] at hu
      rw [hlatest u hut]
      obtain ⟨⟨op', h1, h2⟩, h3⟩ := hi.finished u o hu
      exact ⟨⟨op', List.mem_append_left _ h1, h2.mono_of_commits_eq hcommits⟩,
        h3.mono (hnew _ (hi.calledFresh _ _ h1))⟩
  · intro u o v hu
    by_cases hut : u = t
    · subst hut
      rw [Function.update_self] at hu
      cases hu
    · rw [Function.update_of_ne hut] at hu
      exact hi.bound u o v hu
  · intro c o hm
    obtain ⟨⟨op', h1, h2⟩, h3⟩ := hi.returned c o (by simpa using hm)
    exact ⟨⟨op', List.mem_append_left _ h1, h2.mono_of_commits_eq hcommits⟩,
      h3.mono (hnew _ (hi.calledFresh _ _ h1))⟩
  · intro c o v hm
    exact hi.returnedBound c o v (by simpa using hm)

/-- A pending call takes effect without changing the log. -/
theorem LogInv.finish (hi : LogInv spec log th h) (ht : th t = .pending op)
    (hj : Justified spec h (latest h t) op o)
    (ho : ∀ v, spec.version o = some v → v = log.length) :
    LogInv spec log (Function.update th t (.finished o)) h := by
  obtain ⟨hcall, hcom⟩ := hi.pending t op ht
  refine ⟨hi.content, hi.once, hi.calledOnce, hi.calledFresh, hi.commitFresh, hi.returnFresh,
    ?_, ?_, ?_, ?_, hi.returned, hi.returnedBound⟩
  · intro u hu
    by_cases hut : u = t
    · exact hi.running u (by rw [hut, ht]; simp)
    · rw [Function.update_of_ne hut] at hu
      exact hi.running u hu
  · intro u op' hu
    by_cases hut : u = t
    · subst hut
      rw [Function.update_self] at hu
      cases hu
    · rw [Function.update_of_ne hut] at hu
      exact hi.pending u op' hu
  · intro u o' hu
    by_cases hut : u = t
    · subst hut
      rw [Function.update_self] at hu
      cases hu
      exact ⟨⟨op, hcall, hj⟩, .of_bound hi.returnedBound fun v hv => le_of_eq (ho v hv).symm⟩
    · rw [Function.update_of_ne hut] at hu
      exact hi.finished u o' hu
  · intro u o' v hu hv
    by_cases hut : u = t
    · subst hut
      rw [Function.update_self] at hu
      cases hu
      exact le_of_eq (ho v hv)
    · rw [Function.update_of_ne hut] at hu
      exact hi.bound u o' v hu hv

theorem LogInv.commit {w : W} (hi : LogInv spec log th h) (ht : th t = .pending (.append w)) (x : S) :
    LogInv spec (log ++ [spec.entry w x])
      (Function.update th t (.finished (spec.appended (log.length + 1))))
      (h ++ [.committed (latest h t) (spec.entry w x)]) := by
  obtain ⟨hcall, hcom⟩ := hi.pending t _ ht
  have hrun := hi.running t (by rw [ht]; simp)
  have hcommits := commits_committed h (latest h t) (spec.entry w x)
  have hcm : committers (h ++ [.committed (latest h t) (spec.entry w x)]) =
      committers h ++ [latest h t] := by simp [committers]
  have hno : ∀ u, callNo (h ++ [.committed (latest h t) (spec.entry w x)]) u = callNo h u := by simp
  have hlatest : ∀ u, latest (h ++ [.committed (latest h t) (spec.entry w x)]) u = latest h u := by
    simp [latest]
  have hlen : (commits h).length = log.length := by rw [hi.content, entries, List.length_map]
  have hlater : ∀ c o, Later spec h c o →
      Later spec (h ++ [.committed (latest h t) (spec.entry w x)]) c o :=
    fun c o hl => hl.mono (by simp)
  refine ⟨?_, ?_, ?_, ?_, ?_, ?_, ?_, ?_, ?_, ?_, ?_, ?_⟩
  · rw [hi.content]; simp [entries]
  · rw [hcm, List.nodup_append]
    refine ⟨hi.once, by simp, fun a ha b hb hab => ?_⟩
    rw [List.mem_singleton.1 hb] at hab
    exact hcom (hab ▸ ha)
  · intro c op₁ op₂ h1 h2
    exact hi.calledOnce c op₁ op₂ (by simpa using h1) (by simpa using h2)
  · intro c op' hm
    rw [hno]
    exact hi.calledFresh c op' (by simpa using hm)
  · intro c hm
    rw [hno]
    rw [hcm] at hm
    rcases List.mem_append.1 hm with hm | hm
    · exact hi.commitFresh c hm
    · rw [List.mem_singleton.1 hm]
      exact le_refl _
  · intro c o hm
    rw [hno]
    exact hi.returnFresh c o (by simpa using hm)
  · intro u hu o hm
    rw [hlatest] at hm
    have hm : .returned (latest h u) o ∈ h := by simpa using hm
    by_cases hut : u = t
    · exact hrun o (hut ▸ hm)
    · rw [Function.update_of_ne hut] at hu
      exact hi.running u hu o hm
  · intro u op' hu
    by_cases hut : u = t
    · subst hut
      rw [Function.update_self] at hu
      cases hu
    · rw [Function.update_of_ne hut] at hu
      obtain ⟨h1, h2⟩ := hi.pending u op' hu
      rw [hlatest, hcm]
      refine ⟨List.mem_append_left _ h1, fun hm => ?_⟩
      rcases List.mem_append.1 hm with hm | hm
      · exact h2 hm
      · exact hut (congrArg Prod.fst (List.mem_singleton.1 hm))
  · intro u o hu
    rw [hlatest]
    by_cases hut : u = t
    · subst hut
      rw [Function.update_self] at hu
      cases hu
      refine ⟨⟨_, List.mem_append_left _ hcall, ?_⟩, hlater _ _ (.of_bound hi.returnedBound ?_)⟩
      · refine .appended (s := x) ?_
        rw [hcommits, ← hlen]
        simp
      · intro v hv
        rw [spec.version_appended] at hv
        cases hv
        omega
    · rw [Function.update_of_ne hut] at hu
      obtain ⟨⟨op', h1, h2⟩, h3⟩ := hi.finished u o hu
      exact ⟨⟨op', List.mem_append_left _ h1,
        h2.mono_committed fun he => hut (congrArg Prod.fst he)⟩, hlater _ _ h3⟩
  · intro u o v hu hv
    rw [List.length_append, List.length_singleton]
    by_cases hut : u = t
    · subst hut
      rw [Function.update_self] at hu
      cases hu
      rw [spec.version_appended] at hv
      cases hv
      exact le_refl _
    · rw [Function.update_of_ne hut] at hu
      exact le_trans (hi.bound u o v hu hv) (Nat.le_succ _)
  · intro c o hm
    have hm : .returned c o ∈ h := by simpa using hm
    obtain ⟨⟨op', h1, h2⟩, h3⟩ := hi.returned c o hm
    exact ⟨⟨op', List.mem_append_left _ h1, h2.mono_committed fun he => hrun o (he ▸ hm)⟩,
      hlater _ _ h3⟩
  · intro c o v hm hv
    rw [List.length_append, List.length_singleton]
    exact le_trans (hi.returnedBound c o v (by simpa using hm) hv) (Nat.le_succ _)

theorem LogInv.ret (hi : LogInv spec log th h) (ht : th t = .finished o) :
    LogInv spec log (Function.update th t .idle) (h ++ [.returned (latest h t) o]) := by
  obtain ⟨⟨op, hcall, hj⟩, hl⟩ := hi.finished t o ht
  have hcommits := commits_returned h (latest h t) o
  have hcm : committers (h ++ [.returned (latest h t) o]) = committers h := by simp [committers]
  have hno : ∀ u, callNo (h ++ [.returned (latest h t) o]) u = callNo h u := by simp
  have hlatest : ∀ u, latest (h ++ [.returned (latest h t) o]) u = latest h u := by simp [latest]
  have hlater : ∀ c o', Later spec h c o' →
      Later spec (h ++ [.returned (latest h t) o]) c o' := fun c o' hl => hl.mono (by simp)
  have other : ∀ u (l : LogCall W O), l ≠ .idle → Function.update th t .idle u = l →
      u ≠ t ∧ th u = l := by
    intro u l hne hu
    by_cases hut : u = t
    · subst hut
      rw [Function.update_self] at hu
      exact absurd hu.symm hne
    · exact ⟨hut, by rwa [Function.update_of_ne hut] at hu⟩
  refine ⟨?_, ?_, ?_, ?_, ?_, ?_, ?_, ?_, ?_, ?_, ?_, ?_⟩
  · rw [hi.content]; simp [entries]
  · rw [hcm]; exact hi.once
  · intro c op₁ op₂ h1 h2
    exact hi.calledOnce c op₁ op₂ (by simpa using h1) (by simpa using h2)
  · intro c op' hm
    rw [hno]
    exact hi.calledFresh c op' (by simpa using hm)
  · intro c hm
    rw [hno]
    exact hi.commitFresh c (hcm ▸ hm)
  · intro c o' hm
    rw [hno]
    rcases List.mem_append.1 hm with hm | hm
    · exact hi.returnFresh c o' hm
    · obtain ⟨rfl, -⟩ := LogEvent.returned.inj (List.mem_singleton.1 hm)
      exact le_refl _
  · intro u hu o' hm
    obtain ⟨hut, hu⟩ := other u _ hu rfl
    rw [hlatest] at hm
    rcases List.mem_append.1 hm with hm | hm
    · exact hi.running u (by rw [hu]; assumption) o' hm
    · obtain ⟨he, -⟩ := LogEvent.returned.inj (List.mem_singleton.1 hm)
      exact hut (congrArg Prod.fst he)
  · intro u op' hu
    obtain ⟨hut, hu⟩ := other u _ (by simp) hu
    rw [hlatest, hcm]
    exact ⟨List.mem_append_left _ (hi.pending u op' hu).1, (hi.pending u op' hu).2⟩
  · intro u o' hu
    obtain ⟨hut, hu⟩ := other u _ (by simp) hu
    rw [hlatest]
    obtain ⟨⟨op', h1, h2⟩, h3⟩ := hi.finished u o' hu
    exact ⟨⟨op', List.mem_append_left _ h1, h2.mono_of_commits_eq hcommits⟩, hlater _ _ h3⟩
  · intro u o' v hu
    obtain ⟨hut, hu⟩ := other u _ (by simp) hu
    exact hi.bound u o' v hu
  · intro c o' hm
    rcases List.mem_append.1 hm with hm | hm
    · obtain ⟨⟨op', h1, h2⟩, h3⟩ := hi.returned c o' hm
      exact ⟨⟨op', List.mem_append_left _ h1, h2.mono_of_commits_eq hcommits⟩, hlater _ _ h3⟩
    · obtain ⟨rfl, rfl⟩ := LogEvent.returned.inj (List.mem_singleton.1 hm)
      exact ⟨⟨op, List.mem_append_left _ hcall, hj.mono_of_commits_eq hcommits⟩, hlater _ _ hl⟩
  · intro c o' v hm hv
    rcases List.mem_append.1 hm with hm | hm
    · exact hi.returnedBound c o' v hm hv
    · obtain ⟨rfl, rfl⟩ := LogEvent.returned.inj (List.mem_singleton.1 hm)
      exact hi.bound t o' v ht hv

end Step

theorem logInv_of_reachable
    {p : Pool.State T (List R) (LogCall W O) × List (LogEvent T W R O)}
    (hr : (logMachine spec T).Reachable p) : LogInv spec p.1.shared p.1.thread p.2 := by
  refine hr.invariant (fun p => LogInv spec p.1.shared p.1.thread p.2) ?_ ?_
  · rintro ⟨s, h⟩ ⟨⟨h0, hth⟩, hh⟩
    simp only at h0 hth hh ⊢
    rw [show s.shared = [] from h0, hh]
    exact logInv_init hth
  · rintro ⟨s, h⟩ ⟨t, a⟩ ⟨s', h'⟩ - ih hs
    obtain ⟨hs, hh⟩ := Machine.withHistory_step.1 hs
    obtain ⟨log, l, hstep, rfl⟩ := Pool.machine_step.1 hs
    simp only at hh ih hstep
    subst hh
    simp only [logEvents]
    have hstep : logStep spec t s.shared (s.thread t) a = some (log, l) := hstep
    generalize hl : s.thread t = l₀ at hstep
    cases l₀ with
    | idle =>
      cases a <;> simp only [logStep, reduceCtorEq, Option.some.injEq, Prod.mk.injEq] at hstep
      obtain ⟨rfl, rfl⟩ := hstep
      exact ih.call hl _
    | pending op =>
      have hcom := (ih.pending t op hl).2
      have hlen : (commits h).length = s.shared.length := by
        rw [ih.content, entries, List.length_map]
      cases a with
      | commit x =>
        cases op <;> simp only [logStep, reduceCtorEq, Option.some.injEq, Prod.mk.injEq] at hstep
        obtain ⟨rfl, rfl⟩ := hstep
        exact ih.commit hl x
      | look =>
        cases op <;> simp only [logStep, reduceCtorEq, Option.some.injEq, Prod.mk.injEq] at hstep
        obtain ⟨rfl, rfl⟩ := hstep
        have hall : s.shared = (entries h).take (commits h).length := by
          rw [List.take_of_length_le (by simp [entries]), ← ih.content]
        simp only [List.append_nil]
        refine ih.finish hl (hall ▸ .seen (le_refl _) hcom) fun v hv => ?_
        rw [spec.version_seen] at hv
        exact (Option.some.inj hv).symm
      | refuse =>
        rw [logStep_refuse, Option.some.injEq, Prod.mk.injEq] at hstep
        obtain ⟨rfl, rfl⟩ := hstep
        simp only [List.append_nil]
        refine ih.finish hl (.refused hcom) fun v hv => ?_
        rw [spec.version_refused] at hv
        exact (Option.some.inj hv).symm
      | fail e =>
        rw [logStep_fail, Option.some.injEq, Prod.mk.injEq] at hstep
        obtain ⟨rfl, rfl⟩ := hstep
        simp only [List.append_nil]
        refine ih.finish hl (.failed hcom) fun v hv => ?_
        rw [spec.version_failed] at hv
        cases hv
      | call op' => cases op <;> cases hstep
      | ret => cases op <;> cases hstep
    | finished o =>
      cases a <;> simp only [logStep, reduceCtorEq, Option.some.injEq, Prod.mk.injEq] at hstep
      obtain ⟨rfl, rfl⟩ := hstep
      exact ih.ret hl

/-- **The histories of an atomic log.** -/
theorem logHistory_of_reachable
    {p : Pool.State T (List R) (LogCall W O) × List (LogEvent T W R O)}
    (hr : (logMachine spec T).Reachable p) : LogHistory spec p.2 := by
  have hi := logInv_of_reachable hr
  exact ⟨hi.calledOnce, hi.once, fun c o hm => (hi.returned c o hm).1,
    fun c o hm => (hi.returned c o hm).2⟩

end Spec

end DistRes.Lib
