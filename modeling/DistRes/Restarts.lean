import DistRes.LogRefinement

/-!
# Server runs over one file

The file outlives a run of the server, the version stamp does not.

* `serverRuns` — the data layer with restarts, each of which keeps the file and nothing else;
* `StampInv` — the file as of the last commit is what the current version stands for;
* `version_identifies_content` — two reads that carry the same version carry the same content, as
  long as no restart follows a change of a file that has been read.
-/

namespace DistRes

open Lib

/-! ## Runs of the server -/

/-- `_init_file`: the bytes of the file at the start of a run; `none` where there is no file. -/
def initFile : Option Bytes → Bytes
  | some file => file
  | none => utf8 (lit "Product Specification Document\n" ++ lit "==============================\n")

section Runs

variable {T : Type} [DecidableEq T]

/-- `DataLayer.__init__`, and no thread in a call. -/
def dataStart (disk : Option Bytes) : Pool.State T (DataLayer T) Call :=
  ⟨{ file := initFile disk }, fun _ => .idle⟩

/-- What happens in the runs of the server. -/
inductive RunAct (T : Type)
  | step (t : T) (a : CallAct)
  /-- the run ends, wherever its threads are, and the next one starts -/
  | restart

/-- Any number of server runs, of which the first finds the file `disk`. -/
def serverRuns (T : Type) [DecidableEq T] (disk : Option Bytes) :
    Machine (Pool.State T (DataLayer T) Call) (RunAct T) where
  init s := s = dataStart disk
  step s
    | .step t a => (dataMachine T (initFile disk)).step s (t, a)
    | .restart => some (dataStart (some s.shared.file))

/-- The file that the current run has found, and the results of all successful reads so far. -/
structure RunHistory where
  start : Bytes
  reads : List Result := []

/-- The result that a step of `read_resource` comes to. -/
def readResult (d : DataLayer T) : Call → CallAct → List Result
  | .read (.stamp content), .step .go => [⟨true, content, d.version⟩]
  | _, _ => []

def RunHistory.next (h : RunHistory) (s : Pool.State T (DataLayer T) Call) : RunAct T → RunHistory
  | .step t a => { h with reads := h.reads ++ readResult s.shared (s.thread t) a }
  | .restart => { h with start := s.shared.file }

/-- The runs of the server with the results of their reads. -/
def recordedRuns (T : Type) [DecidableEq T] (disk : Option Bytes) :=
  (serverRuns T disk).withHistory (RunHistory.mk (initFile disk) []) fun h s a _ => h.next s a

/-- An append raises after a part of the record, or all of it, has reached the file. -/
def tears : Call → CallAct → Bool
  | .write _ _ (.append rec rest), .step .fail => rest ≠ utf8 rec
  | .write _ _ (.bump _), .step .fail => true
  | _, _ => false

/-- A version keeps its content: a run that has changed the file ends only if no read has succeeded
yet, and an append is torn only if no read has carried the current version. -/
def KeepsStamps (p : Pool.State T (DataLayer T) Call × RunHistory) : RunAct T → Prop
  | .step t a => tears (p.1.thread t) a = true → ∀ r ∈ p.2.reads, r.version ≠ p.1.shared.version
  | .restart => p.2.reads = [] ∨ p.1.shared.file = p.2.start

/-! ## What a version stands for -/

/-- **The invariant of the stamps.**  `committed` is the file as of the last commit of the run. -/
structure StampInv (d : DataLayer T) (th : T → Call) (h : RunHistory) (committed : Bytes) : Prop where
  started : h.start <+: committed
  grown : committed <+: d.file
  version : 0 < d.version → h.start.length < committed.length
  clean : (∀ t, (th t).dirty = false) → committed = d.file
  appending : ∀ t u x rec rest, th t = .write u x (.append rec rest) →
    ∃ pre, d.file = committed ++ pre ∧ pre ++ rest = utf8 rec ∧ utf8 rec ≠ []
  bumping : ∀ t u x rec, th t = .write u x (.bump rec) → committed.length < d.file.length
  stamping : ∀ t content, th t = .read (.stamp content) → readText committed = some content
  bound : ∀ r ∈ h.reads, r.version ≤ d.version
  current : ∀ r ∈ h.reads, r.version = d.version → readText committed = some r.text
  agree : ∀ r ∈ h.reads, ∀ r' ∈ h.reads, r.version = r'.version → r.text = r'.text

variable {d d' : DataLayer T} {th : T → Call} {h : RunHistory} {committed committed' : Bytes} {t : T}
  {c' : Call}

/-- A step of a thread that does not write. -/
theorem StampInv.quiet (hi : StampInv d th h committed) (hf : d'.file = d.file)
    (hv : d'.version = d.version) (hc : (th t).dirty = false) (hc' : c'.dirty = false)
    (hs : ∀ content, c' = .read (.stamp content) → readText committed = some content) :
    StampInv d' (Function.update th t c') h committed := by
  have hdirty : ∀ u, (Function.update th t c' u).dirty = (th u).dirty := fun u => by
    by_cases hu : u = t
    · rw [hu, Function.update_self, hc, hc']
    · rw [Function.update_of_ne hu]
  have hsame : ∀ u c, c.dirty = true → Function.update th t c' u = c → th u = c := by
    intro u c hd hu
    by_cases hut : u = t
    · rw [hut, Function.update_self] at hu
      rw [← hu, hc'] at hd
      cases hd
    · rwa [Function.update_of_ne hut] at hu
  refine ⟨hi.started, hf ▸ hi.grown, fun h0 => hi.version (hv ▸ h0), fun hall => ?_, ?_, ?_, ?_,
    fun r hr => hv ▸ hi.bound r hr, fun r hr he => hi.current r hr (hv ▸ he), hi.agree⟩
  · rw [hf]
    exact hi.clean fun u => (hdirty u).symm.trans (hall u)
  · intro u v x rec rest hu
    rw [hf]
    exact hi.appending u v x rec rest (hsame u _ rfl hu)
  · intro u v x rec hu
    rw [hf]
    exact hi.bumping u v x rec (hsame u _ rfl hu)
  · intro u content hu
    by_cases hut : u = t
    · rw [hut, Function.update_self] at hu
      exact hs content hu
    · rw [Function.update_of_ne hut] at hu
      exact hi.stamping u content hu

omit [DecidableEq T] in
/-- A read succeeds. -/
theorem StampInv.read (hi : StampInv d th h committed) {content : Text}
    (hc : readText committed = some content) :
    StampInv d th { h with reads := h.reads ++ [⟨true, content, d.version⟩] } committed := by
  have hmem : ∀ r ∈ h.reads ++ [⟨true, content, d.version⟩], r ∈ h.reads ∨
      r.version = d.version ∧ r.text = content := by
    intro r hr
    rcases List.mem_append.1 hr with hr | hr
    · exact .inl hr
    · rw [List.mem_singleton.1 hr]
      exact .inr ⟨rfl, rfl⟩
  -- a read of the current version has the content of the file as of the last commit
  have hcur : ∀ r ∈ h.reads, r.version = d.version → r.text = content := fun r hr hv =>
    Option.some.inj ((hi.current r hr hv).symm.trans hc)
  refine { hi with bound := fun r hr => ?_, current := fun r hr hv => ?_, agree := ?_ }
  · rcases hmem r hr with hr | ⟨hr, -⟩
    · exact hi.bound r hr
    · exact le_of_eq hr
  · rcases hmem r hr with hr | ⟨-, ht⟩
    · exact hi.current r hr hv
    · rw [ht, hc]
  · intro r hr r' hr' hv
    rcases hmem r hr with hr | ⟨hrv, hrt⟩ <;> rcases hmem r' hr' with hr' | ⟨hrv', hrt'⟩
    · exact hi.agree r hr r' hr' hv
    · rw [hrt', hcur r hr (hv.trans hrv')]
    · rw [hrt, hcur r' hr' (hv.symm.trans hrv)]
    · rw [hrt, hrt']

/-- A step of a thread that nobody writes or reads beside. -/
theorem StampInv.of_alone (hi : StampInv d th h committed)
    (hothers : ∀ u, u ≠ t → (th u).dirty = false ∧ (th u).stamping = false)
    (hcom : committed <+: committed') (hgrown : committed' <+: d'.file)
    (hversion : 0 < d'.version → h.start.length < committed'.length)
    (hclean : c'.dirty = false → committed' = d'.file)
    (happ : ∀ u x rec rest, c' = .write u x (.append rec rest) →
      ∃ pre, d'.file = committed' ++ pre ∧ pre ++ rest = utf8 rec ∧ utf8 rec ≠ [])
    (hbump : ∀ u x rec, c' = .write u x (.bump rec) → committed'.length < d'.file.length)
    (hs : c'.stamping = false) (hle : d.version ≤ d'.version)
    (hcur : ∀ r ∈ h.reads, r.version = d'.version → readText committed' = some r.text) :
    StampInv d' (Function.update th t c') h committed' := by
  have at_t : ∀ u (c : Call), c.dirty = true ∨ c.stamping = true →
      Function.update th t c' u = c → c' = c := by
    intro u c hc hu
    by_cases hut : u = t
    · rwa [hut, Function.update_self] at hu
    · rw [Function.update_of_ne hut] at hu
      obtain ⟨h1, h2⟩ := hothers u hut
      rw [hu] at h1 h2
      rw [h1, h2] at hc
      simp at hc
  refine ⟨hi.started.trans hcom, hgrown, hversion, fun hall => hclean ?_, ?_, ?_, ?_,
    fun r hr => (hi.bound r hr).trans hle, hcur, hi.agree⟩
  · have := hall t
    rwa [Function.update_self] at this
  · exact fun u v x rec rest hu => happ v x rec rest (at_t u _ (.inl rfl) hu)
  · exact fun u v x rec hu => hbump v x rec (at_t u _ (.inl rfl) hu)
  · intro u content hu
    rw [at_t u _ (.inr rfl) hu] at hs
    cases hs

variable [Fintype T]

theorem StampInv.moves {a : CallAct} (hl : LockInv d.rwLock th) (hi : StampInv d th h committed)
    (hok : tears (th t) a = true → ∀ r ∈ h.reads, r.version ≠ d.version)
    (hs : callStep t d (th t) a = some (d', c')) :
    ∃ committed', StampInv d' (Function.update th t c') h committed' ∧
      ((th t).stamping = true → committed' = committed ∧ d'.version = d.version) := by
  have heff := callStep_effect hs
  generalize hc : th t = c at heff hok
  have hquiet : d'.file = d.file → d'.version = d.version → c.dirty = false → c'.dirty = false →
      c'.stamping = false → ∃ committed', StampInv d' (Function.update th t c') h committed' ∧
        (c.stamping = true → committed' = committed ∧ d'.version = d.version) := by
    intro hf hv h1 h2 h3
    refine ⟨committed, hi.quiet hf hv (hc ▸ h1) h2 fun content he => ?_, fun _ => ⟨rfl, hv⟩⟩
    rw [he] at h3
    cases h3
  -- a reader sees a file that no write is in progress on
  have hclean : c.role = .reader → committed = d.file := fun hr => hi.clean fun u => by
    by_contra hd
    exact (hl.writer_alone (dirty_role (by simpa using hd))).2 (hc ▸ hr)
  have hothers : c.role = .writer → ∀ u, u ≠ t → (th u).dirty = false ∧ (th u).stamping = false :=
    fun hw u hu => hl.others (by rw [hc]; exact hw) hu
  cases heff with
  | silent hf hv _ _ h1 h2 h3 => exact hquiet hf hv h1 h2 h3
  | called op _ h2 h3 => exact hquiet rfl rfl rfl h2 h3
  | @loaded content hr =>
    refine ⟨committed, hi.quiet rfl rfl (by rw [hc]; rfl) rfl fun x hx => ?_, fun h1 => by cases h1⟩
    cases hx
    rw [hclean rfl]
    exact hr
  | unreadable => exact hquiet rfl rfl rfl rfl rfl
  | seen => exact hquiet rfl rfl rfl rfl rfl
  | refused op _ _ h3 h4 h5 => exact hquiet rfl rfl h3 h4 h5
  | raised op e _ _ _ h3 h4 h5 => exact hquiet rfl rfl h3 h4 h5
  | returned _ h2 => exact hquiet rfl rfl h2 rfl rfl
  | opened u x stamp henc =>
    have hfile : committed = d.file := hi.clean fun u => by
      by_cases hut : u = t
      · rw [hut, hc]
        rfl
      · exact (hothers rfl u hut).1
    refine ⟨committed, hi.of_alone (hothers rfl) (List.prefix_refl _) hi.grown hi.version nofun ?_
      (by simp) rfl le_rfl hi.current, fun h1 => by cases h1⟩
    intro v y rec rest he
    cases he
    exact ⟨[], by rw [List.append_nil, hfile], rfl, utf8_record_ne_nil stamp u x⟩
  | @flushed u x rec rest n hn =>
    obtain ⟨pre, hfile, hpre, hne⟩ := hi.appending t u x rec rest hc
    refine ⟨committed, hi.of_alone (hothers rfl) (List.prefix_refl _)
      (hi.grown.trans (List.prefix_append _ _)) hi.version nofun ?_ (by simp) rfl le_rfl hi.current,
      fun h1 => by cases h1⟩
    intro v y rec' rest' he
    cases he
    refine ⟨pre ++ rest.take n, ?_, ?_, hne⟩
    · simp only [hfile, List.append_assoc]
    · rw [List.append_assoc, List.take_append_drop, hpre]
  | closed u x rec rest n ht =>
    obtain ⟨pre, hfile, hpre, hne⟩ := hi.appending t u x rec rest hc
    refine ⟨committed, hi.of_alone (hothers rfl) (List.prefix_refl _)
      (hi.grown.trans (List.prefix_append _ _)) hi.version nofun (by simp) (fun _ _ _ _ => ?_) rfl le_rfl
      hi.current, fun h1 => by cases h1⟩
    simp only [hfile, List.append_assoc, hpre, List.length_append]
    exact Nat.lt_add_of_pos_right (List.length_pos_iff.2 hne)
  | torn u x rec rest =>
    obtain ⟨pre, hfile, hpre, hne⟩ := hi.appending t u x rec rest hc
    refine ⟨d.file, hi.of_alone (hothers rfl) hi.grown (List.prefix_refl _) (fun h0 =>
      (hi.version h0).trans_le hi.grown.length_le) (fun _ => rfl) (by simp) (by simp) rfl le_rfl
      fun r hr hv => ?_, fun h1 => by cases h1⟩
    -- either the file is as it was, or no read has carried the version
    by_cases hrest : rest = utf8 rec
    · have hnil : pre = [] := by
        rw [hrest] at hpre
        simpa using hpre
      rw [hfile, hnil, List.append_nil]
      exact hi.current r hr hv
    · exact absurd hv (hok (by simpa [tears] using hrest) r hr)
  | unclosed u x rec =>
    refine ⟨d.file, hi.of_alone (hothers rfl) hi.grown (List.prefix_refl _) (fun h0 =>
      (hi.version h0).trans_le hi.grown.length_le) (fun _ => rfl) (by simp) (by simp) rfl le_rfl
      fun r hr hv => ?_, fun h1 => by cases h1⟩
    exact absurd hv (hok rfl r hr)
  | bumped u x rec =>
    have hlt := hi.bumping t u x rec hc
    refine ⟨d.file, hi.of_alone (hothers rfl) hi.grown (List.prefix_refl _)
      (fun _ => hi.started.length_le.trans_lt hlt) (fun _ => rfl) (by simp) (by simp) rfl
      (Nat.le_succ _) fun r hr hv => ?_, fun h1 => by cases h1⟩
    have hle := hi.bound r hr
    simp only at hv
    omega

theorem StampInv.step {a : CallAct} (hl : LockInv d.rwLock th) (hi : StampInv d th h committed)
    (hok : tears (th t) a = true → ∀ r ∈ h.reads, r.version ≠ d.version)
    (hs : callStep t d (th t) a = some (d', c')) :
    ∃ committed', StampInv d' (Function.update th t c')
      { h with reads := h.reads ++ readResult d (th t) a } committed' := by
  obtain ⟨committed', hi', hstamp⟩ := hi.moves hl hok hs
  refine ⟨committed', ?_⟩
  unfold readResult
  split
  · rename_i content hc
    obtain ⟨rfl, hv⟩ := hstamp (by rw [hc]; rfl)
    rw [← hv]
    exact hi'.read (hi.stamping t content hc)
  · rw [List.append_nil]
    exact hi'

omit [DecidableEq T] [Fintype T] in
/-- A new run finds the file as it is, and no read has carried a version that it will give. -/
theorem StampInv.restart (hi : StampInv d th h committed)
    (hok : h.reads = [] ∨ d.file = h.start) :
    StampInv ({ file := d.file } : DataLayer T) (fun _ : T => .idle) { h with start := d.file } d.file := by
  have hzero : ∀ r ∈ h.reads, r.version = 0 ∧ readText d.file = some r.text := by
    intro r hr
    rcases hok with hnone | hsame
    · rw [hnone] at hr
      cases hr
    · have hle := hi.grown.length_le
      have hcom : committed = d.file := hi.grown.eq_of_length_le (by
        rw [hsame]
        exact hi.started.length_le)
      have hver : d.version = 0 := by
        by_contra hne
        have := hi.version (Nat.pos_of_ne_zero hne)
        rw [hcom, hsame] at this
        exact lt_irrefl _ this
      have hr0 : r.version = 0 := by
        have := hi.bound r hr
        omega
      exact ⟨hr0, hcom ▸ hi.current r hr (hr0.trans hver.symm)⟩
  refine ⟨List.prefix_refl _, List.prefix_refl _, fun h0 => absurd h0 (lt_irrefl 0), fun _ => rfl,
    nofun, nofun, nofun, fun r hr => le_of_eq (hzero r hr).1, fun r hr _ => (hzero r hr).2, hi.agree⟩

/-- **A version stamp identifies a content** in every history of runs in which a run that has changed
the file ends only before the first successful read, and no append is torn at a version that a read
has carried. -/
theorem version_identifies_content {disk : Option Bytes}
    {p : Pool.State T (DataLayer T) Call × RunHistory}
    (hr : (recordedRuns T disk).Reach KeepsStamps p) :
    ∀ r ∈ p.2.reads, ∀ r' ∈ p.2.reads, r.version = r'.version → r.text = r'.text := by
  have hinv : LockInv p.1.shared.rwLock p.1.thread ∧
      ∃ committed, StampInv p.1.shared p.1.thread p.2 committed := by
    refine hr.invariant (fun p => LockInv p.1.shared.rwLock p.1.thread ∧
      ∃ committed, StampInv p.1.shared p.1.thread p.2 committed) ?_ ?_
    · rintro ⟨s, h⟩ ⟨hs, hh⟩
      have hs : s = dataStart disk := hs
      simp only at hh ⊢
      subst hs hh
      refine ⟨lockInv_init rfl fun _ => rfl, initFile disk, ?_⟩
      exact ⟨List.prefix_refl _, List.prefix_refl _, fun h0 => absurd h0 (lt_irrefl 0), fun _ => rfl,
        nofun, nofun, nofun, nofun, nofun, nofun⟩
    · rintro ⟨s, h⟩ a ⟨s', h'⟩ - ⟨hl, committed, hi⟩ hok hs
      obtain ⟨hrun, hh⟩ := Machine.withHistory_step.1 hs
      simp only at hl hi hrun hh ⊢
      subst hh
      cases a with
      | step t a =>
        obtain ⟨d, c, hstep, rfl⟩ := Pool.machine_step.1 hrun
        exact ⟨hl.step (callStep_moves hstep), hi.step hl hok hstep⟩
      | restart =>
        cases hrun
        exact ⟨lockInv_init rfl fun _ => rfl, s.shared.file, hi.restart hok⟩
  obtain ⟨-, committed, hi⟩ := hinv
  exact hi.agree

/-! ### Histories of runs -/

instance : ∀ (p : Pool.State T (DataLayer T) Call × RunHistory) (a : RunAct T),
    Decidable (KeepsStamps p a)
  | p, .step t a => inferInstanceAs (Decidable (tears (p.1.thread t) a = true →
      ∀ r ∈ p.2.reads, r.version ≠ p.1.shared.version))
  | p, .restart => inferInstanceAs (Decidable (p.2.reads = [] ∨ p.1.shared.file = p.2.start))

/-- The start of a history of runs with one thread each. -/
def firstRun : Pool.State (Fin 1) (DataLayer (Fin 1)) Call × RunHistory :=
  (dataStart (some (utf8 (lit "log"))), ⟨utf8 (lit "log"), []⟩)

/-- A write and a read in each of two runs. -/
def restartedRun (t : T) : List (RunAct T) :=
  let run := (writeReadRun t).map fun a => RunAct.step a.1 a.2
  run ++ .restart :: run

/-- Both reads carry version 1, and the second one has a record more. -/
theorem restartedRun_ambiguous :
    ¬ ∀ p, (recordedRuns (Fin 1) (some (utf8 (lit "log")))).Reachable p →
      ∀ r ∈ p.2.reads, ∀ r' ∈ p.2.reads, r.version = r'.version → r.text = r'.text := by
  intro hall
  have hs : ((recordedRuns (Fin 1) (some (utf8 (lit "log")))).run firstRun (restartedRun 0)).map
      (fun p => p.2.reads.map fun r => (r.version, r.text.length)) = some [(1, 17), (1, 31)] := by
    decide
  obtain ⟨p, hrun, hreads⟩ := Option.map_eq_some_iff.1 hs
  have hr : (recordedRuns (Fin 1) (some (utf8 (lit "log")))).Reachable p :=
    Machine.Reachable.run (s := firstRun) (.init ⟨rfl, rfl⟩) hrun
  have hread : ∀ n, (1, n) ∈ [(1, 17), (1, 31)] → ∃ r ∈ p.2.reads, r.version = 1 ∧ r.text.length = n := by
    intro n hn
    rw [← hreads] at hn
    obtain ⟨r, hmem, he⟩ := List.mem_map.1 hn
    exact ⟨r, hmem, Prod.mk.inj he⟩
  obtain ⟨r, hmem, hv, hlen⟩ := hread 17 (by simp)
  obtain ⟨r', hmem', hv', hlen'⟩ := hread 31 (by simp)
  have := hall p hr r hmem r' hmem' (hv.trans hv'.symm)
  rw [this, hlen'] at hlen
  omega

/-- A read in a first run, and a write and two reads in a second one. -/
def unchangedRun (t : T) : List (RunAct T) :=
  let run := (writeReadRun t).map fun a => RunAct.step a.1 a.2
  run.drop 9 ++ .restart :: run ++ run.drop 9

theorem unchangedRun_unambiguous :
    ∃ p, (recordedRuns (Fin 1) (some (utf8 (lit "log")))).runIf KeepsStamps firstRun
        (unchangedRun 0) = some p ∧
      p.2.reads.map Result.version = [0, 1, 1] ∧
      ∀ r ∈ p.2.reads, ∀ r' ∈ p.2.reads, r.version = r'.version → r.text = r'.text := by
  have hs : ((recordedRuns (Fin 1) (some (utf8 (lit "log")))).runIf KeepsStamps firstRun
      (unchangedRun 0)).map (fun p => p.2.reads.map Result.version) = some [0, 1, 1] := by decide
  obtain ⟨p, hrun, hversions⟩ := Option.map_eq_some_iff.1 hs
  have hr : (recordedRuns (Fin 1) (some (utf8 (lit "log")))).Reach KeepsStamps p :=
    Machine.Reach.runIf (s := firstRun) (.init ⟨rfl, rfl⟩) hrun
  exact ⟨p, hrun, hversions, version_identifies_content hr⟩

end Runs

end DistRes
