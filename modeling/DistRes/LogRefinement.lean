import DistRes.Lib.AtomicLog
import DistRes.LockInvariant

/-!
# The data layer refines an atomic append-only log

The abstract side is `Lib.AtomicLog`: one log of records, on which a read is a look and a write an
append.  A write takes effect when it bumps the version, a read when it evaluates the version in
its `return`, and a call that could not get the lock when it evaluates the version for its error.

* `Effect` is everything that a step does, seen from the file, the version and the log;
* `FileInv` ties the file and the version to the records committed so far;
* `dataLayer_refines` maps every run to a run of the atomic log with the same history.
-/

namespace DistRes

open Lib

/-! ## The abstract log -/

def Result.version? : Outcome → Option ℕ
  | .ok r => some r.version
  | .error _ => none

/-- What a call that could not get the lock returns as its message. -/
def timeoutMessage : LogOp (Text × Text) → Text
  | .look => readTimeout
  | .append _ => writeTimeout

/-- The log of records over the initial text `init`. -/
def recordLog (init : Text) : LogSpec (Text × Text) Text Text Outcome Raised where
  entry w stamp := record stamp w.1 w.2
  seen l := .ok ⟨true, universalNewlines (init ++ l.flatten), l.length⟩
  appended n := .ok ⟨true, writeCommitted, n⟩
  refused op n := .ok ⟨false, timeoutMessage op, n⟩
  failed e := .error e
  version := Result.version?
  version_seen _ := rfl
  version_appended _ := rfl
  version_refused _ _ := rfl
  version_failed _ := rfl

def Op.toLog : Op → LogOp (Text × Text)
  | .read => .look
  | .write u x => .append (u, x)

/-- What a thread is doing, seen from the log. -/
def Call.toLog : Call → LogCall (Text × Text) Outcome
  | .idle => .idle
  | .read (.release o) | .read (.done o) => .finished o
  | .read _ => .pending .look
  | .write _ _ (.release o) | .write _ _ (.done o) => .finished o
  | .write u x _ => .pending (.append (u, x))

/-! ## Histories of the data layer -/

/-- What is observed of a step. -/
inductive Visible
  | silent
  | call (op : Op)
  | commit (rec : Text)
  | ret (o : Outcome)

/-- What is observed when a thread that is at `c` does `a`. -/
def visible : CallAct → Call → Visible
  | .call op, _ => .call op
  | .step .go, .write _ _ (.bump rec) => .commit rec
  | .ret, .read (.done o) => .ret o
  | .ret, .write _ _ (.done o) => .ret o
  | _, _ => .silent

/-- The history of a run, and the calls that have changed the file or the version. -/
structure DataHistory (T : Type) where
  log : List (LogEvent T (Text × Text) Text Outcome) := []
  changed : List (T × ℕ) := []

section History

variable {T : Type} [DecidableEq T]

def dataEvents (h : List (LogEvent T (Text × Text) Text Outcome)) (t : T) :
    Visible → List (LogEvent T (Text × Text) Text Outcome)
  | .silent => []
  | .call op => [.called (t, callNo h t + 1) op.toLog]
  | .commit rec => [.committed (latest h t) rec]
  | .ret o => [.returned (latest h t) o]

/-- The history after a step. -/
def DataHistory.next (h : DataHistory T) (s : Pool.State T (DataLayer T) Call) (a : T × CallAct)
    (s' : Pool.State T (DataLayer T) Call) : DataHistory T where
  log := h.log ++ dataEvents h.log a.1 (visible a.2 (s.thread a.1))
  changed :=
    if s'.shared.file = s.shared.file ∧ s'.shared.version = s.shared.version then h.changed
    else h.changed ++ [latest h.log a.1]

/-- The data layer over a file with the text `init`, with its history. -/
def recordedDataLayer (T : Type) [DecidableEq T] (init : Text) :=
  (dataMachine T (utf8 init)).withHistory ({} : DataHistory T) DataHistory.next

end History

/-- A file operation raises. -/
def fileFails : Call → CallAct → Bool
  | .read .load, .step .fail => true
  | .write _ _ .openFile, .step .fail => true
  | .write _ _ (.append _ _), .step .fail => true
  | .write _ _ (.bump _), .step .fail => true
  | _, _ => false

/-! ## What a step does to the file, the version and the log -/

/-- A write that has started to append and has not bumped the version yet. -/
def Call.dirty : Call → Bool
  | .write _ _ (.append _ _) | .write _ _ (.bump _) => true
  | _ => false

def Call.stamping : Call → Bool
  | .read (.stamp _) => true
  | _ => false

section Effect

variable {T : Type} [DecidableEq T]

/-- **What a step does**, seen from the file, the version and the log. -/
inductive Effect (d : DataLayer T) : Call → CallAct → DataLayer T → Call → Prop
  | silent {c c' : Call} {a : CallAct} {d' : DataLayer T} : d'.file = d.file →
      d'.version = d.version → c'.toLog = c.toLog → visible a c = .silent → c.dirty = false →
      c'.dirty = false → c'.stamping = false → Effect d c a d' c'
  | called (op : Op) {c' : Call} : c'.toLog = .pending op.toLog → c'.dirty = false →
      c'.stamping = false → Effect d .idle (.call op) d c'
  | loaded {content : Text} : readText d.file = some content →
      Effect d (.read .load) (.step .go) d (.read (.stamp content))
  | unreadable : readText d.file = none →
      Effect d (.read .load) (.step .go) d (.read (.release (.error .unicode)))
  | seen (content : Text) : Effect d (.read (.stamp content)) (.step .go) d
      (.read (.release (.ok ⟨true, content, d.version⟩)))
  | refused (op : LogOp (Text × Text)) {c c' : Call} : c.toLog = .pending op →
      c'.toLog = .finished (.ok ⟨false, timeoutMessage op, d.version⟩) → c.dirty = false →
      c'.dirty = false → c'.stamping = false → Effect d c (.step .go) d c'
  | raised (op : LogOp (Text × Text)) (e : Raised) {c c' : Call} {a : CallAct} :
      c.toLog = .pending op → c'.toLog = .finished (.error e) → visible a c = .silent →
      c.dirty = false → c'.dirty = false → c'.stamping = false → Effect d c a d c'
  | opened (u x stamp : Text) : encodable (record stamp u x) = true →
      Effect d (.write u x .openFile) (.step (.openAt stamp)) d
        (.write u x (.append (record stamp u x) (utf8 (record stamp u x))))
  | flushed (u x rec : Text) {rest : Bytes} {n : ℕ} : rest.drop n ≠ [] →
      Effect d (.write u x (.append rec rest)) (.step (.flush n))
        { d with file := d.file ++ rest.take n } (.write u x (.append rec (rest.drop n)))
  | closed (u x rec : Text) (rest : Bytes) (n : ℕ) : rest.take n = rest →
      Effect d (.write u x (.append rec rest)) (.step (.flush n))
        { d with file := d.file ++ rest } (.write u x (.bump rec))
  | torn (u x rec : Text) (rest : Bytes) :
      Effect d (.write u x (.append rec rest)) (.step .fail) d
        (.write u x (.release (.error .storage)))
  | bumped (u x rec : Text) : Effect d (.write u x (.bump rec)) (.step .go)
      { d with version := d.version + 1 }
      (.write u x (.release (.ok ⟨true, writeCommitted, d.version + 1⟩)))
  | unclosed (u x rec : Text) : Effect d (.write u x (.bump rec)) (.step .fail) d
      (.write u x (.release (.error .storage)))
  | returned {c : Call} {o : Outcome} : c.toLog = .finished o → c.dirty = false →
      visible .ret c = .ret o → Effect d c .ret d .idle

theorem readResource_effect {t : T} {d d' : DataLayer T} {pc pc' : ReadPc} {a : DataAct}
    (h : readResource t d pc a = some (d', pc')) :
    Effect d (.read pc) (.step a) d' (.read pc') := by
  cases readResource_cases h with
  | acquire p q expired l hl =>
    refine .silent rfl rfl ?_ rfl rfl ?_ ?_ <;>
      rcases q with _ | _ | _ | _ | _ <;> rfl
  | refused => exact .refused .look rfl rfl rfl rfl rfl
  | callbackRaised => exact .raised .look .callback rfl rfl rfl rfl rfl rfl
  | loaded content hc => exact .loaded hc
  | unreadable hc => exact .unreadable hc
  | loadRaised => exact .raised .look .storage rfl rfl rfl rfl rfl rfl
  | stamped content => exact .seen content
  | wake | calledBack | released o k => exact .silent rfl rfl rfl rfl rfl rfl rfl

theorem writeResource_effect {t : T} {u x : Text} {d d' : DataLayer T} {pc pc' : WritePc} {a : DataAct}
    (h : writeResource t u x d pc a = some (d', pc')) :
    Effect d (.write u x pc) (.step a) d' (.write u x pc') := by
  cases writeResource_cases h with
  | acquire p q expired l hl =>
    refine .silent rfl rfl ?_ rfl rfl ?_ ?_ <;>
      rcases q with _ | _ | _ | _ | _ <;> rfl
  | refused => exact .refused (.append (u, x)) rfl rfl rfl rfl rfl
  | callbackRaised => exact .raised (.append (u, x)) .callback rfl rfl rfl rfl rfl rfl
  | opened stamp henc => exact .opened u x stamp henc
  | unencodable stamp henc => exact .raised (.append (u, x)) .unicode rfl rfl rfl rfl rfl rfl
  | openRaised => exact .raised (.append (u, x)) .storage rfl rfl rfl rfl rfl rfl
  | flushed rec rest n hd => exact .flushed u x rec hd
  | closed rec rest n ht => exact .closed u x rec rest n ht
  | appendRaised rec rest => exact .torn u x rec rest
  | bumped rec => exact .bumped u x rec
  | closeRaised rec => exact .unclosed u x rec
  | wake | calledBack | released o k => exact .silent rfl rfl rfl rfl rfl rfl rfl

/-- **Inversion.**  `Effect` is all that a step of a thread does. -/
theorem callStep_effect {t : T} {d d' : DataLayer T} {c c' : Call} {a : CallAct}
    (h : callStep t d c a = some (d', c')) : Effect d c a d' c' := by
  unfold callStep at h
  split at h
  · cases h; exact .called .read rfl rfl rfl
  · cases h; exact .called (.write _ _) rfl rfl rfl
  · obtain ⟨⟨d1, pc1⟩, hs, he⟩ := Option.map_eq_some_iff.1 h
    cases he
    exact readResource_effect hs
  · obtain ⟨⟨d1, pc1⟩, hs, he⟩ := Option.map_eq_some_iff.1 h
    cases he
    exact writeResource_effect hs
  · cases h; exact .returned rfl rfl rfl
  · cases h; exact .returned rfl rfl rfl
  · cases h

end Effect

/-! ## The file and the records -/

section FileInv

variable {T : Type} [DecidableEq T] {init : Text}

/-- The text of the file when every record of `recs` is in it. -/
def fileText (init : Text) (recs : List Text) : Text := init ++ recs.flatten

/-- **The invariant of the file.**  The version counts the records; the file holds the initial text
and the records, and behind them what the one write in progress has appended so far. -/
structure FileInv (init : Text) (d : DataLayer T) (th : T → Call) (recs : List Text) : Prop where
  version : d.version = recs.length
  encodable : encodable (fileText init recs) = true
  clean : (∀ t, (th t).dirty = false) → d.file = utf8 (fileText init recs)
  appending : ∀ t u x rec rest, th t = .write u x (.append rec rest) →
    ∃ pre stamp, d.file = utf8 (fileText init recs) ++ pre ∧ pre ++ rest = utf8 rec ∧
      rec = record stamp u x ∧ Lib.encodable rec = true
  bumping : ∀ t u x rec, th t = .write u x (.bump rec) →
    d.file = utf8 (fileText init recs) ++ utf8 rec ∧ (∃ stamp, rec = record stamp u x) ∧
      Lib.encodable rec = true
  stamping : ∀ t content, th t = .read (.stamp content) →
    content = universalNewlines (fileText init recs)

theorem fileText_append (recs : List Text) (rec : Text) :
    fileText init (recs ++ [rec]) = fileText init recs ++ rec := by
  simp [fileText]

theorem readText_fileText {recs : List Text} (h : Lib.encodable (fileText init recs) = true) :
    readText (utf8 (fileText init recs)) = some (universalNewlines (fileText init recs)) := by
  simp [readText, utf8Decode_utf8 _ h]

theorem dirty_role {c : Call} (h : c.dirty = true) : c.role = .writer := by
  unfold Call.dirty at h
  split at h
  · rfl
  · rfl
  · cases h

theorem stamping_role {c : Call} (h : c.stamping = true) : c.role = .reader := by
  unfold Call.stamping at h
  split at h
  · rfl
  · cases h

variable {d d' : DataLayer T} {th : T → Call} {recs : List Text} {t : T} {c' : Call}

/-- A step that leaves file and version alone and neither starts nor ends a write. -/
theorem FileInv.quiet (hi : FileInv init d th recs) (hf : d'.file = d.file)
    (hv : d'.version = d.version) (hc : (th t).dirty = false) (hc' : c'.dirty = false)
    (hs : c'.stamping = false) : FileInv init d' (Function.update th t c') recs := by
  have dirty_iff : ∀ u, (Function.update th t c' u).dirty = (th u).dirty := fun u => by
    by_cases hu : u = t
    · rw [hu, Function.update_self, hc, hc']
    · rw [Function.update_of_ne hu]
  have other : ∀ u c, c.dirty = true ∨ c.stamping = true → Function.update th t c' u = c →
      th u = c := by
    intro u c hc hu
    by_cases hut : u = t
    · rw [hut, Function.update_self] at hu
      rw [← hu, hc', hs] at hc
      simp at hc
    · rwa [Function.update_of_ne hut] at hu
  refine ⟨hv ▸ hi.version, hi.encodable, fun h => ?_, ?_, ?_, ?_⟩
  · rw [hf]
    exact hi.clean fun u => (dirty_iff u).symm.trans (h u)
  · intro u v x rec rest hu
    rw [hf]
    exact hi.appending u v x rec rest (other u _ (.inl rfl) hu)
  · intro u v x rec hu
    rw [hf]
    exact hi.bumping u v x rec (other u _ (.inl rfl) hu)
  · intro u content hu
    exact hi.stamping u content (other u _ (.inr rfl) hu)

variable [Fintype T]

omit [DecidableEq T] in
/-- While one thread is writing, no other thread is, and none is reading. -/
theorem LockInv.others {l : ReadWriteLock T} (hl : LockInv l th) (ht : (th t).role = .writer) {u : T}
    (hu : u ≠ t) : (th u).dirty = false ∧ (th u).stamping = false := by
  constructor
  · by_contra hd
    exact hu ((hl.writer_alone ht).1 (dirty_role (by simpa using hd))).symm
  · by_contra hd
    exact (hl.writer_alone ht).2 (stamping_role (by simpa using hd))

omit [Fintype T] in
/-- The invariant after a step of a thread that nobody writes or reads beside. -/
theorem FileInv.of_alone {recs' : List Text}
    (hothers : ∀ u, u ≠ t → (th u).dirty = false ∧ (th u).stamping = false)
    (hv : d'.version = recs'.length) (henc : Lib.encodable (fileText init recs') = true)
    (hclean : c'.dirty = false → d'.file = utf8 (fileText init recs'))
    (happ : ∀ u x rec rest, c' = .write u x (.append rec rest) →
      ∃ pre stamp, d'.file = utf8 (fileText init recs') ++ pre ∧ pre ++ rest = utf8 rec ∧
        rec = record stamp u x ∧ Lib.encodable rec = true)
    (hbump : ∀ u x rec, c' = .write u x (.bump rec) →
      d'.file = utf8 (fileText init recs') ++ utf8 rec ∧ (∃ stamp, rec = record stamp u x) ∧
        Lib.encodable rec = true)
    (hs : c'.stamping = false) : FileInv init d' (Function.update th t c') recs' := by
  have at_t : ∀ u (c : Call), c.dirty = true ∨ c.stamping = true →
      Function.update th t c' u = c → c' = c := by
    intro u c hc hu
    by_cases hut : u = t
    · rwa [hut, Function.update_self] at hu
    · rw [Function.update_of_ne hut] at hu
      obtain ⟨h1, h2⟩ := hothers u hut
      rw [hu] at h1 h2
      rw [h1, h2] at hc
      simp at hc
  refine ⟨hv, henc, fun h => hclean ?_, ?_, ?_, ?_⟩
  · have := h t
    rwa [Function.update_self] at this
  · exact fun u v x rec rest hu => happ v x rec rest (at_t u _ (.inl rfl) hu)
  · exact fun u v x rec hu => hbump v x rec (at_t u _ (.inl rfl) hu)
  · intro u content hu
    rw [at_t u _ (.inr rfl) hu] at hs
    cases hs

/-- The records after a step. -/
def nextRecs (recs : List Text) : Visible → List Text
  | .commit rec => recs ++ [rec]
  | _ => recs

theorem FileInv.step {a : CallAct} (hl : LockInv d.rwLock th) (hi : FileInv init d th recs)
    (hok : fileFails (th t) a = false) (h : callStep t d (th t) a = some (d', c')) :
    FileInv init d' (Function.update th t c') (nextRecs recs (visible a (th t))) := by
  have heff := callStep_effect h
  generalize hc : th t = c at heff hok
  have hquiet := fun (hf : d'.file = d.file) hv h1 h2 (h3 : c'.stamping = false) =>
    hi.quiet (t := t) hf hv (hc ▸ h1) h2 h3
  -- a reader sees a file that no write is in progress on
  have hclean : c.role = .reader → d.file = utf8 (fileText init recs) := fun hr => hi.clean fun u => by
    by_contra hd
    exact (hl.writer_alone (dirty_role (by simpa using hd))).2 (hc ▸ hr)
  cases heff with
  | silent hf hv _ hvis h1 h2 h3 => rw [hvis]; exact hquiet hf hv h1 h2 h3
  | called op _ h2 h3 => exact hquiet rfl rfl rfl h2 h3
  | @loaded content hr =>
    have hnew : content = universalNewlines (fileText init recs) := by
      rw [hclean rfl, readText_fileText hi.encodable] at hr
      exact (Option.some.inj hr).symm
    have hsame : ∀ u (c : Call), c.dirty = true → Function.update th t (.read (.stamp content)) u = c →
        th u = c := by
      intro u c hd hu
      by_cases hut : u = t
      · rw [hut, Function.update_self] at hu
        rw [← hu] at hd
        cases hd
      · rwa [Function.update_of_ne hut] at hu
    refine ⟨hi.version, hi.encodable, fun _ => hclean rfl, ?_, ?_, ?_⟩
    · exact fun u v x rec rest hu => hi.appending u v x rec rest (hsame u _ rfl hu)
    · exact fun u v x rec hu => hi.bumping u v x rec (hsame u _ rfl hu)
    · intro u content' hu
      by_cases hut : u = t
      · rw [hut, Function.update_self] at hu
        cases hu
        exact hnew
      · rw [Function.update_of_ne hut] at hu
        exact hi.stamping u content' hu
  | unreadable => exact hquiet rfl rfl rfl rfl rfl
  | seen => exact hquiet rfl rfl rfl rfl rfl
  | refused op h1 h2 h3 h4 h5 =>
    have hvis : nextRecs recs (visible (.step .go) c) = recs := by
      rcases c with _ | _ | ⟨u, x, pc⟩
      · rfl
      · rfl
      · rcases pc with _ | _ | _ | _ | _ | _ | _ | _ <;> first | rfl | cases h3
    rw [hvis]
    exact hquiet rfl rfl h3 h4 h5
  | raised op e h1 h2 hvis h3 h4 h5 => rw [hvis]; exact hquiet rfl rfl h3 h4 h5
  | opened u x stamp henc =>
    have hw : (th t).role = .writer := by rw [hc]; rfl
    have hothers := fun u hu => hl.others hw (u := u) hu
    have hfile : d.file = utf8 (fileText init recs) := hi.clean fun u => by
      by_cases hut : u = t
      · rw [hut, hc]; rfl
      · exact (hothers u hut).1
    refine .of_alone hothers hi.version hi.encodable (fun h => by cases h) ?_ (by simp) rfl
    intro v y rec rest he
    cases he
    exact ⟨[], stamp, by rw [List.append_nil]; exact hfile, rfl, rfl, henc⟩
  | @flushed u x rec rest n hn =>
    have hw : (th t).role = .writer := by rw [hc]; rfl
    obtain ⟨pre, stamp, hfile, hpre, hrec, henc⟩ := hi.appending t u x rec rest hc
    refine .of_alone (fun u hu => hl.others hw hu) hi.version hi.encodable (fun h => by cases h) ?_
      (by simp) rfl
    intro v y rec' rest' he
    cases he
    refine ⟨pre ++ rest.take n, stamp, ?_, ?_, hrec, henc⟩
    · simp only [hfile, List.append_assoc]
      rfl
    · rw [List.append_assoc, List.take_append_drop, hpre]
  | closed u x rec rest n ht =>
    have hw : (th t).role = .writer := by rw [hc]; rfl
    obtain ⟨pre, stamp, hfile, hpre, hrec, henc⟩ := hi.appending t u x rec rest hc
    refine .of_alone (fun u hu => hl.others hw hu) hi.version hi.encodable (fun h => by cases h)
      (by simp) ?_ rfl
    intro v y rec' he
    cases he
    refine ⟨?_, ⟨stamp, hrec⟩, henc⟩
    simp only [hfile, List.append_assoc, hpre]
    rfl
  | torn u x rec rest => cases hok
  | unclosed u x rec => cases hok
  | bumped u x rec =>
    have hw : (th t).role = .writer := by rw [hc]; rfl
    obtain ⟨hfile, hrec, henc⟩ := hi.bumping t u x rec hc
    change FileInv init _ _ (recs ++ [rec])
    refine .of_alone (fun u hu => hl.others hw hu) ?_ ?_ (fun _ => ?_) (by simp) (by simp) rfl
    · simp only [hi.version, List.length_append, List.length_singleton]
    · rw [fileText_append, encodable_append, hi.encodable, henc]
      rfl
    · rw [fileText_append, utf8_append]
      exact hfile
  | returned h1 h2 h3 =>
    rw [h3]
    exact hquiet rfl rfl h2 rfl rfl

end FileInv

/-! ## Calls that have changed something -/

/-- Where a call can be that has changed the file or the version: it is appending, or it will end in
success or in an exception. -/
def Call.mayHaveChanged (c : Call) : Prop :=
  c.dirty = true ∨ ∃ o, c.toLog = .finished o ∧ ∀ r, o = .ok r → r.ok = true

section Changed

variable {T : Type} [DecidableEq T]

/-- **The invariant of the calls that have changed something.** -/
structure ChangedInv (th : T → Call) (h : DataHistory T) : Prop where
  fresh : ∀ c ∈ h.changed, c.2 ≤ callNo h.log c.1
  running : ∀ t, latest h.log t ∈ h.changed → (th t).toLog ≠ .idle → (th t).mayHaveChanged
  returned : ∀ c r, .returned c (.ok r) ∈ h.log → c ∈ h.changed → r.ok = true

theorem toLog_idle {c : Call} : c.toLog = .idle ↔ c = .idle := by
  constructor
  · intro h
    cases c with
    | idle => rfl
    | read pc => cases pc <;> cases h
    | write u x pc => cases pc <;> cases h
  · rintro rfl
    rfl

theorem not_mayHaveChanged {c : Call} {op : LogOp (Text × Text)} (h : c.toLog = .pending op)
    (hd : c.dirty = false) : ¬ c.mayHaveChanged := by
  rintro (h1 | ⟨o, h1, -⟩)
  · rw [hd] at h1
    cases h1
  · rw [h] at h1
    cases h1

theorem mayHaveChanged_of_error {c : Call} {e : Raised} (h : c.toLog = .finished (.error e)) :
    c.mayHaveChanged := by
  refine .inr ⟨_, h, fun r hr => ?_⟩
  cases hr

variable {th : T → Call} {h : DataHistory T} {t : T} {c' : Call}

/-- A step inside a call. -/
theorem ChangedInv.inside {h' : DataHistory T} (hi : ChangedInv th h)
    (hno : ∀ u, callNo h'.log u = callNo h.log u)
    (hret : ∀ c o, .returned c o ∈ h'.log → .returned c o ∈ h.log)
    (hch : h'.changed = h.changed ∨ h'.changed = h.changed ++ [latest h.log t])
    (hrun : ∀ o, .returned (latest h.log t) o ∉ h.log) (ht : latest h.log t ∈ h'.changed → c'.mayHaveChanged) :
    ChangedInv (Function.update th t c') h' := by
  have hlatest : ∀ u, latest h'.log u = latest h.log u := fun u => by simp [latest, hno]
  have hmem : ∀ c ∈ h'.changed, c ∈ h.changed ∨ c = latest h.log t := by
    intro c hc
    rcases hch with hch | hch <;> rw [hch] at hc
    · exact .inl hc
    · exact (List.mem_append.1 hc).imp id List.mem_singleton.1
  refine ⟨?_, ?_, ?_⟩
  · intro c hc
    rw [hno]
    rcases hmem c hc with hc | rfl
    · exact hi.fresh c hc
    · exact le_refl _
  · intro u hu hne
    rw [hlatest] at hu
    by_cases hut : u = t
    · subst hut
      rw [Function.update_self]
      exact ht hu
    · rw [Function.update_of_ne hut] at hne ⊢
      rcases hmem _ hu with hu | hu
      · exact hi.running u hu hne
      · exact absurd (congrArg Prod.fst hu) hut
  · intro c r hr hc
    rcases hmem c hc with hc | rfl
    · exact hi.returned c r (hret c _ hr) hc
    · exact absurd (hret _ _ hr) (hrun _)

/-- A call begins: nothing is known of it. -/
theorem ChangedInv.call {h' : DataHistory T} {op : LogOp (Text × Text)} (hi : ChangedInv th h)
    (hch : h'.changed = h.changed) (hlog : h'.log = h.log ++ [.called (t, callNo h.log t + 1) op]) :
    ChangedInv (Function.update th t c') h' := by
  have hno : ∀ u, callNo h'.log u = callNo h.log u + if t = u then 1 else 0 := by
    intro u
    rw [hlog, callNo_called]
  refine ⟨?_, ?_, ?_⟩
  · intro c hm
    rw [hch] at hm
    rw [hno]
    exact Nat.le_add_right_of_le (hi.fresh c hm)
  · intro u hu hne
    rw [hch, latest, hno] at hu
    by_cases hut : u = t
    · subst hut
      rw [if_pos rfl] at hu
      exact absurd (hi.fresh _ hu) (Nat.not_succ_le_self _)
    · rw [if_neg (Ne.symm hut)] at hu
      rw [Function.update_of_ne hut] at hne ⊢
      exact hi.running u hu hne
  · intro c r hr hm
    rw [hch] at hm
    rw [hlog] at hr
    exact hi.returned c r (by simpa using hr) hm

/-- A call returns: if it has changed something, it is not refused. -/
theorem ChangedInv.ret {h' : DataHistory T} {o : Outcome} (hi : ChangedInv th h)
    (hch : h'.changed = h.changed) (hlog : h'.log = h.log ++ [.returned (latest h.log t) o])
    (hidle : c'.toLog = .idle) (ho : latest h.log t ∈ h.changed → ∀ r, o = .ok r → r.ok = true) :
    ChangedInv (Function.update th t c') h' := by
  have hno : ∀ u, callNo h'.log u = callNo h.log u := by
    intro u
    rw [hlog, callNo_returned]
  refine ⟨?_, ?_, ?_⟩
  · intro c hm
    rw [hch] at hm
    rw [hno]
    exact hi.fresh c hm
  · intro u hu hne
    rw [hch, latest, hno] at hu
    by_cases hut : u = t
    · subst hut
      rw [Function.update_self] at hne
      exact absurd hidle hne
    · rw [Function.update_of_ne hut] at hne ⊢
      exact hi.running u hu hne
  · intro c r hr hm
    rw [hch] at hm
    rw [hlog] at hr
    rcases List.mem_append.1 hr with hr | hr
    · exact hi.returned c r hr hm
    · obtain ⟨rfl, heq⟩ := LogEvent.returned.inj (List.mem_singleton.1 hr)
      exact ho hm r heq.symm

theorem ChangedInv.step {s : Pool.State T (DataLayer T) Call} {d' : DataLayer T} {a : CallAct}
    (hi : ChangedInv s.thread h)
    (hrun : ∀ t, (s.thread t).toLog ≠ .idle → ∀ o, .returned (latest h.log t) o ∉ h.log)
    (hs : callStep t s.shared (s.thread t) a = some (d', c')) :
    ChangedInv (Function.update s.thread t c')
      (h.next s (t, a) ⟨d', Function.update s.thread t c'⟩) := by
  have heff := callStep_effect hs
  -- the calls that have changed something after a step that changes nothing, or something
  have hsame : d'.file = s.shared.file → d'.version = s.shared.version →
      (h.next s (t, a) ⟨d', Function.update s.thread t c'⟩).changed = h.changed :=
    fun h1 h2 => if_pos ⟨h1, h2⟩
  have hor : (h.next s (t, a) ⟨d', Function.update s.thread t c'⟩).changed = h.changed ∨
      (h.next s (t, a) ⟨d', Function.update s.thread t c'⟩).changed =
        h.changed ++ [latest h.log t] := by
    simp only [DataHistory.next]
    split_ifs
    · exact .inl rfl
    · exact .inr rfl
  have hkeep := hi.running t
  generalize hc : s.thread t = c at heff hkeep
  have hrun_t := fun hne => hrun t (by rw [hc]; exact hne)
  have hlog : (h.next s (t, a) ⟨d', Function.update s.thread t c'⟩).log =
      h.log ++ dataEvents h.log t (visible a c) := by simp only [DataHistory.next, hc]
  -- a step inside the call, and one before the call may have changed something
  have inside : dataEvents h.log t (visible a c) = [] → c.toLog ≠ .idle →
      (latest h.log t ∈ (h.next s (t, a) ⟨d', Function.update s.thread t c'⟩).changed →
        c'.mayHaveChanged) →
      ChangedInv (Function.update s.thread t c')
        (h.next s (t, a) ⟨d', Function.update s.thread t c'⟩) := by
    intro hev hne ht
    rw [hev, List.append_nil] at hlog
    exact hi.inside (fun u => by rw [hlog]) (fun c o hm => by rwa [hlog] at hm) hor (hrun_t hne) ht
  have before : ∀ {op}, c.toLog = .pending op → c.dirty = false → d'.file = s.shared.file →
      d'.version = s.shared.version →
      latest h.log t ∈ (h.next s (t, a) ⟨d', Function.update s.thread t c'⟩).changed →
        c'.mayHaveChanged := by
    intro op hp hd hf hv hm
    rw [hsame hf hv] at hm
    exact absurd (hkeep hm (by rw [hp]; simp)) (not_mayHaveChanged hp hd)
  cases heff with
  | silent hf hv htl hvis h1 h2 h3 =>
    by_cases hne : c.toLog = .idle
    · -- a thread that does not call stays idle
      rw [hvis] at hlog
      simp only [dataEvents, List.append_nil] at hlog
      have hcl : c = .idle := toLog_idle.1 hne
      rw [hne] at htl
      have hu : Function.update s.thread t c' = s.thread := by
        rw [toLog_idle.1 htl, ← hcl, ← hc, Function.update_eq_self]
      refine ⟨?_, ?_, ?_⟩ <;> rw [hlog, hsame hf hv]
      · exact hi.fresh
      · rw [hu]; exact hi.running
      · exact hi.returned
    · refine inside (by rw [hvis]; rfl) hne fun hm => ?_
      rw [hsame hf hv] at hm
      rcases hkeep hm hne with hd | ⟨o, ho, hok⟩
      · rw [h1] at hd
        cases hd
      · exact .inr ⟨o, htl.trans ho, hok⟩
  | called op => exact hi.call (hsame rfl rfl) hlog
  | loaded hr => exact inside rfl (by simp [Call.toLog]) (before rfl rfl rfl rfl)
  | unreadable => exact inside rfl (by simp [Call.toLog]) fun _ => mayHaveChanged_of_error rfl
  | seen content => exact inside rfl (by simp [Call.toLog]) (before rfl rfl rfl rfl)
  | refused op h1 h2 h3 h4 h5 =>
    have hvis : visible (.step .go) c = .silent := by
      rcases c with _ | _ | ⟨u, x, pc⟩
      · rfl
      · rfl
      · cases pc <;> first | rfl | cases h3
    exact inside (by rw [hvis]; rfl) (by rw [h1]; simp) (before h1 h3 rfl rfl)
  | raised op e h1 h2 hvis h3 h4 h5 =>
    exact inside (by rw [hvis]; rfl) (by rw [h1]; simp) fun _ => mayHaveChanged_of_error h2
  | opened u x stamp henc => exact inside rfl (by simp [Call.toLog]) fun _ => .inl rfl
  | flushed u x rec hn => exact inside rfl (by simp [Call.toLog]) fun _ => .inl rfl
  | closed u x rec rest n ht => exact inside rfl (by simp [Call.toLog]) fun _ => .inl rfl
  | torn u x rec rest => exact inside rfl (by simp [Call.toLog]) fun _ => mayHaveChanged_of_error rfl
  | unclosed u x rec => exact inside rfl (by simp [Call.toLog]) fun _ => mayHaveChanged_of_error rfl
  | bumped u x rec =>
    -- the commit is in the log
    refine hi.inside (fun u => by rw [hlog]; simp [visible, dataEvents])
      (fun c o hm => by rw [hlog] at hm; simpa [visible, dataEvents] using hm) hor
      (hrun_t (by simp [Call.toLog])) fun _ => .inr ⟨_, rfl, fun r hr => ?_⟩
    cases hr
    rfl
  | @returned _ o h1 h2 h3 =>
    rw [h3] at hlog
    refine hi.ret (hsame rfl rfl) hlog rfl fun hm => ?_
    rcases hkeep hm (by rw [h1]; simp) with hd | ⟨o, ho, hok⟩
    · rw [h2] at hd
      cases hd
    · rw [h1] at ho
      cases ho
      exact hok

end Changed

/-! ## The refinement -/

section Refinement

variable {T : Type} [DecidableEq T] {init : Text}

/-- No file operation of the step raises. -/
abbrev FilesWork (p : Pool.State T (DataLayer T) Call × DataHistory T) (a : T × CallAct) : Prop :=
  fileFails (p.1.thread a.1) a.2 = false

/-- A state of the data layer with its history, seen as a state of the atomic log. -/
def toLogState (p : Pool.State T (DataLayer T) Call × DataHistory T) :
    Pool.State T (List Text) (LogCall (Text × Text) Outcome) ×
      List (LogEvent T (Text × Text) Text Outcome) :=
  (⟨entries p.2.log, fun t => (p.1.thread t).toLog⟩, p.2.log)

theorem entries_append_dataEvents (h : List (LogEvent T (Text × Text) Text Outcome)) (t : T)
    (v : Visible) : entries (h ++ dataEvents h t v) = nextRecs (entries h) v := by
  cases v <;> simp [entries, dataEvents, nextRecs]

variable [Fintype T]

theorem recorded_inv (henc : encodable init = true)
    {p : Pool.State T (DataLayer T) Call × DataHistory T}
    (hr : (recordedDataLayer T init).Reach FilesWork p) :
    LockInv p.1.shared.rwLock p.1.thread ∧
      FileInv init p.1.shared p.1.thread (entries p.2.log) := by
  refine hr.invariant (fun p => LockInv p.1.shared.rwLock p.1.thread ∧
    FileInv init p.1.shared p.1.thread (entries p.2.log)) ?_ ?_
  · rintro ⟨s, h⟩ ⟨⟨hs, hth⟩, rfl⟩
    have hs : s.shared = { file := utf8 init } := hs
    refine ⟨lockInv_init hs hth, ?_⟩
    rw [hs]
    refine ⟨rfl, by simpa [fileText, entries] using henc, fun _ => by simp [fileText, entries], ?_,
      ?_, ?_⟩
    · intro t u x rec rest ht
      rw [show s.thread t = .idle from hth t] at ht
      cases ht
    · intro t u x rec ht
      rw [show s.thread t = .idle from hth t] at ht
      cases ht
    · intro t content ht
      rw [show s.thread t = .idle from hth t] at ht
      cases ht
  · rintro ⟨s, h⟩ ⟨t, a⟩ ⟨s', h'⟩ - ⟨hl, hf⟩ hok hs
    obtain ⟨hs, hh⟩ := Machine.withHistory_step.1 hs
    obtain ⟨d, c, hstep, rfl⟩ := Pool.machine_step.1 hs
    simp only at hh hl hf hok hstep ⊢
    subst hh
    refine ⟨hl.step (callStep_moves hstep), ?_⟩
    simp only [DataHistory.next, entries_append_dataEvents]
    exact hf.step hl hok hstep

/-- **Refinement.**  A run of the data layer whose file operations work is a run of the atomic log
with the same history. -/
theorem dataLayer_refines (henc : encodable init = true)
    {p : Pool.State T (DataLayer T) Call × DataHistory T}
    (hr : (recordedDataLayer T init).Reach FilesWork p) :
    (logMachine (recordLog init) T).Reachable (toLogState p) := by
  refine Machine.Reach.map toLogState ?_ ?_ hr
  · rintro ⟨s, h⟩ ⟨⟨hs, hth⟩, rfl⟩
    exact ⟨⟨rfl, fun t => by simp only [toLogState]; rw [show s.thread t = .idle from hth t]; rfl⟩,
      rfl⟩
  rintro ⟨s, h⟩ ⟨t, a⟩ ⟨s', h'⟩ hr hok hs
  obtain ⟨hl, hf⟩ := recorded_inv henc hr
  obtain ⟨hs, hh⟩ := Machine.withHistory_step.1 hs
  obtain ⟨d, c', hstep, rfl⟩ := Pool.machine_step.1 hs
  simp only at hh hl hf
  subst hh
  have hok : fileFails (s.thread t) a = false := hok
  have heff := callStep_effect hstep
  have hlen : (entries h.log).length = s.shared.version := hf.version.symm
  simp only at heff hok
  have hupd : (fun u => (Function.update s.thread t c' u).toLog) =
      Function.update (fun u => (s.thread u).toLog) t c'.toLog :=
    Function.comp_update Call.toLog s.thread t c'
  -- how a step of the log shows that the step is matched
  have matched : ∀ (b : LogAct (Text × Text) Text Raised) (log : List Text)
      (l : LogCall (Text × Text) Outcome) (v : Visible), visible a (s.thread t) = v →
      logStep (recordLog init) t (entries h.log) (s.thread t).toLog b = some (log, l) →
      c'.toLog = l → nextRecs (entries h.log) v = log →
      logEvents (recordLog init) h.log (toLogState (s, h)).1 (t, b) = dataEvents h.log t v →
      (logMachine (recordLog init) T).step (toLogState (s, h)) (t, b) =
        some (toLogState (⟨d, Function.update s.thread t c'⟩,
          h.next s (t, a) ⟨d, Function.update s.thread t c'⟩)) := by
    intro b log l v hv hb hl hlog hev
    refine Machine.withHistory_step.2 ⟨Pool.machine_step.2 ⟨log, l, hb, ?_⟩, ?_⟩
    · simp only [toLogState, DataHistory.next, hv, entries_append_dataEvents, hlog, hupd, hl]
    · simp only [toLogState, DataHistory.next, hv]
      rw [← hev]
      rfl
  have stutter : visible a (s.thread t) = .silent → c'.toLog = (s.thread t).toLog →
      toLogState (⟨d, Function.update s.thread t c'⟩,
          h.next s (t, a) ⟨d, Function.update s.thread t c'⟩) = toLogState (s, h) := by
    intro hv hl
    simp only [toLogState, DataHistory.next, hv, hupd, hl, dataEvents, List.append_nil]
    rw [show (s.thread t).toLog = (fun u => (s.thread u).toLog) t from rfl, Function.update_eq_self]
  generalize hc : s.thread t = c at heff hok matched stutter
  cases heff with
  | silent _ _ htl hvis => exact .inl (stutter hvis htl)
  | called op h1 =>
    exact .inr ⟨(t, .call op.toLog), trivial, matched _ _ _ _ rfl rfl h1 rfl rfl⟩
  | loaded => exact .inl (stutter rfl rfl)
  | unreadable hread =>
    -- the file is readable: it is the encoding of a text
    exfalso
    have hclean : s.shared.file = utf8 (fileText init (entries h.log)) := hf.clean fun u => by
      by_contra hd
      exact (hl.writer_alone (dirty_role (by simpa using hd))).2 (by rw [hc]; rfl)
    rw [hclean, readText_fileText hf.encodable] at hread
    cases hread
  | seen content =>
    refine .inr ⟨(t, .look), trivial, matched _ _ _ .silent rfl rfl ?_ rfl ?_⟩
    · simp only [Call.toLog, recordLog, hlen, hf.stamping t content hc, fileText]
    · rfl
  | refused op h1 h2 h3 =>
    have hvis : visible (.step .go) c = .silent := by
      rcases c with _ | _ | ⟨u, x, pc⟩
      · rfl
      · rfl
      · cases pc <;> first | rfl | cases h3
    refine .inr ⟨(t, .refuse), trivial, matched .refuse _ _ .silent hvis
      (h1 ▸ logStep_refuse (recordLog init) t (entries h.log) op) ?_ rfl ?_⟩
    · rw [h2, hlen]
      rfl
    · rfl
  | raised op e h1 h2 hvis =>
    refine .inr ⟨(t, .fail e), trivial, matched (.fail e) _ _ .silent hvis
      (h1 ▸ logStep_fail (recordLog init) t (entries h.log) op e) h2 rfl ?_⟩
    rfl
  | opened => exact .inl (stutter rfl rfl)
  | flushed => exact .inl (stutter rfl rfl)
  | closed => exact .inl (stutter rfl rfl)
  | torn => cases hok
  | unclosed => cases hok
  | bumped u x rec =>
    obtain ⟨-, ⟨stamp, rfl⟩, -⟩ := hf.bumping t u x rec hc
    refine .inr ⟨(t, .commit stamp), trivial, matched (.commit stamp) _ _ _ rfl rfl ?_ rfl ?_⟩
    · simp only [Call.toLog, recordLog, hlen]
    · simp [logEvents, toLogState, hc, Call.toLog, dataEvents, recordLog, visible]
  | @returned _ o h1 h2 hvis =>
    refine .inr ⟨(t, .ret), trivial, matched .ret _ _ _ hvis (by rw [h1]; rfl) rfl rfl ?_⟩
    simp [logEvents, toLogState, hc, h1, dataEvents]

theorem changedInv_of_reach (henc : encodable init = true)
    {p : Pool.State T (DataLayer T) Call × DataHistory T}
    (hr : (recordedDataLayer T init).Reach FilesWork p) : ChangedInv p.1.thread p.2 := by
  refine hr.invariant (fun p => ChangedInv p.1.thread p.2) ?_ ?_
  · rintro ⟨s, h⟩ ⟨-, rfl⟩
    exact ⟨by simp, by simp, by simp⟩
  · rintro ⟨s, h⟩ ⟨t, a⟩ ⟨s', h'⟩ hr ih - hs
    have hlog := logInv_of_reachable (dataLayer_refines henc hr)
    obtain ⟨hs, hh⟩ := Machine.withHistory_step.1 hs
    obtain ⟨d, c, hstep, rfl⟩ := Pool.machine_step.1 hs
    simp only at hh ih hlog
    subst hh
    refine ih.step (fun t ht => ?_) hstep
    exact hlog.running t fun h => ht (by simpa [toLogState] using h)

/-! ## What callers observe -/

theorem universalNewlines_of_no_cr (s : Text) (h : 13 ∉ s) : universalNewlines s = s := by
  induction s with
  | nil => rfl
  | cons c s ih =>
    obtain ⟨hc, hs⟩ := not_or.1 (fun hm => h (List.mem_cons.2 hm))
    unfold universalNewlines
    rw [if_neg (Ne.symm hc), ih hs]

section

omit [DecidableEq T] [Fintype T]

/-- The version that a successful write returns is the place of its record in the log. -/
theorem write_returns {h : List (LogEvent T (Text × Text) Text Outcome)}
    (hh : LogHistory (recordLog init) h) {c : T × ℕ} {u x : Text} {r : Result}
    (hc : .called c (.append (u, x)) ∈ h) (hr : .returned c (.ok r) ∈ h) (hok : r.ok = true) :
    1 ≤ r.version ∧ ∃ stamp, (commits h)[r.version - 1]? = some (c, record stamp u x) := by
  obtain ⟨op, hop, hj⟩ := hh.justified c _ hr
  obtain rfl := hh.calledOnce c _ _ hop hc
  generalize ho : (Except.ok r : Outcome) = o at hj
  generalize hq : LogOp.append (u, x) = op at hj
  cases hj with
  | appended hi =>
    cases ho
    cases hq
    exact ⟨by simp, _, hi⟩
  | seen => cases hq
  | refused =>
    cases ho
    cases hok
  | failed => cases ho

/-- A write that has committed returns success, with the place of its record. -/
theorem committed_returns {h : List (LogEvent T (Text × Text) Text Outcome)}
    (hh : LogHistory (recordLog init) h) {c : T × ℕ} {o : Outcome} {i : ℕ} {rec : Text}
    (hi : (commits h)[i]? = some (c, rec)) (hr : .returned c o ∈ h) :
    o = .ok ⟨true, writeCommitted, i + 1⟩ := by
  have hmem : c ∈ committers h := List.mem_map.2 ⟨_, List.mem_of_getElem? hi, rfl⟩
  obtain ⟨op, -, hj⟩ := hh.justified c _ hr
  cases hj with
  | @appended j w s hj =>
    have hlt := (List.getElem?_eq_some_iff.1 hi).1
    have hij : i = j := by
      refine (List.getElem?_inj (l := committers h) (by simpa [committers] using hlt) hh.once).1 ?_
      simp only [committers, List.getElem?_map, hi, hj, Option.map_some]
    rw [hij]
    rfl
  | seen _ hn => exact absurd hmem hn
  | refused hn => exact absurd hmem hn
  | failed hn => exact absurd hmem hn

/-- The content and the version that a successful read returns belong together. -/
theorem read_returns {h : List (LogEvent T (Text × Text) Text Outcome)}
    (hh : LogHistory (recordLog init) h) {c : T × ℕ} {r : Result}
    (hc : .called c .look ∈ h) (hr : .returned c (.ok r) ∈ h) (hok : r.ok = true) :
    r.version ≤ (entries h).length ∧
      r.text = universalNewlines (fileText init ((entries h).take r.version)) := by
  obtain ⟨op, hop, hj⟩ := hh.justified c _ hr
  obtain rfl := hh.calledOnce c _ _ hop hc
  generalize ho : (Except.ok r : Outcome) = o at hj
  generalize hq : (LogOp.look : LogOp (Text × Text)) = op at hj
  cases hj with
  | appended => cases hq
  | @seen k hk =>
    cases ho
    have hlen : ((entries h).take k).length = k := by
      rw [List.length_take, entries, List.length_map]
      exact min_eq_left hk
    simp only [hlen]
    exact ⟨by rw [entries, List.length_map]; exact hk, rfl⟩
  | refused =>
    cases ho
    cases hok
  | failed => cases ho

end

/-- **The data layer refines an atomic append-only log.**  In every run whose file operations work:
the run is one of the atomic log; the successful writes return the places of their records; with
no writer inside, the file is the initial text and the records; a successful read returns the text
up to the version it returns; versions respect real time; and a call that returns without success
has changed nothing. -/
theorem dataLayer_is_append_only_log (henc : encodable init = true)
    {s : Pool.State T (DataLayer T) Call} {h : DataHistory T}
    (hr : (recordedDataLayer T init).Reach FilesWork (s, h)) :
    (logMachine (recordLog init) T).Reachable (toLogState (s, h)) ∧
    (committers h.log).Nodup ∧
    (∀ c u x r, .called c (.append (u, x)) ∈ h.log → .returned c (.ok r) ∈ h.log → r.ok = true →
      1 ≤ r.version ∧
        ∃ stamp, (commits h.log)[r.version - 1]? = some (c, record stamp u x)) ∧
    (∀ i c rec o, (commits h.log)[i]? = some (c, rec) → .returned c o ∈ h.log →
      o = .ok ⟨true, writeCommitted, i + 1⟩) ∧
    s.shared.version = (entries h.log).length ∧
    ((∀ t, (s.thread t).role ≠ .writer) →
      s.shared.file = utf8 (init ++ (entries h.log).flatten)) ∧
    (∀ c r, .called c .look ∈ h.log → .returned c (.ok r) ∈ h.log → r.ok = true →
      r.version ≤ (entries h.log).length ∧
      r.text = universalNewlines (init ++ ((entries h.log).take r.version).flatten) ∧
      (13 ∉ init ++ ((entries h.log).take r.version).flatten →
        r.text = init ++ ((entries h.log).take r.version).flatten)) ∧
    (∀ h₁ h₂ c op c' r r', h.log = h₁ ++ .called c op :: h₂ → .returned c' (.ok r') ∈ h₁ →
      .returned c (.ok r) ∈ h.log → r'.version ≤ r.version) ∧
    (∀ c r, .returned c (.ok r) ∈ h.log → r.ok = false → c ∉ h.changed) := by
  have href := dataLayer_refines henc hr
  have hh : LogHistory (recordLog init) h.log := logHistory_of_reachable href
  obtain ⟨-, hf⟩ := recorded_inv henc hr
  have hch := changedInv_of_reach henc hr
  refine ⟨href, hh.once, fun c u x r => write_returns hh, fun i c rec o => committed_returns hh,
    hf.version, ?_, ?_, ?_, ?_⟩
  · intro hw
    refine hf.clean fun t => ?_
    by_contra hd
    exact hw t (dirty_role (by simpa using hd))
  · intro c r hc hret hok
    obtain ⟨h1, h2⟩ := read_returns hh hc hret hok
    exact ⟨h1, h2, fun hcr => h2.trans (universalNewlines_of_no_cr _ hcr)⟩
  · intro h₁ h₂ c op c' r r' heq hret' hret
    exact hh.later c _ hret h₁ h₂ op c' _ _ _ heq hret' rfl rfl
  · intro c r hret hok hm
    have := hch.returned c r hret hm
    rw [hok] at this
    cases this

end Refinement

/-! ### A run -/

/-- A thread writes, and then reads what it has written. -/
def writeReadRun {T : Type} (t : T) : List (T × CallAct) :=
  [(t, .call (.write (lit "U001") (lit "a"))), (t, .step (.lock false)), (t, .step .go),
    (t, .step (.openAt (lit "now"))), (t, .step (.flush 4)), (t, .step (.flush 10)), (t, .step .go),
    (t, .step (.release 0)), (t, .ret), (t, .call .read), (t, .step (.lock false)), (t, .step .go),
    (t, .step .go), (t, .step .go), (t, .step (.release 0)), (t, .ret)]

/-- The start of a run with one thread. -/
def startOne : Pool.State (Fin 1) (DataLayer (Fin 1)) Call × DataHistory (Fin 1) :=
  (⟨{ file := utf8 (lit "log") }, fun _ => .idle⟩, {})

theorem writeReadRun_log :
    ∃ s h, (recordedDataLayer (Fin 1) (lit "log")).runIf FilesWork startOne (writeReadRun 0) =
        some (s, h) ∧
      s.shared.file = utf8 (lit "log\n[now] U001: a") ∧ s.shared.version = (entries h.log).length ∧
      s.shared.version = 1 := by
  have hs : ((recordedDataLayer (Fin 1) (lit "log")).runIf FilesWork startOne (writeReadRun 0)).map
      (fun p => (p.1.shared.file, p.1.shared.version)) =
        some (utf8 (lit "log\n[now] U001: a"), 1) := by decide
  obtain ⟨⟨s, h⟩, hrun, hval⟩ := Option.map_eq_some_iff.1 hs
  obtain ⟨hfile, hversion⟩ := Prod.mk.inj hval
  have hr : (recordedDataLayer (Fin 1) (lit "log")).Reach FilesWork (s, h) :=
    Machine.Reach.runIf (s := startOne) (.init ⟨⟨rfl, fun _ => rfl⟩, rfl⟩) hrun
  exact ⟨s, h, hrun, hfile, (dataLayer_is_append_only_log (by decide) hr).2.2.2.2.1, hversion⟩

end DistRes
