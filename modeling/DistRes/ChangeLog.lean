import DistRes.Lib.Headers
import DistRes.ReadBack
import DistRes.Server

/-!
# Who wrote what

The file is the initial text with the records of the committed writes behind it, and the only thing
that tells one record from the next is the header `"\n[stamp] user_id: "`.

* `LogEntry` — a committed write, with a time stamp in the format of `write_resource` and a seeded
  user id;
* `file_of_entries` — the file of a run, as the log of its entries;
* `log_unambiguous_iff` — the entries can be told from the file exactly if no text has a header in it.
-/

namespace DistRes

open Lib

/-! ## Committed writes -/

/-- `s` has the form of `form`, in which `0` stands for any digit. -/
def hasForm : Text → Text → Bool
  | [], [] => true
  | f :: form, c :: s =>
    (if f.val = 48 then decide (48 ≤ c.val ∧ c.val ≤ 57) else decide (c = f)) && hasForm form s
  | _, _ => false

/-- `"%Y-%m-%d %H:%M:%S"`. -/
def isStamp (s : Text) : Bool := hasForm (lit "0000-00-00 00:00:00") s

/-- The header of a record: when it was written, and by whom. -/
structure Header where
  stamp : Text
  userId : Text
  stamped : isStamp stamp = true
  seeded : userId ∈ preAssignedUsers.map Prod.fst

def Header.text (h : Header) : Text := lit "\n[" ++ h.stamp ++ lit "] " ++ h.userId ++ lit ": "

/-- A committed write. -/
structure LogEntry where
  header : Header
  text : Text
  encodable : encodable text = true

/-- The record that `write_resource` has appended. -/
def LogEntry.record (w : LogEntry) : Text := DistRes.record w.header.stamp w.header.userId w.text

theorem LogEntry.record_eq (w : LogEntry) : w.record = w.header.text ++ w.text := rfl

/-- No record header is in the text. -/
def LogEntry.plain (w : LogEntry) : Prop := ∀ h : Header, ¬ h.text <:+: w.text

theorem hasForm_length {form s : Text} (h : hasForm form s = true) : s.length = form.length := by
  fun_induction hasForm form s with
  | case1 => rfl
  | case2 f form c s ih =>
    obtain ⟨-, hrest⟩ := Bool.and_eq_true_iff.1 h
    rw [List.length_cons, List.length_cons, ih hrest]
  | case3 => cases h

theorem hasForm_notMem {form s : Text} {a : CodePoint} (ha : a < 48) (hform : a ∉ form)
    (h : hasForm form s = true) : a ∉ s := by
  fun_induction hasForm form s with
  | case1 => simp
  | case2 f form c s ih =>
    obtain ⟨hc, hrest⟩ := Bool.and_eq_true_iff.1 h
    obtain ⟨hf, hform⟩ := not_or.1 (fun hm => hform (List.mem_cons.2 hm))
    intro hm
    rcases List.mem_cons.1 hm with rfl | hm
    · split_ifs at hc with h48
      · exact absurd (of_decide_eq_true hc).1 (not_le.2 ha)
      · exact hf (of_decide_eq_true hc)
    · exact ih hform hrest hm
  | case3 => cases h

theorem seeded_length {u : Text} (h : u ∈ preAssignedUsers.map Prod.fst) : u.length = 6 := by
  revert u
  decide

theorem seeded_notMem {u : Text} {a : CodePoint} (ha : a < 48) (h : u ∈ preAssignedUsers.map Prod.fst) :
    a ∉ u := by
  have hall : (preAssignedUsers.map Prod.fst).all (fun u => u.all fun c => 48 ≤ c.val) = true := by
    decide
  intro hm
  have hu := List.all_eq_true.1 (List.all_eq_true.1 hall u h) a hm
  have ha : a.val < 48 := ha
  simp only [decide_eq_true_eq] at hu
  omega

/-- **The headers** begin with a line feed, have it nowhere else and are all of one length. -/
theorem marked_header : Marked Header.text 10 31 where
  starts h := by
    refine ⟨lit "[" ++ h.stamp ++ lit "] " ++ h.userId ++ lit ": ", rfl, ?_⟩
    have hs : 10 ∉ h.stamp := hasForm_notMem (by decide) (by decide) h.stamped
    have hu : 10 ∉ h.userId := seeded_notMem (by decide) h.seeded
    simp only [List.mem_append, not_or]
    exact ⟨⟨⟨⟨by decide, hs⟩, by decide⟩, hu⟩, by decide⟩
  length h := by
    have hs : h.stamp.length = 19 := hasForm_length h.stamped
    have hu := seeded_length h.seeded
    simp only [Header.text, List.length_append, hs, hu]
    rfl
  injective h h' he := by
    have hs : h.stamp.length = h'.stamp.length :=
      (hasForm_length h.stamped).trans (hasForm_length h'.stamped).symm
    have hu : h.userId.length = h'.userId.length :=
      (seeded_length h.seeded).trans (seeded_length h'.seeded).symm
    simp only [Header.text, List.append_assoc] at he
    have he := List.append_cancel_left he
    obtain ⟨hstamp, he⟩ := List.append_inj he hs
    obtain ⟨huser, -⟩ := List.append_inj (List.append_cancel_left he) hu
    cases h
    cases h'
    cases hstamp
    cases huser
    rfl

/-! ## The log of the entries -/

/-- The entries as records behind headers. -/
def asRecords (ws : List LogEntry) : List (Header × Text) := ws.map fun w => (w.header, w.text)

theorem asRecords_injective : Function.Injective asRecords := by
  refine List.map_injective_iff.2 fun w w' he => ?_
  cases w
  cases w'
  cases he
  rfl

theorem fileText_entries (init : Text) (ws : List LogEntry) :
    fileText init (ws.map LogEntry.record) = init ++ logOf Header.text (asRecords ws) := by
  have hrec : LogEntry.record = fun w => w.header.text ++ w.text := rfl
  simp only [fileText, logOf, asRecords, List.flatMap_def, List.map_map, hrec]
  rfl

theorem plain_asRecords {ws : List LogEntry} :
    Plain Header.text (asRecords ws) ↔ ∀ w ∈ ws, w.plain := by
  simp [Plain, asRecords, LogEntry.plain]

theorem exists_entries {rs : List (Header × Text)} (h : ∀ r ∈ rs, encodable r.2 = true) :
    ∃ ws, asRecords ws = rs := by
  induction rs with
  | nil => exact ⟨[], rfl⟩
  | cons r rs ih =>
    obtain ⟨ws, rfl⟩ := ih fun q hq => h q (List.mem_cons_of_mem _ hq)
    exact ⟨⟨r.1, r.2, h r List.mem_cons_self⟩ :: ws, rfl⟩

theorem encodable_of_infix {s t : Text} (h : s <:+: t) (ht : encodable t = true) :
    encodable s = true := by
  obtain ⟨a, b, rfl⟩ := h
  simp only [encodable_append, Bool.and_eq_true] at ht
  exact ht.1.2

/-- Every sequence of entries has the file of one without headers in its texts. -/
theorem exists_plain_entries (init : Text) (ws : List LogEntry) : ∃ ws' : List LogEntry,
    (∀ w ∈ ws', w.plain) ∧
      fileText init (ws'.map LogEntry.record) = fileText init (ws.map LogEntry.record) := by
  obtain ⟨rs, hplain, hlog, hin⟩ := marked_header.exists_plain (asRecords ws)
  obtain ⟨ws', rfl⟩ := exists_entries fun r hr => by
    obtain ⟨q, hq, hrq⟩ := hin r hr
    obtain ⟨w, -, rfl⟩ := List.mem_map.1 hq
    exact encodable_of_infix hrq w.encodable
  exact ⟨ws', plain_asRecords.1 hplain, by rw [fileText_entries, fileText_entries, hlog]⟩

/-! ## The entries of a run -/

/-- The calls that have succeeded. -/
def successes (events : List FileEvent) : List EndedWrite := (writesOf events).filter (·.succeeded)

theorem committedRecords_eq (events : List FileEvent) :
    committedRecords events = (successes events).map EndedWrite.record := by
  induction events with
  | nil => rfl
  | cons ev events ih =>
    cases ev with
    | read => exact ih
    | write e =>
      rw [successes] at ih
      rw [committedRecords] at ih ⊢
      by_cases he : e.succeeded = true
      · simpa [successes, writesOf, he] using ih
      · simpa [successes, writesOf, he] using ih

theorem exists_entries_of_successes {es : List EndedWrite} (h : ∀ e ∈ es,
    isStamp e.trace.stamp = true ∧ e.userId ∈ preAssignedUsers.map Prod.fst ∧
      encodable e.text = true) :
    ∃ ws : List LogEntry, (ws.map fun w => (w.header.stamp, w.header.userId, w.text)) =
      (es.map fun e => (e.trace.stamp, e.userId, e.text)) ∧
        ws.map LogEntry.record = es.map EndedWrite.record := by
  induction es with
  | nil => exact ⟨[], rfl, rfl⟩
  | cons e es ih =>
    obtain ⟨hs, hu, hx⟩ := h e List.mem_cons_self
    obtain ⟨ws, hws, hrec⟩ := ih fun d hd => h d (List.mem_cons_of_mem _ hd)
    exact ⟨⟨⟨e.trace.stamp, e.userId, hs, hu⟩, e.text, hx⟩ :: ws, congrArg (_ :: ·) hws,
      congrArg (_ :: ·) hrec⟩

section Runs

variable {T : Type} [DecidableEq T] [Fintype T]

/-- **The file of a run is the log of its entries**, when no write has been torn and none is going on. -/
theorem file_of_entries {init : Text} {s : Pool.State T (DataLayer T) Call} {h : FileHistory T}
    (hr : (auditedDataLayer T (utf8 init)).Reachable (s, h))
    (hquiet : ∀ t, (s.thread t).role ≠ .writer)
    (hwhole : ∀ e, .write e ∈ h.events → e.trace.torn = false)
    (hform : ∀ e ∈ successes h.events,
      isStamp e.trace.stamp = true ∧ e.userId ∈ preAssignedUsers.map Prod.fst) :
    ∃ ws : List LogEntry, (ws.map fun w => (w.header.stamp, w.header.userId, w.text)) =
        ((successes h.events).map fun e => (e.trace.stamp, e.userId, e.text)) ∧
      s.shared.file = utf8 (fileText init (ws.map LogEntry.record)) := by
  have hinv := auditInv_of_reachable hr
  have hencodable : ∀ e ∈ successes h.events, encodable e.text = true := by
    intro e he
    obtain ⟨he, hsucc⟩ := List.mem_filter.1 he
    obtain ⟨before, after, hlog⟩ := List.append_of_mem (mem_writesOf.1 he)
    obtain ⟨hends, -, -⟩ := hinv.placed before _ after hlog
    cases hends with
    | committed b _ _ _ _ henc =>
      simp only [record, encodable_append, Bool.and_eq_true] at henc
      exact henc.2
    | refused ho hok =>
      rw [e.succeeded_ok ho, hok] at hsucc
      cases hsucc
    | failed _ ho =>
      rw [e.succeeded_error ho] at hsucc
      cases hsucc
    | torn _ _ ho =>
      rw [e.succeeded_error ho] at hsucc
      cases hsucc
  obtain ⟨ws, hws, hrec⟩ := exists_entries_of_successes fun e he =>
    ⟨(hform e he).1, (hform e he).2, hencodable e he⟩
  refine ⟨ws, hws, ?_⟩
  have hstored := hinv.quiet hquiet
  rw [settled_of_whole hinv.placed hwhole, committedRecords_eq, ← hrec] at hstored
  rw [fileText, utf8_append]
  exact congrArg Prod.fst hstored

end Runs

/-! ## What a read shows of it -/

/-- No carriage return is in the text. -/
def LogEntry.noReturn (w : LogEntry) : Prop := ∀ c ∈ w.text, c.val ≠ 13

theorem cr_notMem_logOf {ws : List LogEntry} (h : ∀ w ∈ ws, w.noReturn) :
    13 ∉ logOf Header.text (asRecords ws) := by
  have hheader : ∀ k : Header, 13 ∉ k.text := fun k => by
    have hs : 13 ∉ k.stamp := hasForm_notMem (by decide) (by decide) k.stamped
    have hu : 13 ∉ k.userId := seeded_notMem (by decide) k.seeded
    simp only [Header.text, List.mem_append, not_or]
    exact ⟨⟨⟨⟨by decide, hs⟩, by decide⟩, hu⟩, by decide⟩
  intro hm
  obtain ⟨_, hr, hm⟩ := List.mem_flatMap.1 hm
  obtain ⟨w, hw, rfl⟩ := List.mem_map.1 hr
  rcases List.mem_append.1 hm with hm | hm
  · exact hheader _ hm
  · exact h w hw 13 hm rfl

/-- A log is empty, or a line feed and more. -/
theorem logOf_cases (ws : List LogEntry) : logOf Header.text (asRecords ws) = [] ∨
    ∃ b q, logOf Header.text (asRecords ws) = 10 :: b :: q := by
  cases ws with
  | nil => exact .inl rfl
  | cons w ws =>
    exact .inr ⟨91, _, by rw [asRecords, List.map_cons, logOf_cons]; rfl⟩

/-- Two logs without carriage returns that are read alike behind the same text are alike. -/
theorem logOf_eq_of_read {init : Text} {ws ws' : List LogEntry} (h : ∀ w ∈ ws, w.noReturn)
    (h' : ∀ w ∈ ws', w.noReturn)
    (heq : universalNewlines (init ++ logOf Header.text (asRecords ws)) =
      universalNewlines (init ++ logOf Header.text (asRecords ws'))) :
    logOf Header.text (asRecords ws) = logOf Header.text (asRecords ws') := by
  have hcr := cr_notMem_logOf h
  have hcr' := cr_notMem_logOf h'
  have hform := logOf_cases ws
  have hform' := logOf_cases ws'
  generalize logOf Header.text (asRecords ws) = x at heq hcr hform ⊢
  generalize logOf Header.text (asRecords ws') = x' at heq hcr' hform' ⊢
  by_cases hlast : init.getLast? = some 13
  · -- the line feed that the log begins with is swallowed
    obtain ⟨r, rfl⟩ := List.getLast?_eq_some_iff.1 hlast
    have cut : ∀ y : Text, 13 ∉ y → (y = [] ∨ ∃ b q, y = 10 :: b :: q) →
        universalNewlines (r ++ [13] ++ y) = universalNewlines r ++ 10 :: y.tail := by
      intro y hy hform
      rw [List.append_assoc, universalNewlines_append (.inr (by
        rw [List.singleton_append, List.head?_cons]
        decide))]
      rcases hform with rfl | ⟨b, q, rfl⟩
      · rfl
      · rw [List.singleton_append, universalNewlines_crlf, List.tail_cons,
          universalNewlines_of_no_cr _ fun hm => hy (List.mem_cons_of_mem _ hm)]
    rw [cut x hcr hform, cut x' hcr' hform'] at heq
    have htail := (List.cons.inj (List.append_cancel_left heq)).2
    rcases hform with rfl | ⟨b, q, rfl⟩ <;> rcases hform' with rfl | ⟨b', q', rfl⟩
    · rfl
    · cases htail
    · cases htail
    · exact congrArg (10 :: ·) htail
  · rw [universalNewlines_append (.inl hlast), universalNewlines_append (.inl hlast),
      universalNewlines_of_no_cr _ hcr, universalNewlines_of_no_cr _ hcr'] at heq
    exact List.append_cancel_left heq

/-- **The change log is unambiguous** as long as no text has a record header in it, and not beyond: a
sequence of entries is the only one with plain texts that has its file if and only if its own texts are
plain; and where no text has a carriage return in it either, this holds of what a read returns. -/
theorem log_unambiguous_iff (init : Text) (ws : List LogEntry) :
    ((∀ ws' : List LogEntry, (∀ w ∈ ws', w.plain) →
        fileText init (ws'.map LogEntry.record) = fileText init (ws.map LogEntry.record) → ws' = ws) ↔
      ∀ w ∈ ws, w.plain) ∧
    ∀ ws' : List LogEntry, (∀ w ∈ ws, w.plain ∧ w.noReturn) → (∀ w ∈ ws', w.plain ∧ w.noReturn) →
      universalNewlines (fileText init (ws'.map LogEntry.record)) =
        universalNewlines (fileText init (ws.map LogEntry.record)) → ws' = ws := by
  have hunique : ∀ ws' : List LogEntry, (∀ w ∈ ws, w.plain) → (∀ w ∈ ws', w.plain) →
      logOf Header.text (asRecords ws') = logOf Header.text (asRecords ws) → ws' = ws :=
    fun ws' h h' heq => asRecords_injective <|
      marked_header.plain_unique (plain_asRecords.2 h') (plain_asRecords.2 h) heq
  refine ⟨⟨fun honly => ?_, fun h ws' h' heq => ?_⟩, fun ws' h h' heq => ?_⟩
  · obtain ⟨ws', hplain, hfile⟩ := exists_plain_entries init ws
    rw [← honly ws' hplain hfile]
    exact hplain
  · rw [fileText_entries, fileText_entries] at heq
    exact hunique ws' h h' (List.append_cancel_left heq)
  · rw [fileText_entries, fileText_entries] at heq
    exact hunique ws' (fun w hw => (h w hw).1) (fun w hw => (h' w hw).1)
      (logOf_eq_of_read (fun w hw => (h' w hw).2) (fun w hw => (h w hw).2) heq)

/-! ### A text with a header in it -/

/-- The header of a record of `userId` at midnight on new year's day. -/
def newYear (userId : Text) (h : userId ∈ preAssignedUsers.map Prod.fst) : Header :=
  ⟨lit "2024-01-01 00:00:00", userId, by decide, h⟩

/-- One entry of `ENG001` has the file of an entry of each of `ENG001` and `ENG002`. -/
theorem forgedEntry_ambiguous :
    ¬ ∀ (init : Text) (ws ws' : List LogEntry),
      fileText init (ws'.map LogEntry.record) = fileText init (ws.map LogEntry.record) → ws' = ws := by
  intro hall
  have := hall [] [⟨newYear (lit "ENG001") (by decide), lit "a\n[2024-01-01 00:00:00] ENG002: b", by decide⟩]
    [⟨newYear (lit "ENG001") (by decide), lit "a", by decide⟩,
      ⟨newYear (lit "ENG002") (by decide), lit "b", by decide⟩] (by decide)
  cases this

/-- A text that is shorter than a header is plain. -/
theorem plain_of_short {w : LogEntry} (h : w.text.length < 31) : w.plain := by
  intro k hk
  have := hk.length_le
  rw [marked_header.length] at this
  omega

theorem plainEntries_unambiguous : ∀ ws' : List LogEntry, (∀ w ∈ ws', w.plain) →
    fileText (lit "log") (ws'.map LogEntry.record) =
      fileText (lit "log") ([⟨newYear (lit "ENG001") (by decide), lit "a", by decide⟩].map LogEntry.record) →
    ws' = [⟨newYear (lit "ENG001") (by decide), lit "a", by decide⟩] :=
  (log_unambiguous_iff (lit "log") _).1.2 fun w hw => plain_of_short (by
    rw [List.mem_singleton.1 hw]
    decide)

end DistRes
