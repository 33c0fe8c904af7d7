import DistRes.Channel
import DistRes.Server
import DistRes.Connection

/-!
# `read_message` on any stream

`FramedReader.read_message` over bytes that need not come from `encode`, in the chunks that `recv`
happens to return.

* `readMessage` — the loop of `recv` calls and the decoding of one line;
* `outcome_eq` — the outcome of each call is a matter of the bytes only;
* `none_at_end_iff` — `None` means the end of the stream exactly if no line is the JSON text of `null`.
-/

namespace DistRes

open Lib

/-! ## The reader -/

/-- A `FramedReader`, with the chunks that `recv` is going to return before it returns `b""`. -/
structure FramedReader where
  buffer : Bytes := []
  incoming : List Bytes

/-- The bytes that the reader has not yet made into messages. -/
def FramedReader.stream (r : FramedReader) : Bytes := r.buffer ++ r.incoming.flatten

section Read

variable {M : Type} (J : JsonCodec M)

/-- The loop of `read_message`. -/
def readLoop (buffer : Bytes) : List Bytes → ReadResult M × FramedReader
  | [] =>
    match splitLine delimiter buffer with
    | some (line, rest) => (J.decode line, ⟨rest, []⟩)
    | none => (.closed, ⟨buffer, []⟩)
  | chunk :: chunks =>
    match splitLine delimiter buffer with
    | some (line, rest) => (J.decode line, ⟨rest, chunk :: chunks⟩)
    | none => if chunk = [] then (.closed, ⟨buffer, chunks⟩) else readLoop (buffer ++ chunk) chunks

/-- `read_message`. -/
def readMessage (r : FramedReader) : ReadResult M × FramedReader := readLoop J r.buffer r.incoming

/-- The reader after `i` calls. -/
def readerAfter : ℕ → FramedReader → FramedReader
  | 0, r => r
  | i + 1, r => readerAfter i (readMessage J r).2

/-- The outcome of the call after `i` calls. -/
def outcome (i : ℕ) (r : FramedReader) : ReadResult M := (readMessage J (readerAfter J i r)).1

/-- What the stream says about the call after `i` calls: its line, or that there is none. -/
def lineOutcome (i : ℕ) (stream : Bytes) : ReadResult M :=
  match (completeLines delimiter stream)[i]? with
  | some line => J.decode line
  | none => .closed

/-- `None`, at the end of the stream or as the value of a line. -/
def ReadResult.isNone : ReadResult Json → Bool
  | .closed => true
  | .message .null => true
  | _ => false

end Read

/-! ## Its calls -/

section Calls

variable {M : Type} {J : JsonCodec M} {r : FramedReader}

theorem readMessage_incoming : (readMessage J r).2.incoming <:+ r.incoming := by
  obtain ⟨buffer, incoming⟩ := r
  unfold readMessage
  induction incoming generalizing buffer with
  | nil =>
    rw [readLoop]
    split
    · exact List.suffix_refl _
    · exact List.suffix_refl _
  | cons chunk chunks ih =>
    rw [readLoop]
    split
    · exact List.suffix_refl _
    · split_ifs
      · exact List.suffix_cons _ _
      · exact (ih _).trans (List.suffix_cons _ _)

/-- **One call** takes the first line of the stream, or finds that there is none. -/
theorem readMessage_cases (hne : ∀ chunk ∈ r.incoming, chunk ≠ []) :
    (∃ line rest, splitLine delimiter r.stream = some (line, rest) ∧
      (readMessage J r).1 = J.decode line ∧ (readMessage J r).2.stream = rest) ∨
    (splitLine delimiter r.stream = none ∧ (readMessage J r).1 = .closed ∧
      (readMessage J r).2.stream = r.stream) := by
  obtain ⟨buffer, incoming⟩ := r
  unfold readMessage FramedReader.stream
  induction incoming generalizing buffer with
  | nil =>
    rw [readLoop, List.flatten_nil, List.append_nil]
    cases hb : splitLine delimiter buffer with
    | some l => exact .inl ⟨l.1, l.2, rfl, rfl, List.append_nil _⟩
    | none => exact .inr ⟨rfl, rfl, List.append_nil _⟩
  | cons chunk chunks ih =>
    rw [readLoop]
    cases hb : splitLine delimiter buffer with
    | some l => exact .inl ⟨l.1, l.2 ++ (chunk :: chunks).flatten, splitLine_append hb _, rfl, rfl⟩
    | none =>
      have hchunk : chunk ≠ [] := hne chunk List.mem_cons_self
      simp only [if_neg hchunk]
      have := ih (buffer ++ chunk) fun c hc => hne c (List.mem_cons_of_mem _ hc)
      rw [List.append_assoc] at this
      rw [List.flatten_cons]
      exact this

/-- The calls so far have taken as many lines off the stream. -/
theorem readerAfter_stream (hne : ∀ chunk ∈ r.incoming, chunk ≠ []) (i : ℕ) :
    (readerAfter J i r).stream = dropLines delimiter i r.stream ∧
      ∀ chunk ∈ (readerAfter J i r).incoming, chunk ≠ [] := by
  induction i generalizing r with
  | zero => exact ⟨rfl, hne⟩
  | succ i ih =>
    have hne' : ∀ chunk ∈ (readMessage J r).2.incoming, chunk ≠ [] :=
      fun chunk hc => hne chunk (readMessage_incoming.subset hc)
    obtain ⟨h1, h2⟩ := ih hne'
    refine ⟨?_, h2⟩
    rw [readerAfter, h1]
    rcases readMessage_cases (J := J) hne with ⟨line, rest, hs, -, hrest⟩ | ⟨hs, -, hrest⟩
    · rw [hrest, dropLines_of_some hs]
    · rw [hrest, dropLines_of_none hs, dropLines_of_none hs]

/-- **The outcome of a call** is a matter of the bytes, not of the chunks. -/
theorem outcome_eq (hne : ∀ chunk ∈ r.incoming, chunk ≠ []) (i : ℕ) :
    outcome J i r = lineOutcome J i r.stream := by
  obtain ⟨h1, h2⟩ := readerAfter_stream (J := J) hne i
  have hline : (completeLines delimiter r.stream)[i]? =
      (completeLines delimiter (dropLines delimiter i r.stream)).head? := by
    rw [completeLines_dropLines, List.head?_drop]
  rw [lineOutcome, outcome, hline, ← h1]
  rcases readMessage_cases (J := J) h2 with ⟨line, rest, hs, hout, -⟩ | ⟨hs, hout, -⟩
  · rw [hout, completeLines_of_some hs, List.head?_cons]
  · rw [hout, completeLines_of_none hs, List.head?_nil]

end Calls

/-! ## `None` -/

section EndOfStream

variable {J : JsonCodec Json}

@[simp] theorem ReadResult.isNone_eq_true {o : ReadResult Json} :
    o.isNone = true ↔ o = .closed ∨ o = .message .null := by
  unfold ReadResult.isNone
  split
  · simp
  · simp
  · rename_i h1 h2
    constructor
    · intro h
      cases h
    · rintro (h | h)
      · exact absurd h h1
      · exact absurd h h2

theorem decode_ne_closed (line : Bytes) : J.decode line ≠ .closed := by
  unfold JsonCodec.decode
  split
  · nofun
  · nofun

/-- A call for which there is a line returns `None` exactly if the line is the text of `null`. -/
theorem isNone_lineOutcome {stream : Bytes} {i : ℕ} :
    (lineOutcome J i stream).isNone = true ↔
      (completeLines delimiter stream).length ≤ i ∨
        ∃ line, (completeLines delimiter stream)[i]? = some line ∧ J.decode line = .message .null := by
  unfold lineOutcome
  cases h : (completeLines delimiter stream)[i]? with
  | none => simp [List.getElem?_eq_none_iff.1 h]
  | some line =>
    obtain ⟨hi, -⟩ := List.getElem?_eq_some_iff.1 h
    simp [decode_ne_closed, Nat.not_le.2 hi]

/-- **`read_message` on any stream.**  The outcome of each call is that of its line, whatever the
chunks, and the call takes that line and no more; `None` means the end of the stream exactly if no
line is the JSON text of `null`. -/
theorem none_at_end_iff (J : JsonCodec Json) (r : FramedReader)
    (hne : ∀ chunk ∈ r.incoming, chunk ≠ []) :
    ((∀ i, outcome J i r = lineOutcome J i r.stream) ∧
      (∀ i, (readerAfter J i r).stream = dropLines delimiter i r.stream) ∧
      ∀ i, (outcome J i r).isNone = true ↔ (completeLines delimiter r.stream).length ≤ i) ↔
    ∀ line ∈ completeLines delimiter r.stream, J.decode line ≠ .message .null := by
  constructor
  · rintro ⟨-, -, hnone⟩ line hline hnull
    obtain ⟨i, hi⟩ := List.mem_iff_getElem?.1 hline
    obtain ⟨hlt, -⟩ := List.getElem?_eq_some_iff.1 hi
    have : (completeLines delimiter r.stream).length ≤ i := by
      rw [← hnone, outcome_eq hne, isNone_lineOutcome]
      exact .inr ⟨line, hi, hnull⟩
    omega
  · intro hnull
    refine ⟨outcome_eq hne, fun i => (readerAfter_stream hne i).1, fun i => ?_⟩
    rw [outcome_eq hne, isNone_lineOutcome]
    constructor
    · rintro (h | ⟨line, hi, h⟩)
      · exact h
      · exact absurd h (hnull line (List.mem_of_getElem? hi))
    · exact .inl

/-- JSON on the constants. -/
def constants : JsonCodec Json where
  dumps
    | .bool true => lit "true"
    | .bool false => lit "false"
    | _ => lit "null"
  loads t :=
    if t = lit "null" then some .null
    else if t = lit "true" then some (.bool true)
    else if t = lit "false" then some (.bool false)
    else none

/-- Three lines in four chunks, one of them not UTF-8, and the text of `null` without a newline. -/
def malformedLine : FramedReader where
  incoming := [utf8 (lit "tr"), utf8 (lit "ue\n") ++ [255], utf8 (lit "\nfalse\nnu"), utf8 (lit "ll")]

theorem malformedLine_is_one_line :
    outcome constants 1 malformedLine = .raised ∧
      outcome constants 2 malformedLine = .message (.bool false) ∧
      ∀ i, (outcome constants i malformedLine).isNone = true ↔ 3 ≤ i := by
  have hlines : completeLines delimiter malformedLine.stream =
      [utf8 (lit "true"), [255], utf8 (lit "false")] := by decide
  obtain ⟨-, -, hnone⟩ := (none_at_end_iff constants malformedLine (by decide)).2 (by
    rw [hlines]
    intro line hline
    simp only [List.mem_cons, List.not_mem_nil, or_false] at hline
    rcases hline with rfl | rfl | rfl
    · exact nofun
    · exact nofun
    · exact nofun)
  refine ⟨rfl, rfl, ?_⟩
  rw [hlines] at hnone
  exact hnone

/-- The peer sends `null` and then a message. -/
def nullLine : FramedReader where
  incoming := [utf8 (lit "null\ntrue\n")]

/-- The first call returns `None`, and the next one a message. -/
theorem nullLine_is_not_the_end :
    (outcome constants 0 nullLine).isNone = true ∧
      ¬(completeLines delimiter nullLine.stream).length ≤ 0 ∧
      outcome constants 1 nullLine = .message (.bool true) :=
  ⟨rfl, by decide, rfl⟩

end EndOfStream

/-! ## What its callers make of it -/

/-- The outcome as `ClientHandler.run` takes it. -/
def ReadResult.inHandler : ReadResult Json → HandlerAct
  | .message m => .receive m
  | .closed | .raised => .hangup

/-- The outcome as `_listen_loop` takes it. -/
def ReadResult.inListener {K : Type} : ReadResult Json → ClientAct K
  | .message m => .receive m
  | .closed | .raised => .unreadable

section Callers

variable {o : ReadResult Json}

/-- On `None` the handler ends its session, ... -/
theorem isNone_ends_handler {H : Type} [DecidableEq H] {cfg : Config} {h : H} {s : DistResServer H}
    {l : ClientHandler H} (hpc : l.pc = .recv) (ho : o.isNone = true) :
    handlerStep cfg h s l o.inHandler = some (s, l.cleanup) := by
  obtain ⟨userId, holdsSession, pc⟩ := l
  subst hpc
  rcases ReadResult.isNone_eq_true.1 ho with rfl | rfl
  · rfl
  · rfl

/-- ... and the listener reconnects. -/
theorem isNone_recovers {K : Type} [DecidableEq K] {s : ServerConnection K} {k : K} (ho : o.isNone = true) :
    listenerStep s (.reading k) o.inListener = some (s, .recover) := by
  rcases ReadResult.isNone_eq_true.1 ho with rfl | rfl
  · rfl
  · rfl

end Callers

end DistRes
