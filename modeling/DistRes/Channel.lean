import DistRes.Lib.Framing
import DistRes.Lib.Machine
import DistRes.Protocol

/-!
# The framed channel (`protocol.py`)

`encode`, `send_message` and `FramedReader.read_message`, and any number of threads that send on one
socket through `ClientHandler._send` (or `ServerConnection._raw_send`), which holds the send lock
while `sendall` hands the bytes over in pieces.  The receiver gets the bytes in the chunks that
`recv` cuts, up to the position at which the stream ends.

* `channel_delivers` — the receiver gets the messages, whole and in the order of the send lock, as
  far as their delimiters have arrived.
-/

namespace DistRes

open Lib

/-! ## Encoding -/

/-- `json.dumps` and `json.loads` on the messages `M`; `loads` may raise. -/
structure JsonCodec (M : Type) where
  dumps : M → Text
  loads : Text → Option M

/-- What the protocol relies on: the text is ASCII without a newline, and loading inverts dumping. -/
structure JsonCodec.Lossless {M : Type} (J : JsonCodec M) : Prop where
  ascii : ∀ m, ∀ c ∈ J.dumps m, c.val < 0x80 ∧ c.val ≠ 10
  inverts : ∀ m, J.loads (J.dumps m) = some m

def delimiter : UInt8 := 10

section Encode

variable {M : Type} (J : JsonCodec M)

/-- The line of a message, without its delimiter. -/
def JsonCodec.payload (m : M) : Bytes := utf8 (J.dumps m)

def JsonCodec.encode (m : M) : Bytes := J.payload m ++ [delimiter]

/-- The outcome of a `read_message`: a message, `None`, or an exception. -/
inductive ReadResult (M : Type)
  | message (m : M)
  | closed
  | raised

/-- `json.loads(line.decode("utf-8"))`. -/
def JsonCodec.decode (line : Bytes) : ReadResult M :=
  match (utf8Decode line).bind J.loads with
  | some m => .message m
  | none => .raised

variable {J}

theorem delimiter_notMem_payload (hJ : J.Lossless) (m : M) : delimiter ∉ J.payload m := by
  intro hm
  obtain ⟨c, hc, hb⟩ := List.mem_flatMap.1 hm
  obtain ⟨hlt, hne⟩ := hJ.ascii m c hc
  rw [utf8Char, if_pos hlt, List.mem_singleton] at hb
  have := congrArg UInt8.toNat hb
  rw [toNat_ofNat (by omega)] at this
  exact hne this.symm

theorem decode_payload (hJ : J.Lossless) (m : M) : J.decode (J.payload m) = .message m := by
  have henc : encodable (J.dumps m) = true := by
    refine List.all_eq_true.2 fun c hc => ?_
    have := (hJ.ascii m c hc).1
    simp only [isSurrogate, Bool.not_eq_true', Bool.and_eq_false_iff, decide_eq_false_iff_not]
    omega
  rw [JsonCodec.decode, JsonCodec.payload, utf8Decode_utf8 _ henc, Option.bind_some, hJ.inverts]

end Encode

/-! ## The socket and its threads -/

/-- Where a thread is in `_send`. -/
inductive SenderPc (M : Type)
  | idle
  | waiting (m : M)
  | sending (rest : Bytes)

/-- One direction of a socket.  `wire` is what `sendall` has handed over, `taken` how much of it
`recv` has returned, and `limit` the position at which the stream ends for the receiver. -/
structure Link (T M : Type) where
  sendLock : Option T := none
  sender : T → SenderPc M := fun _ => .idle
  wire : Bytes := []
  broken : Bool := false
  limit : Option ℕ := none
  taken : ℕ := 0
  buffer : Bytes := []
  reading : Bool := false

/-- What the threads, the receiver and the network do. -/
inductive LinkAct (T M : Type)
  /-- a thread calls `_send` -/
  | send (t : T) (m : M)
  /-- it gets the send lock -/
  | lock (t : T)
  /-- `sendall` hands `n` bytes over -/
  | piece (t : T) (n : ℕ)
  /-- `sendall` is done, and the lock is released -/
  | unlock (t : T)
  /-- `sendall` raises; the socket is broken from then on -/
  | fail (t : T)
  /-- the stream is to end at byte `n` -/
  | cut (n : ℕ)
  /-- the receiver calls `read_message` -/
  | read
  /-- `recv` returns `n` bytes -/
  | recv (n : ℕ)
  /-- `recv` returns `b""` -/
  | eof
  /-- the first line of the buffer is returned -/
  | take

section Link

variable {T M : Type} [DecidableEq T] (J : JsonCodec M)

def linkStep (s : Link T M) : LinkAct T M → Option (Link T M)
  | .send t m =>
    match s.sender t with
    | .idle => some { s with sender := Function.update s.sender t (.waiting m) }
    | _ => none
  | .lock t =>
    match s.sender t, s.sendLock with
    | .waiting m, none =>
      some { s with sendLock := some t, sender := Function.update s.sender t (.sending (J.encode m)) }
    | _, _ => none
  | .piece t n =>
    match s.sender t with
    | .sending rest =>
      if 0 < n ∧ n ≤ rest.length ∧ s.broken = false then
        some { s with
          wire := s.wire ++ rest.take n
          sender := Function.update s.sender t (.sending (rest.drop n)) }
      else none
    | _ => none
  | .unlock t =>
    match s.sender t with
    | .sending [] => some { s with sendLock := none, sender := Function.update s.sender t .idle }
    | _ => none
  | .fail t =>
    match s.sender t with
    | .sending _ =>
      some { s with sendLock := none, sender := Function.update s.sender t .idle, broken := true }
    | _ => none
  | .cut n => if s.limit = none ∧ s.taken ≤ n then some { s with limit := some n } else none
  | .read => if s.reading then none else some { s with reading := true }
  | .recv n =>
    if s.reading = true ∧ delimiter ∉ s.buffer ∧ 0 < n ∧ n ≤ 4096 ∧ s.taken + n ≤ s.wire.length ∧
        ∀ k ∈ s.limit, s.taken + n ≤ k then
      some { s with
        taken := s.taken + n
        buffer := s.buffer ++ (s.wire.drop s.taken).take n }
    else none
  | .eof =>
    if s.reading = true ∧ delimiter ∉ s.buffer ∧ s.limit = some s.taken then
      some { s with reading := false }
    else none
  | .take =>
    match s.reading, splitLine delimiter s.buffer with
    | true, some (_, rest) => some { s with reading := false, buffer := rest }
    | _, _ => none

/-- What was called, what got the send lock, and what `read_message` returned. -/
structure LinkLog (T M : Type) where
  calls : List (T × M) := []
  sent : List (T × M) := []
  results : List (ReadResult M) := []

def LinkLog.next (L : LinkLog T M) (s : Link T M) : LinkAct T M → LinkLog T M
  | .send t m => { L with calls := L.calls ++ [(t, m)] }
  | .lock t =>
    match s.sender t with
    | .waiting m => { L with sent := L.sent ++ [(t, m)] }
    | _ => L
  | .eof => { L with results := L.results ++ [.closed] }
  | .take =>
    match splitLine delimiter s.buffer with
    | some (line, _) => { L with results := L.results ++ [J.decode line] }
    | none => L
  | _ => L

/-- A socket, with what has happened on it. -/
def linkMachine (T : Type) [DecidableEq T] : Machine (Link T M × LinkLog T M) (LinkAct T M) :=
  (⟨fun s => s = {}, linkStep J⟩ : Machine (Link T M) (LinkAct T M)).withHistory ({} : LinkLog T M)
    fun L s a _ => L.next J s a

end Link

/-! ## The invariant -/

section Invariant

variable {T M : Type} [DecidableEq T] {J : JsonCodec M}

/-- The messages in the order of the send lock. -/
def LinkLog.messages (L : LinkLog T M) : List M := L.sent.map Prod.snd

/-- The bytes of messages, one after the other. -/
def JsonCodec.stream (J : JsonCodec M) (ms : List M) : Bytes := frame delimiter J.payload ms

/-- What the holder of the send lock has not handed over yet. -/
def Link.rest (s : Link T M) : Bytes :=
  match s.sendLock with
  | some t =>
    match s.sender t with
    | .sending rest => rest
    | _ => []
  | none => []

/-- The call of `t` that waits for the send lock. -/
def Link.waiting (s : Link T M) (t : T) : List (T × M) :=
  match s.sender t with
  | .waiting m => [(t, m)]
  | _ => []

/-- **The sending side.**  What is on the wire and what the holder of the lock has left are the
messages in the order of the lock. -/
structure SendInv (J : JsonCodec M) (s : Link T M) (L : LinkLog T M) : Prop where
  holder : ∀ t, (∃ rest, s.sender t = .sending rest) ↔ s.sendLock = some t
  whole : s.broken = false → s.wire ++ s.rest = J.stream L.messages
  onWire : s.wire <+: J.stream L.messages
  order : ∀ t, L.calls.filter (fun c => c.1 = t) = L.sent.filter (fun c => c.1 = t) ++ s.waiting t

/-- **The receiving side.**  What has been taken off the wire is what has been returned and the
buffer. -/
structure ReadInv (J : JsonCodec M) (s : Link T M) (ms : List M) (results : List (ReadResult M)) :
    Prop where
  taken_le : s.taken ≤ s.wire.length
  limit_le : ∀ n ∈ s.limit, s.taken ≤ n
  returned : ∃ got k, results = got.map .message ++ List.replicate k .closed ∧ got <+: ms ∧
    s.wire.take s.taken = J.stream got ++ s.buffer ∧
    (k ≠ 0 → s.limit = some s.taken ∧ delimiter ∉ s.buffer)

variable {s s' : Link T M} {L : LinkLog T M} {ms : List M} {results : List (ReadResult M)} {t : T}

/-! ### The receiving side -/

section

omit [DecidableEq T]

/-- More is sent, or the end of the stream is fixed. -/
theorem ReadInv.grow (hi : ReadInv J s ms results) {ms' : List M} (hms : ms <+: ms')
    (hw : s.wire <+: s'.wire) (ht : s'.taken = s.taken) (hb : s'.buffer = s.buffer)
    (hl : ∀ n, s.limit = some n → s'.limit = some n) (hl' : ∀ n ∈ s'.limit, s.taken ≤ n) :
    ReadInv J s' ms' results := by
  refine ⟨?_, ht ▸ hl', ?_⟩
  · rw [ht]
    exact Nat.le_trans hi.taken_le hw.length_le
  · obtain ⟨got, k, h1, h2, h3, h4⟩ := hi.returned
    refine ⟨got, k, h1, h2.trans hms, ?_, fun hk => ?_⟩
    · obtain ⟨u, hu⟩ := hw
      rw [ht, hb, ← hu, List.take_append_of_le_length hi.taken_le, h3]
    · rw [ht, hb]
      exact ⟨hl _ (h4 hk).1, (h4 hk).2⟩

theorem ReadInv.recv (hi : ReadInv J s ms results) {n : ℕ} (hn : 0 < n)
    (hlen : s.taken + n ≤ s.wire.length) (hlim : ∀ k ∈ s.limit, s.taken + n ≤ k) :
    ReadInv J { s with
      taken := s.taken + n
      buffer := s.buffer ++ (s.wire.drop s.taken).take n } ms results := by
  refine ⟨hlen, hlim, ?_⟩
  obtain ⟨got, k, h1, h2, h3, h4⟩ := hi.returned
  refine ⟨got, k, h1, h2, ?_, fun hk => ?_⟩
  · rw [List.take_add, h3, List.append_assoc]
  · have := hlim _ (h4 hk).1
    omega

theorem ReadInv.eof (hi : ReadInv J s ms results) (hl : s.limit = some s.taken)
    (hb : delimiter ∉ s.buffer) :
    ReadInv J { s with reading := false } ms (results ++ [.closed]) := by
  refine ⟨hi.taken_le, hi.limit_le, ?_⟩
  obtain ⟨got, k, h1, h2, h3, h4⟩ := hi.returned
  refine ⟨got, k + 1, ?_, h2, h3, fun _ => ⟨hl, hb⟩⟩
  rw [h1, List.append_assoc, List.replicate_succ']

/-- A line of the buffer is the next message. -/
theorem ReadInv.take (hJ : J.Lossless) (hi : ReadInv J s ms results) (hw : s.wire <+: J.stream ms)
    {line rest : Bytes} (hline : splitLine delimiter s.buffer = some (line, rest)) :
    ReadInv J { s with reading := false, buffer := rest } ms (results ++ [J.decode line]) := by
  refine ⟨hi.taken_le, hi.limit_le, ?_⟩
  obtain ⟨got, k, h1, ⟨ms', rfl⟩, h3, h4⟩ := hi.returned
  obtain ⟨hbuf, hno⟩ := splitLine_eq_some.1 hline
  -- with a line in the buffer, the end of the stream has not been reported
  have hk : k = 0 := by
    by_contra hk
    exact (h4 hk).2 (by rw [hbuf]; simp)
  -- the buffer is at the front of the messages that have not been returned
  have hp : line ++ delimiter :: rest <+: J.stream ms' := by
    obtain ⟨u, hu⟩ := (List.take_prefix s.taken s.wire).trans hw
    rw [h3, JsonCodec.stream, JsonCodec.stream, frame_append, List.append_assoc, List.append_cancel_left_eq,
      hbuf] at hu
    exact ⟨u, hu⟩
  obtain ⟨m, ms'', rfl, rfl, -⟩ := frame_line (delimiter_notMem_payload hJ) hno hp
  refine ⟨got ++ [m], 0, ?_, ⟨ms'', by simp⟩, ?_, fun hk => absurd rfl hk⟩
  · rw [h1, hk, decode_payload hJ]
    simp
  · rw [h3, hbuf]
    simp [JsonCodec.stream]

end

/-! ### The sending side -/

theorem stream_append (J : JsonCodec M) (ms : List M) (m : M) :
    J.stream (ms ++ [m]) = J.stream ms ++ J.encode m := by
  simp [JsonCodec.stream, JsonCodec.encode]

omit [DecidableEq T] in
theorem rest_of_lock (hl : s.sendLock = some t) {rest : Bytes} (ht : s.sender t = .sending rest) :
    s.rest = rest := by
  simp only [Link.rest, hl, ht]

theorem SendInv.send (hi : SendInv J s L) (ht : s.sender t = .idle) (m : M) :
    SendInv J { s with sender := Function.update s.sender t (.waiting m) }
      { L with calls := L.calls ++ [(t, m)] } := by
  have hne : ∀ u, s.sendLock = some u → u ≠ t := by
    rintro u hu rfl
    obtain ⟨rest, hr⟩ := (hi.holder u).2 hu
    rw [ht] at hr
    cases hr
  have hrest : Link.rest { s with sender := Function.update s.sender t (.waiting m) } = s.rest := by
    simp only [Link.rest]
    cases hl : s.sendLock with
    | none => rfl
    | some u => simp only [Function.update_of_ne (hne u hl)]
  refine ⟨fun u => ?_, fun hb => ?_, hi.onWire, fun u => ?_⟩
  · by_cases hu : u = t
    · subst hu
      simp only [Function.update_self, reduceCtorEq, exists_false, false_iff]
      exact fun hl => hne u hl rfl
    · simp only [Function.update_of_ne hu]
      exact hi.holder u
  · rw [hrest]
    exact hi.whole hb
  · have := hi.order u
    simp only [Link.waiting] at this ⊢
    rw [List.filter_append, this]
    by_cases hu : u = t
    · subst hu
      simp [ht]
    · simp [Function.update_of_ne hu, Ne.symm hu]

theorem SendInv.lock (hi : SendInv J s L) {m : M} (ht : s.sender t = .waiting m)
    (hl : s.sendLock = none) :
    SendInv J { s with sendLock := some t, sender := Function.update s.sender t (.sending (J.encode m)) }
      { L with sent := L.sent ++ [(t, m)] } := by
  have hmsgs : LinkLog.messages { L with sent := L.sent ++ [(t, m)] } = L.messages ++ [m] := by
    simp [LinkLog.messages]
  refine ⟨fun u => ?_, fun hb => ?_, ?_, fun u => ?_⟩
  · by_cases hu : u = t
    · subst hu
      simp
    · have := hi.holder u
      rw [hl] at this
      simp only [Function.update_of_ne hu, this, reduceCtorEq, Option.some.injEq, false_iff]
      exact Ne.symm hu
  · have := hi.whole hb
    rw [show s.rest = [] by simp only [Link.rest, hl], List.append_nil] at this
    rw [hmsgs, stream_append, rest_of_lock (t := t) rfl (Function.update_self ..), this]
  · rw [hmsgs, stream_append]
    exact hi.onWire.trans (List.prefix_append _ _)
  · have := hi.order u
    simp only [Link.waiting] at this ⊢
    rw [List.filter_append, this]
    by_cases hu : u = t
    · subst hu
      simp [ht]
    · simp [Function.update_of_ne hu, Ne.symm hu]

theorem SendInv.piece (hi : SendInv J s L) {rest : Bytes} (ht : s.sender t = .sending rest)
    (hb : s.broken = false) (n : ℕ) :
    SendInv J { s with
      wire := s.wire ++ rest.take n
      sender := Function.update s.sender t (.sending (rest.drop n)) } L := by
  have hl : s.sendLock = some t := (hi.holder t).1 ⟨rest, ht⟩
  have hw := hi.whole hb
  rw [rest_of_lock hl ht] at hw
  refine ⟨fun u => ?_, fun _ => ?_, ?_, fun u => ?_⟩
  · by_cases hu : u = t
    · subst hu
      simp [hl]
    · simp only [Function.update_of_ne hu]
      exact hi.holder u
  · have hrest : Link.rest { s with
        wire := s.wire ++ rest.take n
        sender := Function.update s.sender t (.sending (rest.drop n)) } = rest.drop n := by
      simp only [Link.rest, hl, Function.update_self]
    rw [hrest, List.append_assoc, List.take_append_drop, hw]
  · rw [← hw]
    exact List.prefix_append_right_inj _ |>.2 (List.take_prefix _ _)
  · rw [hi.order u]
    simp only [Link.waiting]
    by_cases hu : u = t
    · subst hu
      simp [ht]
    · simp [Function.update_of_ne hu]

/-- The holder of the lock leaves, done or with an exception. -/
theorem SendInv.leave (hi : SendInv J s L) {rest : Bytes} (ht : s.sender t = .sending rest)
    (b : Bool) (hb : b = false → s.broken = false ∧ rest = []) :
    SendInv J { s with sendLock := none, sender := Function.update s.sender t .idle, broken := b } L := by
  have hl : s.sendLock = some t := (hi.holder t).1 ⟨rest, ht⟩
  refine ⟨fun u => ?_, fun h => ?_, hi.onWire, fun u => ?_⟩
  · by_cases hu : u = t
    · subst hu
      simp
    · have := hi.holder u
      rw [hl] at this
      simp only [Function.update_of_ne hu, this, Option.some.injEq, reduceCtorEq, iff_false]
      exact Ne.symm hu
  · obtain ⟨h1, h2⟩ := hb h
    have := hi.whole h1
    rw [rest_of_lock hl ht, h2] at this
    exact this
  · rw [hi.order u]
    simp only [Link.waiting]
    by_cases hu : u = t
    · subst hu
      simp [ht]
    · simp [Function.update_of_ne hu]

theorem linkInv_of_reachable (hJ : J.Lossless) {p : Link T M × LinkLog T M}
    (hr : (linkMachine J T).Reachable p) :
    SendInv J p.1 p.2 ∧ ReadInv J p.1 p.2.messages p.2.results := by
  refine hr.invariant (fun p => SendInv J p.1 p.2 ∧ ReadInv J p.1 p.2.messages p.2.results) ?_ ?_
  · rintro ⟨s, L⟩ ⟨hs, hL⟩
    simp only at hs hL ⊢
    subst hs hL
    refine ⟨⟨by simp, fun _ => rfl, List.nil_prefix, fun _ => rfl⟩, ⟨Nat.le_refl 0, nofun, ?_⟩⟩
    exact ⟨[], 0, rfl, List.nil_prefix, rfl, fun hk => absurd rfl hk⟩
  rintro ⟨s, L⟩ a ⟨s', L'⟩ - ⟨hS, hR⟩ hs
  obtain ⟨hs, hL⟩ := Machine.withHistory_step.1 hs
  simp only at hL hS hR ⊢
  subst hL
  have hs : linkStep J s a = some s' := hs
  cases a with
  | send t m =>
    simp only [linkStep] at hs
    split at hs
    · rename_i ht
      cases hs
      exact ⟨hS.send ht m, hR.grow (List.prefix_refl _) (List.prefix_refl _) rfl rfl (fun _ => id)
        hR.limit_le⟩
    · cases hs
  | lock t =>
    simp only [linkStep] at hs
    split at hs
    · rename_i m ht hl
      cases hs
      have hL : L.next J s (.lock t) = { L with sent := L.sent ++ [(t, m)] } := by
        simp only [LinkLog.next, ht]
      rw [hL]
      refine ⟨hS.lock ht hl, hR.grow ?_ (List.prefix_refl _) rfl rfl (fun _ => id) hR.limit_le⟩
      simp [LinkLog.messages]
    · cases hs
  | piece t n =>
    simp only [linkStep] at hs
    split at hs
    · rename_i rest ht
      split_ifs at hs with hc
      cases hs
      exact ⟨hS.piece ht hc.2.2 n, hR.grow (List.prefix_refl _) (List.prefix_append _ _) rfl rfl
        (fun _ => id) hR.limit_le⟩
    · cases hs
  | unlock t =>
    simp only [linkStep] at hs
    split at hs
    · rename_i ht
      cases hs
      exact ⟨hS.leave ht s.broken fun hb => ⟨hb, rfl⟩, hR.grow (List.prefix_refl _)
        (List.prefix_refl _) rfl rfl (fun _ => id) hR.limit_le⟩
    · cases hs
  | fail t =>
    simp only [linkStep] at hs
    split at hs
    · rename_i rest ht
      cases hs
      exact ⟨hS.leave ht true nofun, hR.grow (List.prefix_refl _) (List.prefix_refl _) rfl rfl
        (fun _ => id) hR.limit_le⟩
    · cases hs
  | cut n =>
    simp only [linkStep] at hs
    split_ifs at hs with hc
    cases hs
    refine ⟨⟨hS.holder, hS.whole, hS.onWire, hS.order⟩, hR.grow (List.prefix_refl _)
      (List.prefix_refl _) rfl rfl (fun k hk => ?_) fun k hk => ?_⟩
    · rw [hc.1] at hk
      cases hk
    · cases hk
      exact hc.2
  | read =>
    simp only [linkStep] at hs
    split_ifs at hs with hc
    cases hs
    exact ⟨⟨hS.holder, hS.whole, hS.onWire, hS.order⟩, hR.grow (List.prefix_refl _)
      (List.prefix_refl _) rfl rfl (fun _ => id) hR.limit_le⟩
  | recv n =>
    simp only [linkStep] at hs
    split_ifs at hs with hc
    obtain ⟨-, -, hn, -, hlen, hlim⟩ := hc
    cases hs
    exact ⟨⟨hS.holder, hS.whole, hS.onWire, hS.order⟩, hR.recv hn hlen hlim⟩
  | eof =>
    simp only [linkStep] at hs
    split_ifs at hs with hc
    cases hs
    exact ⟨⟨hS.holder, hS.whole, hS.onWire, hS.order⟩, hR.eof hc.2.2 hc.2.1⟩
  | take =>
    simp only [linkStep] at hs
    split at hs
    · rename_i line rest hread hline
      cases hs
      have hL : L.next J s .take = { L with results := L.results ++ [J.decode line] } := by
        simp only [LinkLog.next, hline]
      rw [hL]
      exact ⟨⟨hS.holder, hS.whole, hS.onWire, hS.order⟩, hR.take hJ hS.onWire hline⟩
    · cases hs

/-- **The framed channel.**  `read_message` returns messages of the order of the send lock, from the
first on, none changed, left out or returned twice, and then `None`.  Once it waits for more bytes,
these are the messages whose delimiter has been received; when it has returned `None`, those whose
delimiter came before the end of the stream.  Each thread's messages are in the order of its calls. -/
theorem channel_delivers (hJ : J.Lossless) {s : Link T M} {L : LinkLog T M}
    (hr : (linkMachine J T).Reachable (s, L)) :
    (∃ got k, L.results = got.map .message ++ List.replicate k .closed ∧ got <+: L.messages ∧
      (delimiter ∉ s.buffer → got = arrived J.payload L.messages s.taken) ∧
      (k ≠ 0 → s.limit = some s.taken ∧ delimiter ∉ s.buffer) ∧
      (s.sendLock = none → s.broken = false → s.taken = s.wire.length → delimiter ∉ s.buffer →
        got = L.messages)) ∧
    s.wire <+: (L.messages.map J.encode).flatten ∧
    ∀ t, L.sent.filter (fun c => c.1 = t) <+: L.calls.filter (fun c => c.1 = t) := by
  obtain ⟨hS, hR⟩ := linkInv_of_reachable hJ hr
  simp only at hS hR
  refine ⟨?_, hS.onWire, fun t => ?_⟩
  · obtain ⟨got, k, h1, h2, h3, h4⟩ := hR.returned
    have harr : delimiter ∉ s.buffer → got = arrived J.payload L.messages s.taken := by
      intro hb
      obtain ⟨ms', hms⟩ := h2
      have hp : s.buffer <+: J.stream ms' := by
        obtain ⟨u, hu⟩ := (List.take_prefix s.taken s.wire).trans hS.onWire
        rw [h3, ← hms, JsonCodec.stream, JsonCodec.stream, frame_append, List.append_assoc,
          List.append_cancel_left_eq] at hu
        exact ⟨u, hu⟩
      have harr : arrived J.payload (got ++ ms') (frame delimiter J.payload got ++ s.buffer).length = got :=
        arrived_of_frame hb hp
      rw [← JsonCodec.stream, ← h3, List.length_take, Nat.min_eq_left hR.taken_le, hms] at harr
      exact harr.symm
    refine ⟨got, k, h1, h2, harr, h4, fun hl hbr ht hb => ?_⟩
    have hw := hS.whole hbr
    rw [show s.rest = [] by simp only [Link.rest, hl], List.append_nil] at hw
    obtain ⟨ms', hms⟩ := h2
    rw [ht, List.take_length, hw, ← hms, JsonCodec.stream, JsonCodec.stream, frame_append,
      List.append_cancel_left_eq] at h3
    rcases ms' with _ | ⟨m, ms'⟩
    · simpa using hms
    · exact absurd (by rw [← h3]; simp) hb
  · rw [hS.order t]
    exact List.prefix_append _ _

end Invariant

/-! ### A run -/

/-- The text of a PING with the id `1` or `2`. -/
def pingText (b : Bool) : Text :=
  lit "\x7b\"type\": \"REQUEST\", \"id\": " ++ (if b then lit "1" else lit "2") ++
    lit ", \"action\": \"PING\"\x7d"

/-- JSON on these two messages. -/
def pingCodec : JsonCodec Bool where
  dumps := pingText
  loads t := if t = pingText true then some true else if t = pingText false then some false else none

theorem pingCodec_lossless : pingCodec.Lossless where
  ascii m c hc := by
    have hall : ∀ b, (pingText b).all (fun c => decide (c.val < 0x80) && decide (c.val ≠ 10)) = true := by
      decide
    simpa using List.all_eq_true.1 (hall m) c hc
  inverts := by decide

/-- Two threads send a PING each; the stream ends within the second one. -/
def cutRun {T : Type} (t v : T) : List (LinkAct T Bool) :=
  [.send t true, .lock t, .send v false, .piece t 10, .read, .recv 10, .piece t 37, .unlock t, .lock v,
    .recv 37, .take, .piece v 20, .read, .recv 20, .cut 67, .eof]

theorem cutRun_returns :
    ∃ s L, (linkMachine pingCodec (Fin 2)).run ({}, {}) (cutRun 0 1) = some (s, L) ∧
      L.messages = [true, false] ∧ ∃ k, L.results = [.message true] ++ List.replicate k .closed := by
  have hs : ((linkMachine pingCodec (Fin 2)).run ({}, {}) (cutRun 0 1)).map (fun p =>
      (p.2.messages, decide (delimiter ∈ p.1.buffer),
        arrived pingCodec.payload p.2.messages p.1.taken)) = some ([true, false], false, [true]) := by
    decide
  obtain ⟨⟨s, L⟩, hrun, hval⟩ := Option.map_eq_some_iff.1 hs
  simp only [Prod.mk.injEq, decide_eq_false_iff_not] at hval
  obtain ⟨hmsgs, hbuf, harr⟩ := hval
  have hr : (linkMachine pingCodec (Fin 2)).Reachable (s, L) :=
    Machine.Reachable.run (s := ({}, {})) (.init ⟨rfl, rfl⟩) hrun
  obtain ⟨got, k, h1, -, h3, -, -⟩ := (channel_delivers pingCodec_lossless hr).1
  rw [h3 hbuf, harr] at h1
  exact ⟨s, L, hrun, hmsgs, k, h1⟩

end DistRes
