import DistRes.Messages
import DistRes.ReadMessage

/-!
# The bytes of the system

The clients and the server hand each other the messages that the other side's `read_message` returns.
Here the messages become bytes: `json.dumps` and `json.loads` are those of `JsonText`, and a reader gets
whatever part of the stream there is.

* `reads_back` — from any part of a stream of messages that come back from `loads`, in any chunks, the
  reader gets those whose newline has come;
* `wire_exact` — the messages of the clients and of the server are such, in every run.
-/

namespace DistRes

open Lib

/-! ## Streams -/

section Codec

variable (I : Interpreter)

/-- The text that `json.dumps` writes, where it writes one, and `json.loads`. -/
def jsonCodec : JsonCodec Json := ⟨dumpText, loads I⟩

/-- The same on the values that come back. -/
def sendableCodec : JsonCodec {x : Json // x.sendable I = true} where
  dumps x := dumpText x.1
  loads t := (loads I t).bind fun x => if h : x.sendable I = true then some ⟨x, h⟩ else none

variable {I}

/-- On these values JSON is as `Channel` takes it to be. -/
theorem sendable_lossless : (sendableCodec I).Lossless where
  ascii x c hc := by
    have hx := x.2
    simp only [Json.sendable, Bool.and_eq_true] at hx
    have := printable_dumpText x.1 hx.1.1 c hc
    omega
  inverts x := by
    show (loads I (dumpText x.1)).bind _ = _
    rw [loads_sendable x.2, Option.bind_some, dif_pos x.2]

/-- What a reader gets from any part of the stream of `ms`: the messages whose newline is in it, and then
that there is none. -/
def ReadsBack (I : Interpreter) (ms : List Json) : Prop :=
  ∀ r : FramedReader, (∀ chunk ∈ r.incoming, chunk ≠ []) → r.stream <+: (jsonCodec I).stream ms →
    ∀ i, outcome (jsonCodec I) i r =
      match (arrived (jsonCodec I).payload ms r.stream.length)[i]? with
      | some m => .message m
      | none => .closed

theorem arrived_map {α M N : Type} (f : M → N) (line : N → List α) (ms : List M) (n : ℕ) :
    arrived line (ms.map f) n = (arrived (fun m => line (f m)) ms n).map f := by
  induction ms generalizing n with
  | nil => rfl
  | cons m ms ih =>
    rw [List.map_cons, arrived, arrived]
    split
    · rw [List.map_cons, ih]
    · rfl

/-- **Streams of messages that come back are read back.** -/
theorem reads_back {ms : List Json} (hms : ∀ m ∈ ms, m.sendable I = true) : ReadsBack I ms := by
  intro r hne hp i
  obtain ⟨xs, rfl⟩ : ∃ xs : List {x : Json // x.sendable I = true}, xs.map Subtype.val = ms :=
    ⟨ms.attach.map fun x => ⟨x.1, hms x.1 x.2⟩, by simp⟩
  have hframe : (jsonCodec I).stream (xs.map Subtype.val) = frame delimiter (sendableCodec I).payload xs := by
    simp only [JsonCodec.stream, frame, List.map_map]
    rfl
  rw [hframe] at hp
  rw [outcome_eq hne, lineOutcome,
    completeLines_of_prefix (delimiter_notMem_payload sendable_lossless) hp, arrived_map,
    List.getElem?_map, List.getElem?_map]
  have hline : (fun x : {x : Json // x.sendable I = true} => (jsonCodec I).payload x.1) =
      (sendableCodec I).payload := rfl
  rw [hline]
  cases (arrived (sendableCodec I).payload xs r.stream.length)[i]? with
  | none => rfl
  | some x =>
    have hx := x.2
    simp only [Json.sendable, Bool.and_eq_true] at hx
    have henc := (printable_dumpText x.1 hx.1.1).encodable
    have hloads : (jsonCodec I).loads (dumpText x.1) = some x.1 := loads_sendable x.2
    show (jsonCodec I).decode (utf8 (dumpText x.1)) = .message x.1
    rw [JsonCodec.decode, utf8Decode_utf8 _ henc, Option.bind_some, hloads]

end Codec

/-! ## What fits into a message -/

section Fits

variable (I : Interpreter) (d : ℕ)

/-- The value comes back from `loads` wherever it stands, up to `d` containers. -/
def Json.fits (x : Json) : Bool := x.held I && x.pairFree && x.depth ≤ d

variable {I d} {x : Json} {fields : List (Text × Json)} {s t : Text}

theorem fits_iff : x.fits I d = true ↔ x.held I = true ∧ x.pairFree = true ∧ x.depth ≤ d := by
  simp only [Json.fits, Bool.and_eq_true, decide_eq_true_eq, and_assoc]

theorem fits_mono {e : ℕ} (h : x.fits I d = true) (hde : d ≤ e) : x.fits I e = true := by
  obtain ⟨h1, h2, h3⟩ := fits_iff.1 h
  exact fits_iff.2 ⟨h1, h2, h3.trans hde⟩

theorem fits_obj : (Json.obj fields).fits I (d + 1) = true ↔
    (fields.map Prod.fst).Nodup ∧ ∀ e ∈ fields, PairFree e.1 ∧ e.2.fits I d = true := by
  rw [fits_iff, held_obj, pairFree_obj, depth_obj]
  constructor
  · rintro ⟨⟨h1, h2⟩, ⟨h3, h4⟩, h5⟩
    exact ⟨h1, fun e he => ⟨h3 e he, fits_iff.2 ⟨h2 e he, h4 e he, h5 e he⟩⟩⟩
  · rintro ⟨h1, h2⟩
    exact ⟨⟨h1, fun e he => (fits_iff.1 (h2 e he).2).1⟩,
      ⟨fun e he => (h2 e he).1, fun e he => (fits_iff.1 (h2 e he).2).2.1⟩,
      fun e he => (fits_iff.1 (h2 e he).2).2.2⟩

theorem fits_str : (Json.str s).fits I d = true ↔ PairFree s := by
  simp [fits_iff, Json.held, Json.genuine, Json.short, Json.pairFree, Json.all, Json.depth]

theorem fits_null : Json.null.fits I d = true := by
  simp [fits_iff, Json.held, Json.genuine, Json.short, Json.pairFree, Json.all, Json.depth]

/-- The interpreter converts the number, in either direction. -/
def Interpreter.converts (I : Interpreter) (n : ℕ) : Bool := (Nat.toDigits 10 n).length ≤ I.maxDigits

theorem fits_nat {n : ℕ} : (Json.int n).fits I d = true ↔ I.converts n = true := by
  simp [fits_iff, Json.held, Json.genuine, Json.short, Json.pairFree, Json.all, Json.depth,
    Interpreter.converts]

theorem converts_of_le {m n : ℕ} (hn : I.converts n = true) (h : m ≤ n) :
    I.converts m = true := by
  have hpos : 0 < (Nat.toDigits 10 n).length := Nat.length_toDigits_pos
  simp only [Interpreter.converts, decide_eq_true_eq] at hn ⊢
  have hlt := (Nat.length_toDigits_le_iff (by decide) (hpos.trans_le hn)).1 hn
  exact (Nat.length_toDigits_le_iff (by decide) (hpos.trans_le hn)).2 (h.trans_lt hlt)

/-- What a message has under a key fits if the message does. -/
theorem fits_field (h : (Json.obj fields).fits I (d + 1) = true) {key : Text}
    (hx : field? fields key = some x) : x.fits I d = true := by
  obtain ⟨e, he, rfl⟩ := Option.map_eq_some_iff.1 hx
  exact ((fits_obj.1 h).2 e (List.mem_of_find?_eq_some he)).2

theorem fits_getField (h : (Json.obj fields).fits I (d + 1) = true) (key : Text) :
    (getField fields key).fits I d = true := by
  unfold getField
  cases hx : field? fields key with
  | none => exact fits_null
  | some x => exact fits_field h hx

theorem printable_repr {r : Text} {i : Option ℤ} (h : I.holdsFloat r i = true) : Printable r := by
  simp only [Interpreter.holdsFloat, Bool.or_eq_true, Bool.and_eq_true, decide_eq_true_eq] at h
  rcases h with ⟨-, (rfl | rfl) | rfl⟩ | h
  · decide
  · decide
  · decide
  · split at h
    · rename_i n hn
      obtain ⟨t, ht, rfl, hvalid⟩ := scans_numeral.sound _ _ _ hn
      rw [List.append_nil] at ht
      rw [ht]
      exact hvalid.printable
    · cases h

/-- An action that is no container, inside the message of an error. -/
theorem pairFree_pyFormat (strRepr : Text → Text) (h : x.fits I d = true) (hx : hashable x = true) :
    PairFree (pyFormat strRepr x) := by
  cases x with
  | null => exact .of_encodable rfl
  | bool b => cases b <;> exact .of_encodable rfl
  | int n =>
    refine .of_encodable (Printable.encodable ?_)
    show Printable (lit (toString n))
    rw [← intNumeral_text]
    exact (intNumeral_valid n).printable
  | float r i =>
    have := ((Bool.and_eq_true _ _).mp (fits_iff.1 h).1).1
    exact .of_encodable (printable_repr this).encodable
  | str s => exact fits_str.1 h
  | arr | obj => cases hx

/-- A value that fits arrives as it is. -/
theorem joined_of_fits (h : x.fits I d = true) : x.joined = x := by
  obtain ⟨hheld, hfree, -⟩ := fits_iff.1 h
  exact (joined_eq_self (Bool.and_eq_true_iff.1 hheld).1).2 hfree

/-- What fits, as the contents of a message. -/
def fitting (I : Interpreter) (d : ℕ) : Contents where
  value x := x.fits I d = true
  null := fits_null
  text _ := fits_str
  below h hn := fits_nat.2 (converts_of_le (fits_nat.1 hn) h)

theorem arrives_of_fits {cfg : Config} (h : (Json.obj fields).fits I (d + 1) = true) :
    Arrives (fitting I d) cfg fields :=
  ⟨fun hx => fits_field h hx, fun hhash => pairFree_pyFormat cfg.strRepr (fits_getField h _) hhash⟩

theorem fits_of_dictOf (h : x.dictOf fun y => y.fits I d = true) : x.fits I (d + 1) = true := by
  obtain ⟨fields, rfl, hnd, hfields⟩ := h
  exact fits_obj.2 ⟨hnd, hfields⟩

theorem fits_message {m : ServerMessage} (hm : m.Fits (fitting I d)) : m.toJson.fits I (d + 2) = true := by
  refine fits_of_dictOf (hm.dictOf.mono fun y hy => ?_)
  rcases hy with hy | hy
  · exact fits_mono hy (Nat.le_succ d)
  · exact fits_of_dictOf hy

end Fits

/-! ## What the clients send -/

section Requests

variable (I : Interpreter) (d : ℕ)

/-- The parameters of a request fit. -/
def paramsFit (params : List (Text × Json)) : Bool := params.all fun e => PairFree e.1 && e.2.fits I d

/-- What is given to the method fits into a request. -/
def Method.fits : Method → Bool
  | .login userId username => PairFree userId && PairFree username
  | .write content => PairFree content
  | .request action params => PairFree action && paramsFit I d params
  | .logout | .read | .close => true

def ClientAct.fits {K : Type} : ClientAct K → Bool
  | .call m => m.fits I d
  | _ => true

def SystemAct.fits {C U H : Type} : SystemAct C U H → Bool
  | .client _ _ a => a.fits I d
  | _ => true

/-- The action and the parameters of a request fit. -/
def requestFits (action : Text) (params : List (Text × Json)) : Prop :=
  PairFree action ∧ paramsFit I d params = true

/-- What the thread is about to log in with, or requests, fits. -/
def UserPc.fits {K : Type} (pc : UserPc K) : Prop :=
  (∀ u n, pc = .login u n → PairFree u ∧ PairFree n) ∧
    ∀ c, pc.call? = some c → requestFits I d c.action c.params

variable {I d} {U K : Type} [DecidableEq U] [DecidableEq K] {conn conn' : ServerConnection K}
  {a : ClientAct K}

theorem login_fits {u n : Text} (hu : PairFree u) (hn : PairFree n) :
    requestFits I d actionLogin (loginParams u n) := by
  have hkeys : PairFree (lit "user_id") ∧ PairFree (lit "username") := ⟨.of_encodable rfl, .of_encodable rfl⟩
  exact ⟨.of_encodable rfl, by simp [paramsFit, loginParams, fits_str, hu, hn, hkeys]⟩

theorem write_fits {content : Text} (h : PairFree content) :
    requestFits I d actionWrite (writeParams content) := by
  have hkey : PairFree (lit "content") := .of_encodable rfl
  exact ⟨.of_encodable rfl, by simp [paramsFit, writeParams, fits_str, h, hkey]⟩

theorem bare_fits {action : Text} (h : encodable action = true) : requestFits I d action [] :=
  ⟨.of_encodable h, rfl⟩

omit [DecidableEq K] in
theorem Method.fits.start {m : Method} (hm : m.fits I d = true) :
    (UserPc.start m : UserPc K).fits I d := by
  cases m with
  | login u n =>
    simp only [Method.fits, Bool.and_eq_true, decide_eq_true_eq] at hm
    refine ⟨?_, nofun⟩
    rintro _ _ ⟨⟩
    exact hm
  | logout | read =>
    refine ⟨nofun, ?_⟩
    rintro _ ⟨⟩
    exact bare_fits rfl
  | write content =>
    refine ⟨nofun, ?_⟩
    rintro _ ⟨⟩
    exact write_fits (of_decide_eq_true hm)
  | request action params =>
    simp only [Method.fits, Bool.and_eq_true, decide_eq_true_eq] at hm
    refine ⟨nofun, ?_⟩
    rintro _ ⟨⟩
    exact hm
  | close => exact ⟨nofun, nofun⟩

/-- Who is logged in fits. -/
def ServerConnection.credentialsFit (conn : ServerConnection K) : Prop :=
  ∀ u n, conn.credentials = some (u, n) → PairFree u ∧ PairFree n

theorem userStep_fits {pc pc' : UserPc K} (hs : userStep conn pc a = some (conn', pc'))
    (ha : a.fits I d = true) (hc : conn.credentialsFit) (hpc : pc.fits I d) :
    conn'.credentialsFit ∧ pc'.fits I d := by
  cases userStep_moves hs with
  | call m => exact ⟨hc, Method.fits.start ha⟩
  | login u n =>
    obtain ⟨hu, hn⟩ := hpc.1 u n rfl
    refine ⟨?_, nofun, ?_⟩
    · rintro _ _ ⟨⟩
      exact ⟨hu, hn⟩
    · rintro _ ⟨⟩
      exact login_fits hu hn
  | @request _ c _ _ logout hreq =>
    refine ⟨?_, nofun, ?_⟩
    · rw [requestStep_frame hreq]
      exact hc
    · rintro _ ⟨⟩
      obtain ⟨pc', rfl, -⟩ := requestStep_cases hreq
      exact hpc.2 c rfl
  | forget => exact ⟨nofun, nofun, nofun⟩
  | returns | loggedOut | close | closeState | closeRaises | closeSock => exact ⟨hc, nofun, nofun⟩

theorem listenerStep_fits {pc pc' : ListenerPc K} (hs : listenerStep conn pc a = some (conn', pc'))
    (hc : conn.credentialsFit) (hpc : ∀ c, pc.call? = some c → requestFits I d c.action c.params) :
    conn'.credentialsFit ∧ ∀ c, pc'.call? = some c → requestFits I d c.action c.params := by
  cases listenerStep_cases hs with
  | connect again hconn =>
    rw [connectStep_frame hconn]
    exact ⟨hc, nofun⟩
  | handle m hm =>
    rcases handleIncoming_cases hm with ⟨rfl, rfl | rfl⟩ | ⟨id, -, -, -, rfl, rfl⟩ <;> exact ⟨hc, nofun⟩
  | relogin u n hu =>
    refine ⟨hc, ?_⟩
    rintro _ ⟨⟩
    exact login_fits (hc u n hu).1 (hc u n hu).2
  | @request _ c _ _ hreq =>
    refine ⟨?_, ?_⟩
    · rw [requestStep_frame hreq]
      exact hc
    · rintro _ ⟨⟩
      obtain ⟨pc', rfl, -⟩ := requestStep_cases hreq
      exact hpc c rfl
  | outside _ _ _ hb =>
    refine ⟨hc, fun c h => ?_⟩
    rw [call?_of_bare hb] at h
    cases h
  | read | receive | crash | resolve | wake | lock | sweep | sweepWake | swept | returns =>
    exact ⟨hc, nofun⟩

omit [DecidableEq U] [DecidableEq K] in
/-- What gets an id in a step is what a call asks for, or a PING. -/
theorem fits_of_next {s : Client U K} {h : ClientHistory U} {t : Thread U} {r : Request}
    (hcall : ∀ c, s.call? t = some c → requestFits I d c.action c.params)
    (hr : r ∈ (h.next s (t, a)).issued) : r ∈ h.issued ∨ requestFits I d r.action r.params := by
  have calls : ∀ r ∈ (s.call? t).toList.flatMap (·.issues s.conn a), requestFits I d r.action r.params := by
    intro r hr
    obtain ⟨c, hc, hr⟩ := List.mem_flatMap.1 hr
    unfold RequestCall.issues at hr
    split at hr
    · rw [List.mem_singleton.1 hr]
      exact hcall c (by simpa using hc)
    · cases hr
  rcases t with u | _ | _
  · exact (List.mem_append.1 hr).imp_right (calls r)
  · exact (List.mem_append.1 hr).imp_right (calls r)
  · rcases List.mem_append.1 hr with hr | hr
    · exact (List.mem_append.1 hr).imp_right (calls r)
    · right
      unfold BeatPc.issues at hr
      split at hr
      · rw [List.mem_singleton.1 hr]
        exact bare_fits rfl
      · cases hr

/-- **What a client has to send fits.** -/
structure RequestsFit (I : Interpreter) (d : ℕ) (s : Client U K) (h : ClientHistory U) : Prop where
  credentials : s.conn.credentialsFit
  user : ∀ u, (s.user u).fits I d
  listener : ∀ c, s.listener.call? = some c → requestFits I d c.action c.params
  issued : ∀ r ∈ h.issued, requestFits I d r.action r.params

omit [DecidableEq U] [DecidableEq K] in
theorem RequestsFit.call {s : Client U K} {h : ClientHistory U} (hi : RequestsFit I d s h) (t : Thread U) :
    ∀ c, s.call? t = some c → requestFits I d c.action c.params := by
  rcases t with u | _ | _
  · exact (hi.user u).2
  · exact hi.listener
  · exact nofun

theorem RequestsFit.step {s s' : Client U K} {h : ClientHistory U} (hi : RequestsFit I d s h)
    {t : Thread U} (ha : a.fits I d = true) (hs : clientStep s (t, a) = some s') :
    RequestsFit I d s' (h.next s (t, a)) := by
  have hissued : ∀ r ∈ (h.next s (t, a)).issued, requestFits I d r.action r.params :=
    fun r hr => (fits_of_next (hi.call t) hr).elim (hi.issued r) id
  rcases clientStep_cases hs with ⟨u, conn', pc, -, hstep, rfl⟩ | ⟨conn', pc, -, hstep, rfl⟩ |
    ⟨conn', pc, -, hstep, rfl⟩
  · obtain ⟨hc, hpc⟩ := userStep_fits hstep ha hi.credentials (hi.user u)
    refine ⟨hc, fun v => ?_, hi.listener, hissued⟩
    by_cases hv : v = u
    · subst hv
      simpa using hpc
    · simpa [hv] using hi.user v
  · obtain ⟨hc, hpc⟩ := listenerStep_fits hstep hi.credentials hi.listener
    exact ⟨hc, hi.user, hpc, hissued⟩
  · refine ⟨?_, hi.user, hi.listener, hissued⟩
    rw [beatStep_frame hstep]
    exact hi.credentials

omit [DecidableEq U] [DecidableEq K] in
theorem requestsFit_init : RequestsFit I d ({} : Client U K) {} :=
  ⟨nofun, fun _ => ⟨nofun, nofun⟩, nofun, nofun⟩

/-- A request that fits, as a message. -/
theorem fits_request {r : Request} (hr : requestFits I d r.action r.params)
    (hid : I.converts r.id = true) : r.toJson.fits I (d + 1) = true := by
  obtain ⟨hnd, hmem⟩ := requestFields_items r.id r.action r.params
  refine fits_obj.2 ⟨hnd, fun e he => ?_⟩
  rcases List.mem_append.1 (hmem e he) with he | he
  · simp only [List.mem_cons, List.not_mem_nil, or_false] at he
    rcases he with rfl | rfl | rfl
    · exact ⟨.of_encodable rfl, fits_str.2 (.of_encodable rfl)⟩
    · exact ⟨.of_encodable rfl, fits_nat.2 hid⟩
    · exact ⟨.of_encodable rfl, fits_str.2 hr.1⟩
  · have := List.all_eq_true.1 hr.2 e he
    simpa using this

end Requests

/-! ## The system -/

section System

variable {C U H : Type} [DecidableEq C] [DecidableEq U] [DecidableEq H] {cfg : Config} {file : Bytes}
  {I : Interpreter} {d : ℕ} {s s' : System C U H} {L : SystemHistory C U H} {a : SystemAct C U H}

omit [DecidableEq C] [DecidableEq U] [DecidableEq H] in
/-- What a client does on its own fits if the calls do. -/
theorem fits_of_clientAct {c : C} {t : Thread U} {act : ClientAct H}
    (hact : s.clientAct a = some (c, t, act)) (ha : a.fits I d = true) : act.fits I d = true := by
  unfold System.clientAct at hact
  split at hact
  · split at hact <;> cases hact
    exact ha
  · split at hact <;> cases hact
    rfl
  · split at hact
    · obtain ⟨m, -, heq⟩ := Option.map_eq_some_iff.1 hact
      cases heq
      rfl
    · cases hact
  · cases hact

/-- The interpreter converts the ids and the version. -/
structure System.Small (I : Interpreter) (s : System C U H) : Prop where
  ids : ∀ c, I.converts (s.client c).conn.nextId = true
  version : I.converts s.server.shared.data.version = true

/-- **What goes over the wire fits**, as long as the interpreter converts the numbers in it. -/
structure WireInv (I : Interpreter) (d : ℕ) (s : System C U H) (L : SystemHistory C U H) : Prop where
  clients : ∀ c, RequestsFit I d (s.client c) (L.clients c)
  server : (∀ c, ∀ r ∈ (L.clients c).issued, I.converts r.id = true) →
    I.converts s.server.shared.data.version = true → s.Fits (fitting I d)

theorem WireInv.step (hi : WireInv I d s L) (hsent : ∀ c k, ∀ r ∈ (s.client c).conn.sent k,
    r ∈ (L.clients c).issued) (ha : a.fits I d = true) (hs : systemStep cfg file s a = some s') :
    WireInv I d s' (L.next cfg s a) := by
  have hclients : ∀ k, RequestsFit I d (s'.client k) ((L.next cfg s a).clients k) ∧
      (L.clients k).issued ⊆ ((L.next cfg s a).clients k).issued := by
    intro k
    rcases systemStep_cases hs with ⟨c, ⟨t, act⟩, x, hact, hclient, rfl⟩ |
      ⟨h, act, e, hnone, hact, hserver, rfl⟩
    · rw [clients_next hact]
      by_cases hk : k = c
      · subst hk
        simpa using ⟨(hi.clients k).step (fits_of_clientAct hact ha) hclient, issued_subset _ _ _⟩
      · simpa [hk] using hi.clients k
    · rw [service_next hnone hact]
      simpa using hi.clients k
  refine ⟨fun k => (hclients k).1, fun hids hv => ?_⟩
  have hids : ∀ c, ∀ r ∈ (L.clients c).issued, I.converts r.id = true :=
    fun c r hr => hids c r ((hclients c).2 hr)
  refine (hi.server hids (converts_of_le hv (systemStep_version hs))).step hs (fun h fields hact => ?_)
    (fits_nat.2 hv)
  obtain ⟨c, r, hr, heq⟩ := request_of_serverAct hact
  have hr := hsent c h r hr
  have hfits := fits_request ((hi.clients c).issued r hr) (hids c r hr)
  have harriving : r.arriving = r.fields :=
    Json.obj.inj (joined_of_fits hfits)
  cases heq
  rw [harriving]
  exact arrives_of_fits hfits

/-- A client of the system runs as a client, whatever it is called with. -/
theorem client_reachable {p : System C U H × SystemHistory C U H}
    (hr : (systemMachine cfg file C U H).Reachable p) (c : C) :
    (clientMachine U H).Reachable (p.1.client c, p.2.clients c) := by
  refine hr.invariant (fun p => (clientMachine U H).Reachable (p.1.client c, p.2.clients c)) ?_ ?_
  · rintro ⟨s, L⟩ ⟨⟨hc, -⟩, rfl⟩
    exact .init ⟨hc c, rfl⟩
  · rintro ⟨s, L⟩ a ⟨s', L'⟩ - hclient hs
    obtain ⟨hstep, hh⟩ := Machine.withHistory_step.1 hs
    simp only at hh hstep hclient
    subst hh
    rcases systemStep_cases hstep with ⟨e, act, x, hact, hx, rfl⟩ | ⟨h, act, e, hnone, hact, -, rfl⟩
    · rw [clients_next hact]
      by_cases hce : c = e
      · subst hce
        simpa using hclient.step (a := act) (Machine.withHistory_step.2 ⟨hx, rfl⟩)
      · simpa [hce] using hclient
    · rw [service_next hnone hact]
      simpa using hclient

theorem wireInv_of_reach {p : System C U H × SystemHistory C U H}
    (hr : (systemMachine cfg file C U H).Reach (fun _ a => a.fits I d = true) p) : WireInv I d p.1 p.2 := by
  refine hr.invariant (fun p => WireInv I d p.1 p.2) ?_ ?_
  · rintro ⟨s, L⟩ hinit
    refine ⟨fun c => ?_, fun _ _ => .init hinit⟩
    obtain ⟨⟨hc, -⟩, rfl⟩ := hinit
    rw [show s.client c = {} from hc c]
    exact requestsFit_init
  · rintro ⟨s, L⟩ a ⟨s', L'⟩ hr hi ha hs
    obtain ⟨hstep, hh⟩ := Machine.withHistory_step.1 hs
    simp only at hh hstep hi ha
    subst hh
    exact hi.step (fun c => (sentInv_of_reachable (client_reachable hr.reachable c)).sent) ha hstep

/-- **What is sent is read back.**  As long as the calls are made with values that Python can send and the
interpreter converts the ids and the version, whatever has been put on a socket in a run, by the server
or by a client, is read off any part of its bytes, in any chunks, message by message. -/
theorem wire_exact (hI : d + 2 ≤ I.maxDepth)
    (hr : (systemMachine cfg file C U H).Reach (fun _ a => a.fits I d = true) (s, L)) (hs : s.Small I) :
    (∀ h, ReadsBack I ((s.server.shared.sockets h).map ServerMessage.toJson)) ∧
      ∀ c k, ReadsBack I (((s.client c).conn.sent k).map Request.toJson) := by
  have hi := wireInv_of_reach hr
  have hclient := client_reachable hr.reachable
  have hids : ∀ c, ∀ r ∈ (L.clients c).issued, I.converts r.id = true :=
    fun c r hr => converts_of_le (hs.ids c) (id_lt_of_issued (hclient c) hr).le
  refine ⟨fun h => reads_back fun x hx => ?_, fun c k => reads_back fun x hx => ?_⟩
  · obtain ⟨m, hm, rfl⟩ := List.mem_map.1 hx
    exact fits_mono (fits_message ((hi.server hids hs.version).sockets h m hm)) hI
  · obtain ⟨r, hr, rfl⟩ := List.mem_map.1 hx
    have hissued := (sentInv_of_reachable (hclient c)).sent k r hr
    exact fits_mono (fits_request ((hi.clients c).issued r hissued) (hids c r hissued)) (by omega)

end System

/-! ### A run -/

theorem acknowledgedRun_read_back :
    ∃ s L, (systemMachine shippedConfig [] (Fin 1) (Fin 1) (Fin 1)).runIf
        (fun _ a => a.fits plainInterpreter 0 = true) (systemStart shippedConfig, {})
        (acknowledgedRun 0 0 0) = some (s, L) ∧
      (s.server.shared.sockets 0).length = 2 ∧
      (∀ h, ReadsBack plainInterpreter ((s.server.shared.sockets h).map ServerMessage.toJson)) ∧
      ∀ c k, ReadsBack plainInterpreter (((s.client c).conn.sent k).map Request.toJson) := by
  have hs : ((systemMachine shippedConfig [] (Fin 1) (Fin 1) (Fin 1)).runIf
      (fun _ a => a.fits plainInterpreter 0 = true) (systemStart shippedConfig, {})
      (acknowledgedRun 0 0 0)).map (fun p => ((p.1.client 0).conn.nextId,
        p.1.server.shared.data.version, (p.1.server.shared.sockets 0).length)) = some (3, 1, 2) := by
    decide +kernel
  obtain ⟨⟨s, L⟩, hrun, hval⟩ := Option.map_eq_some_iff.1 hs
  simp only [Prod.mk.injEq] at hval
  obtain ⟨hid, hversion, hlen⟩ := hval
  have hr : (systemMachine shippedConfig [] (Fin 1) (Fin 1) (Fin 1)).Reach
      (fun _ a => a.fits plainInterpreter 0 = true) (s, L) :=
    Machine.Reach.runIf (.init systemStart_init) hrun
  have hsmall : s.Small plainInterpreter := by
    refine ⟨fun c => ?_, ?_⟩
    · rw [Subsingleton.elim c 0, hid]
      decide
    · rw [hversion]
      decide
  exact ⟨s, L, hrun, hlen, wire_exact (by decide) hr hsmall⟩

end DistRes
