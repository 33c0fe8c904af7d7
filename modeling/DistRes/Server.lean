import Mathlib.Data.Finset.Insert
import DistRes.DataLayer
import DistRes.PubSub

/-!
# The server (`server.py`)

Any number of `ClientHandler`s over one `DistResServer`, each the thread of one connection.  Every
section of a lock of the server is one step, as is every send, and the calls of the data layer are
taken step by step.  What a handler alone reads and writes happens with the step before it.

A connection may fail at any point: `hangup` ends `read_message`, and any send may raise.  The send of a
message that `json.dumps` cannot write raises always.
-/

namespace DistRes

open Lib

/-! ## The state -/

/-- What SQLite compares a bound value as with a column of texts: a number is converted first, and `NULL`
is nothing.  `realText` converts a float, by its `repr`. -/
def boundText (realText : Text → Option Text) : Json → Option Text
  | .bool true => some (lit "1")
  | .bool false => some (lit "0")
  | .int n => some (lit (toString n))
  | .float r _ => realText r
  | .str s => some s
  | .null | .arr _ | .obj _ => none

/-- What a server is started with: `MAX_SESSIONS` and the rows of the credential table; and what comes
from the interpreter and the libraries. -/
structure Config where
  maxSessions : ℕ
  users : List (Text × Text)
  /-- Python's `repr` of strings -/
  strRepr : Text → Text
  /-- what SQLite makes of a float; a NaN is `NULL` -/
  realText : Text → Option Text
  /-- nobody is called by a number -/
  named : ∀ row ∈ users, ∀ x, boundText realText x = some row.1 ∨ boundText realText x = some row.2 →
    ∃ s, x = .str s
  /-- where the message is sent, `json.dumps` does not raise `RecursionError` -/
  encodes : ServerMessage → Bool

/-- The credentials that `_init_database` seeds. -/
def preAssignedUsers : List (Text × Text) :=
  [(lit "ENG001", lit "Alice"), (lit "ENG002", lit "Bob"), (lit "ENG003", lit "Charlie"),
    (lit "ENG004", lit "Diana"), (lit "ENG005", lit "Edward"), (lit "ENG006", lit "Fiona"),
    (lit "ENG007", lit "George"), (lit "ENG008", lit "Hannah")]

/-- The state that the handlers `H` share, and what has been put on each client's socket so far.
The callback of a subscriber is the handler whose `deliver_event` it is. -/
structure DistResServer (H : Type) where
  data : DataLayer H
  broker : PubSubBroker H := .empty
  /-- the value of the semaphore: the slots that are free -/
  sessions : ℕ
  activeUsers : Dict Text Text := .empty
  readers : Finset Text := ∅
  writer : Option Text := none
  sockets : H → List ServerMessage := fun _ => []

namespace DistResServer

variable {H : Type}

def registerSession (s : DistResServer H) (userId username : Text) : DistResServer H :=
  { s with activeUsers := s.activeUsers.set userId username }

def unregisterSession (s : DistResServer H) (userId : Text) : DistResServer H :=
  { s with
    activeUsers := s.activeUsers.pop userId
    readers := s.readers.erase userId
    writer := if s.writer = some userId then none else s.writer }

def isActive (s : DistResServer H) (userId : Text) : Bool := s.activeUsers.has userId

def setReader (s : DistResServer H) (userId : Text) (active : Bool) : DistResServer H :=
  { s with readers := if active then insert userId s.readers else s.readers.erase userId }

def setWriter (s : DistResServer H) (userId : Text) (active : Bool) : DistResServer H :=
  { s with
    writer := if active then some userId else if s.writer = some userId then none else s.writer }

/-- A message goes out on the socket of `h`. -/
def send [DecidableEq H] (s : DistResServer H) (h : H) (m : ServerMessage) : DistResServer H :=
  { s with sockets := Function.update s.sockets h (s.sockets h ++ [m]) }

end DistResServer

/-! ## The handlers -/

/-- What a handler does after a RESPONSE. -/
inductive Next
  | loop
  | publish (version : ℕ) (text : Json)
  | release

/-- Where a handler is in `_handle_login`. -/
inductive LoginPc
  | authenticate (userId username : Json)
  | isActive (userId username : Text)
  | acquire (userId username : Text)
  | hold (userId username : Text)
  | register (userId username : Text)
  | subscribe (userId : Text)
  | version (userId : Text)

/-- Where a handler is in `_release_session`. -/
inductive ReleasePc
  | unsubscribe (userId : Text)
  | unregister (userId : Text)
  | clear
  | free
  | unhold

/-- Who has called `_release_session`. -/
inductive Caller
  | logout
  | cleanup

/-- Where a handler is.  The user id of a READ or WRITE is `self._user_id`, which nobody but the
handler itself assigns. -/
inductive HandlerPc (H : Type)
  | connecting
  | recv
  | respond (r : Response) (next : Next)
  | login (id : Json) (pc : LoginPc)
  | read (id : Json) (userId : Text) (pc : ReadPc)
  | readDone (id : Json) (userId : Text) (r : Result)
  | write (id content : Json) (userId : Text) (pc : WritePc)
  | writeDone (id content : Json) (userId : Text) (r : Result)
  | publish (pc : PublishPc H)
  | release (pc : ReleasePc) (caller : Caller)
  | ended

/-- A `ClientHandler`. -/
structure ClientHandler (H : Type) where
  userId : Option Text := none
  holdsSession : Bool := false
  pc : HandlerPc H := .connecting

/-- What a handler does. -/
inductive HandlerAct
  /-- starts on an accepted connection -/
  | accept
  /-- gets a message from `read_message` -/
  | receive (message : Json)
  /-- gets `None` or an exception from `read_message` -/
  | hangup
  /-- takes its next step, which does not raise -/
  | go
  /-- takes its next step, which raises -/
  | fail
  /-- takes a step inside the data layer -/
  | data (a : DataAct)

/-- Where `_release_session` returns to. -/
def Caller.return {H : Type} : Caller → HandlerPc H
  | .logout => .recv
  | .cleanup => .ended

namespace ClientHandler

variable {H : Type}

/-- Into `_release_session`. -/
def releaseSession (l : ClientHandler H) (caller : Caller) : ClientHandler H :=
  match l.userId, l.holdsSession with
  | some u, _ => { l with pc := .release (.unsubscribe u) caller }
  | none, true => { l with pc := .release .free caller }
  | none, false => { l with pc := caller.return }

/-- Into `_cleanup`, at the end of the loop or with an exception. -/
def cleanup (l : ClientHandler H) : ClientHandler H := l.releaseSession .cleanup

/-- Into `_respond`. -/
def respond (l : ClientHandler H) (r : Response) (next : Next := .loop) : ClientHandler H :=
  { l with pc := .respond r next }

/-- Into `_respond` with an error message. -/
def reject (l : ClientHandler H) (id : Json) (message : Text) : ClientHandler H :=
  l.respond { id, status := statusError, message := some message }

/-- On after a RESPONSE. -/
def proceed (l : ClientHandler H) : Next → ClientHandler H
  | .loop => { l with pc := .recv }
  | .publish version text =>
    { l with pc := .publish (.snapshot topicResourceUpdate ⟨version, l.userId, text⟩) }
  | .release => l.releaseSession .logout

/-- `_dispatch`, up to the first step of the action. -/
def dispatch (cfg : Config) (l : ClientHandler H) : Json → ClientHandler H
  | .obj message =>
    match getField message (lit "type") with
    | .str t =>
      if t ≠ typeRequest then { l with pc := .recv }
      else
        let id := getField message (lit "id")
        match getField message (lit "action") with
        -- not hashable: looking the handler up raises
        | .arr _ | .obj _ => l.cleanup
        | action@(.str a) =>
          if a = actionLogin then
            let userId := getField message (lit "user_id")
            let username := getField message (lit "username")
            { l with pc := .login id (.authenticate userId username) }
          else if a = actionRead then
            match l.userId with
            | none => l.reject id (lit "Not logged in")
            | some u => { l with pc := .read id u (.acquire .enter) }
          else if a = actionWrite then
            match l.userId with
            | none => l.reject id (lit "Not logged in")
            | some u =>
              let content := (field? message (lit "content")).getD (.str [])
              { l with pc := .write id content u (.acquire .enter) }
          else if a = actionLogout then
            l.respond { id, status := statusOk, message := some (lit "Logged out") } .release
          else if a = actionPing then
            l.respond { id, status := statusOk, message := some (lit "PONG") }
          else l.reject id (lit "Unknown action '" ++ pyFormat cfg.strRepr action ++ lit "'")
        | action => l.reject id (lit "Unknown action '" ++ pyFormat cfg.strRepr action ++ lit "'")
    | _ => { l with pc := .recv }
  -- only a dict has `get`
  | _ => l.cleanup

end ClientHandler

/-! ## The steps -/

/-- A value that `sqlite3` can bind. -/
def bindable : Json → Bool
  | .null | .bool _ | .float _ _ => true
  | .int n => decide (-2 ^ 63 ≤ n ∧ n < 2 ^ 63)
  | .str s => encodable s
  | .arr _ | .obj _ => false

/-- The query of `DataLayer.authenticate` over the rows of the table; `none` where it raises. -/
def queryUsers (realText : Text → Option Text) (rows : List (Text × Text)) (userId username : Json) :
    Option Bool :=
  if bindable userId && bindable username then
    match boundText realText userId, boundText realText username with
    | some u, some n => some (decide ((u, n) ∈ rows))
    | _, _ => some false
  else none

theorem queryUsers_eq_some {realText : Text → Option Text} {rows : List (Text × Text)} {x y : Json} :
    queryUsers realText rows x y = some true ↔ (bindable x = true ∧ bindable y = true) ∧
      ∃ u n, boundText realText x = some u ∧ boundText realText y = some n ∧ (u, n) ∈ rows := by
  unfold queryUsers
  rw [Option.ite_none_right_eq_some, Bool.and_eq_true]
  refine and_congr_right fun _ => ?_
  split
  · rename_i u n hu hn
    simp [hu, hn]
  · rename_i hnone
    simp only [Option.some.injEq, Bool.false_eq_true, false_iff]
    rintro ⟨u, n, hu, hn, -⟩
    exact hnone u n hu hn

/-- `DataLayer.authenticate`; `none` where it raises. -/
def authenticate (cfg : Config) (userId username : Json) : Option Bool :=
  queryUsers cfg.realText cfg.users userId username

/-- Only strings are accepted. -/
theorem eq_str_of_authenticate {cfg : Config} {x y : Json} (h : authenticate cfg x y = some true) :
    ∃ u n, x = .str u ∧ y = .str n ∧ (u, n) ∈ cfg.users := by
  obtain ⟨-, u, n, hu, hn, hrow⟩ := queryUsers_eq_some.1 h
  obtain ⟨u', rfl⟩ := cfg.named _ hrow x (.inl hu)
  obtain ⟨n', rfl⟩ := cfg.named _ hrow y (.inr hn)
  cases hu
  cases hn
  exact ⟨u, n, rfl, rfl, hrow⟩

section Steps

variable {H : Type} [DecidableEq H] (cfg : Config)

/-- A step of `_handle_login`. -/
def handleLogin (h : H) (s : DistResServer H) (l : ClientHandler H) (id : Json) :
    LoginPc → DistResServer H × ClientHandler H
  | .authenticate u n =>
    match u, n, authenticate cfg u n with
    | .str u, .str n, some true => (s, { l with pc := .login id (.isActive u n) })
    | _, _, some _ => (s, l.reject id (lit "Authentication failed: invalid credentials"))
    | _, _, none => (s, l.cleanup)
  | .isActive u n =>
    if s.isActive u then (s, l.reject id (u ++ lit " is already logged in elsewhere"))
    else (s, { l with pc := .login id (.acquire u n) })
  | .acquire u n =>
    if s.sessions = 0 then
      (s, l.reject id (lit "Server at capacity (" ++ lit (toString cfg.maxSessions) ++
        lit " sessions)"))
    else ({ s with sessions := s.sessions - 1 }, { l with pc := .login id (.hold u n) })
  | .hold u n =>
    (s, { l with holdsSession := true, userId := some u, pc := .login id (.register u n) })
  | .register u n => (s.registerSession u n, { l with pc := .login id (.subscribe u) })
  | .subscribe u =>
    ({ s with broker := s.broker.subscribe u h }, { l with pc := .login id (.version u) })
  | .version u =>
    let message := lit "Logged in as " ++ u
    (s, l.respond { id, status := statusOk, message := some message, version := some s.data.version })

/-- A step of `_handle_read` inside `read_resource`.  `on_acquired` sets the reader and logs. -/
def handleRead (h : H) (s : DistResServer H) (l : ClientHandler H) (id : Json) (u : Text) (pc : ReadPc)
    (a : DataAct) : Option (DistResServer H × ClientHandler H) :=
  (readResource h s.data pc a).map fun r =>
    match pc with
    | .callback => ({ s.setReader u true with data := r.1 }, { l with pc := .read id u r.2 })
    | _ => ({ s with data := r.1 }, { l with pc := .read id u r.2 })

/-- A step of `_handle_write` inside `write_resource`.  `on_acquired` sets the writer and logs. -/
def handleWrite (h : H) (s : DistResServer H) (l : ClientHandler H) (id content : Json) (u : Text)
    (pc : WritePc) (a : DataAct) : Option (DistResServer H × ClientHandler H) :=
  (writeResource h u (pyFormat cfg.strRepr content) s.data pc a).map fun r =>
    match pc with
    | .callback => ({ s.setWriter u true with data := r.1 }, { l with pc := .write id content u r.2 })
    | _ => ({ s with data := r.1 }, { l with pc := .write id content u r.2 })

/-- A step of `_release_session`. -/
def releaseStep (s : DistResServer H) (l : ClientHandler H) (caller : Caller) :
    ReleasePc → DistResServer H × ClientHandler H
  | .unsubscribe u =>
    ({ s with broker := s.broker.unsubscribe u }, { l with pc := .release (.unregister u) caller })
  | .unregister u => (s.unregisterSession u, { l with pc := .release .clear caller })
  | .clear => (s, { l with userId := none }.releaseSession caller)
  | .free =>
    if s.sessions < cfg.maxSessions then
      ({ s with sessions := s.sessions + 1 }, { l with pc := .release .unhold caller })
    else
      -- `release` raises: out of the loop into `_cleanup`, or out of `_cleanup`
      match caller with
      | .logout => (s, l.cleanup)
      | .cleanup => (s, { l with pc := .ended })
  | .unhold => (s, { l with holdsSession := false, pc := caller.return })

/-- A step of a handler. -/
def handlerStep (h : H) (s : DistResServer H) (l : ClientHandler H) (a : HandlerAct) :
    Option (DistResServer H × ClientHandler H) :=
  match l.pc, a with
  | .connecting, .accept => some (s, { l with pc := .recv })
  | .recv, .receive message => some (s, l.dispatch cfg message)
  | .recv, .hangup => some (s, l.cleanup)
  | .respond r next, .go =>
    if cfg.encodes (.response r) then some (s.send h (.response r), l.proceed next) else none
  | .respond _ _, .fail => some (s, l.cleanup)
  | .login id pc, .go => some (handleLogin cfg h s l id pc)
  | .login _ (.authenticate _ _), .fail => some (s, l.cleanup)
  | .read _ _ (.done (.error _)), .go => some (s, l.cleanup)
  | .read id u (.done (.ok r)), .go => some (s, { l with pc := .readDone id u r })
  | .read id u pc, .data a => handleRead h s l id u pc a
  | .readDone id u r, .go =>
    some (s.setReader u false,
      if r.ok then
        l.respond { id, status := statusOk, version := some r.version, content := some r.text }
      else l.reject id r.text)
  | .write _ _ _ (.done (.error _)), .go => some (s, l.cleanup)
  | .write id content u (.done (.ok r)), .go => some (s, { l with pc := .writeDone id content u r })
  | .write id content u pc, .data a => handleWrite cfg h s l id content u pc a
  | .writeDone id content u r, .go =>
    some (s.setWriter u false,
      if r.ok then
        l.respond { id, status := statusOk, version := some r.version, message := some r.text }
          (.publish r.version content)
      else l.reject id r.text)
  | .publish (.done _), .go => some (s, { l with pc := .recv })
  | .publish pc, .go => publishStep s l true pc
  | .publish pc@(.deliver _ (_ :: _) _), .fail => publishStep s l false pc
  | .release pc caller, .go => some (releaseStep cfg s l caller pc)
  | _, _ => none
where
  /-- A step inside `publish`; a delivery goes out on the subscriber's socket. -/
  publishStep (s : DistResServer H) (l : ClientHandler H) (ok : Bool) (pc : PublishPc H) :
      Option (DistResServer H × ClientHandler H) :=
    (publish s.broker ok pc).bind fun r =>
      let s := { s with broker := r.1 }
      let l := { l with pc := .publish r.2.1 }
      match r.2.2 with
      | some (subscriber, event) =>
        if cfg.encodes (.event event) then some (s.send subscriber (.event event), l) else none
      | none => some (s, l)

/-- The handlers `H` over a server whose shared file starts with the given bytes. -/
def serverPool (H : Type) [DecidableEq H] (file : Bytes) :
    Pool H (DistResServer H) (ClientHandler H) HandlerAct where
  init s := s = { data := { file := file }, sessions := cfg.maxSessions }
  start := {}
  step := handlerStep cfg

/-- The machine of the server. -/
abbrev serverMachine (H : Type) [DecidableEq H] (file : Bytes) := (serverPool cfg H file).machine

end Steps

/-! ## Runs -/

section Runs

variable {H : Type}

/-- A text without letters. -/
def letterless (t : Text) : Bool := t.all fun c => c.val < 0x41

/-- SQLite's text of a float whose `repr` is short and has no letters: the same. -/
def shortReal (r : Text) : Option Text := if letterless r then some r else none

theorem letterless_int (n : ℤ) : letterless (lit (toString n)) = true := by
  have hdigits : ∀ m : ℕ, ∀ c ∈ Nat.toDigits 10 m, c.toNat < 0x41 := by
    intro m c hc
    have := Nat.isDigit_of_mem_toDigits (by decide) (by decide) hc
    simp only [Char.isDigit, Bool.and_eq_true, decide_eq_true_eq, UInt32.le_iff_toNat_le] at this
    exact Nat.lt_of_le_of_lt this.2 (by decide)
  have hlit : lit (toString n) = (Int.repr n).toList.map codePoint := rfl
  rw [hlit, letterless, List.all_map, List.all_eq_true]
  intro c hc
  refine decide_eq_true ?_
  show c.toNat < 0x41
  cases n with
  | ofNat m => exact hdigits m c (by simpa [Int.repr] using hc)
  | negSucc m =>
    have hc : c = '-' ∨ c ∈ Nat.toDigits 10 (m + 1) := by simpa [Int.repr] using hc
    rcases hc with rfl | hc
    · decide
    · exact hdigits _ c hc

/-- Numbers are written without letters. -/
theorem letterless_boundText {x : Json} {t : Text} (h : boundText shortReal x = some t)
    (ht : letterless t = false) : ∃ s, x = .str s := by
  cases x with
  | str s => exact ⟨s, rfl⟩
  | bool b => cases b <;> cases h <;> cases ht
  | float r i =>
    obtain ⟨hr, heq⟩ := Option.ite_none_right_eq_some.1 h
    cases heq
    rw [hr] at ht
    cases ht
  | int n =>
    cases h
    rw [letterless_int] at ht
    cases ht
  | null | arr | obj => cases h

/-- The server as it is shipped, over an empty file. -/
def shippedConfig : Config where
  maxSessions := 5
  users := preAssignedUsers
  strRepr s := lit "'" ++ s ++ lit "'"
  realText := shortReal
  named row hrow x hx := by
    have hletters : ∀ row ∈ preAssignedUsers, letterless row.1 = false ∧ letterless row.2 = false := by
      decide
    rcases hx with hx | hx
    · exact letterless_boundText hx (hletters row hrow).1
    · exact letterless_boundText hx (hletters row hrow).2
  encodes
    -- a RESPONSE is nested once more than its id, an EVENT twice more than its summary
    | .response r => r.id.within 984
    | .event e => e.payload.summary.within 983

/-- The start of a run of the server with the given configuration. -/
def serverStart (cfg : Config) : Pool.State H (DistResServer H) (ClientHandler H) :=
  ⟨{ data := { file := [] }, sessions := cfg.maxSessions }, fun _ => {}⟩

/-- `h` receives a LOGIN that is accepted, and replies. -/
def acceptLogin (h : H) (userId username : Text) : List (H × HandlerAct) :=
  (h, .receive (requestMessage 1 actionLogin (loginParams userId username))) :: List.replicate 8 (h, .go)

/-- `h` receives a WRITE that commits, up to the reply. -/
def commitWrite (h : H) (text : Text) (size : ℕ) : List (H × HandlerAct) :=
  [(h, .receive (requestMessage 2 actionWrite (writeParams text))), (h, .data (.lock false)),
    (h, .data .go), (h, .data (.openAt (lit "now"))), (h, .data (.flush size)), (h, .data .go),
    (h, .data (.release 0)), (h, .go), (h, .go)]

end Runs

end DistRes
