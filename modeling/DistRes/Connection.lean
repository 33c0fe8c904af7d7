import DistRes.Lib.Correlation
import DistRes.Protocol

/-!
# The client's connection (`connection.py`)

One `ServerConnection`: any number of threads `U` that call its methods, the thread that calls
`start` and goes on as the listener, and the heartbeat.  Every section of a lock is one step, except
where the code stays in it across several steps (the send lock around `sendall`, the pending lock in
the sweep of `_reconnect`); every access to a shared attribute outside of a lock is one step.

`K` are the sockets.  What the network does is in the actions: a connection attempt succeeds with a
socket or fails, any send may raise, `read_message` returns any message or none at any time.
-/

namespace DistRes

open Lib

/-! ## The state -/

/-- A dict that is a message. -/
abbrev Message := List (Text × Json)

/-- The values of `_state`. -/
inductive ConnectionState
  | connected
  | disconnected
  | reconnecting
  deriving DecidableEq

/-- A `_PendingRequest`. -/
abbrev PendingRequest := Slot Message

/-- A REQUEST as it is sent. -/
structure Request where
  id : ℕ
  action : Text
  params : List (Text × Json)

def Request.fields (r : Request) : Message := requestFields r.id r.action r.params

def Request.toJson (r : Request) : Json := .obj r.fields

/-- The attributes that the threads share, and what has been sent on each socket.  `pending` are the
keys of `_pending` in the order of insertion; the slot of a key is found in `slots`, where it stays
for the caller that holds it. -/
structure ServerConnection (K : Type) where
  sock : Option K := none
  reader : Option K := none
  state : ConnectionState := .disconnected
  nextId : ℕ := 1
  pending : List ℕ := []
  slots : ℕ → PendingRequest := fun _ => {}
  pendingLock : Bool := false
  sendLock : Bool := false
  credentials : Option (Text × Text) := none
  running : Bool := true
  /-- `start` has returned -/
  started : Bool := false
  closed : List K := []
  sent : K → List Request := fun _ => []

/-! ## Replies made by the client -/

def localError (message : Text) : Message :=
  [(lit "status", .str statusError), (lit "message", .str message)]

def connectionUnavailable : Message :=
  localError (lit "Connection unavailable - retrying in background")

def requestTimedOut : Message := localError (lit "Request timed out")
def connectionLost : Message := localError (lit "Connection lost")

/-! ## What threads do -/

/-- A method of the connection that a thread can call. -/
inductive Method
  | login (userId username : Text)
  | logout
  | read
  | write (content : Text)
  | request (action : Text) (params : List (Text × Json))
  | close

/-- What a thread does. -/
inductive ClientAct (K : Type)
  /-- calls a method -/
  | call (m : Method)
  /-- takes its next step, which does not raise -/
  | go
  /-- takes its next step, which raises an `OSError` -/
  | fail
  /-- takes its next step, in which a callback raises; or gets a `RecursionError` from `read_message` -/
  | crash
  /-- runs out of time in `wait` -/
  | timeout
  /-- is connected, over a new socket -/
  | connect (k : K)
  /-- gets a message from `read_message` -/
  | receive (message : Json)
  /-- gets `None`, an `OSError` or a `ValueError` from `read_message` -/
  | unreadable

section Steps

variable {K : Type} [DecidableEq K]

namespace ServerConnection

def setState (s : ServerConnection K) (state : ConnectionState) : ServerConnection K :=
  { s with state }

def setSlot (s : ServerConnection K) (id : ℕ) (slot : PendingRequest) : ServerConnection K :=
  { s with slots := Function.update s.slots id slot }

/-- `self._pending.pop(id, None)`, for a key that is an id. -/
def popPending (s : ServerConnection K) (id : ℕ) : ServerConnection K :=
  { s with pending := s.pending.erase id }

/-- A message goes out on the socket `k`. -/
def transmit (s : ServerConnection K) (k : K) (r : Request) : ServerConnection K :=
  { s with sent := Function.update s.sent k (s.sent k ++ [r]) }

end ServerConnection

/-! ### `_raw_send` -/

/-- Where a thread is in `_raw_send`. -/
inductive SendPc (K : Type)
  | lock
  | pick
  | sendall (k : K)
  | sent
  | raised

/-- A step of `_raw_send`, which raises unless `ok`. -/
def rawSend (r : Request) (s : ServerConnection K) :
    SendPc K → Bool → Option (ServerConnection K × SendPc K)
  | .lock, true => if s.sendLock then none else some ({ s with sendLock := true }, .pick)
  | .pick, true =>
    match s.sock with
    | some k => some (s, .sendall k)
    | none => some ({ s with sendLock := false }, .raised)
  | .sendall k, true =>
    if k ∈ s.closed then none else some ({ s.transmit k r with sendLock := false }, .sent)
  | .sendall _, false => some ({ s with sendLock := false }, .raised)
  | _, _ => none

/-! ### `request` -/

/-- Where a thread is in `request`, with the id of its request from `next` on. -/
inductive RequestPc (K : Type)
  | next
  | insert (id : ℕ)
  | send (id : ℕ) (pc : SendPc K)
  | failed (id : ℕ)
  | wait (id : ℕ)
  | timedOut (id : ℕ)
  | fetch (id : ℕ)
  /-- about to return -/
  | done (id : ℕ) (reply : Option Message)

/-- A call of `request`. -/
structure RequestCall (K : Type) where
  action : Text
  params : List (Text × Json)
  pc : RequestPc K := .next

/-- Where `request` goes on from a point of `_raw_send`. -/
def RequestPc.ofSend (id : ℕ) : SendPc K → RequestPc K
  | .sent => .wait id
  | .raised => .failed id
  | pc => .send id pc

/-- A step of `request`.  Running out of time may coincide with the event being set. -/
def requestStep (s : ServerConnection K) (c : RequestCall K) (a : ClientAct K) :
    Option (ServerConnection K × RequestCall K) :=
  match c.pc, a with
  | .next, .go =>
    some ({ s.setSlot s.nextId {} with nextId := s.nextId + 1 }, { c with pc := .insert s.nextId })
  | .insert id, .go =>
    if s.pendingLock then none
    else some ({ s with pending := s.pending ++ [id] }, { c with pc := .send id .lock })
  | .send id pc, .go => send id pc true
  | .send id pc, .fail => send id pc false
  | .failed id, .go =>
    if s.pendingLock then none
    else some (s.popPending id, { c with pc := .done id (some connectionUnavailable) })
  | .wait id, .go => if (s.slots id).event then some (s, { c with pc := .fetch id }) else none
  | .wait id, .timeout => some (s, { c with pc := .timedOut id })
  | .timedOut id, .go =>
    if s.pendingLock then none
    else some (s.popPending id, { c with pc := .done id (some requestTimedOut) })
  | .fetch id, .go => some (s, { c with pc := .done id (s.slots id).response })
  | _, _ => none
where
  send (id : ℕ) (pc : SendPc K) (ok : Bool) : Option (ServerConnection K × RequestCall K) :=
    (rawSend ⟨id, c.action, c.params⟩ s pc ok).map fun r => (r.1, { c with pc := .ofSend id r.2 })

/-! ### The methods -/

/-- Where a thread is in a method. -/
inductive UserPc (K : Type)
  | idle
  | login (userId username : Text)
  | request (c : RequestCall K) (logout : Bool)
  | forget
  | close
  | closeState
  | closeSock

/-- Into a method. -/
def UserPc.start : Method → UserPc K
  | .login u n => .login u n
  | .logout => .request { action := actionLogout, params := [] } true
  | .read => .request { action := actionRead, params := [] } false
  | .write content => .request { action := actionWrite, params := writeParams content } false
  | .request action params => .request { action, params } false
  | .close => .close

/-- A step of a thread that calls methods. -/
def userStep (s : ServerConnection K) : UserPc K → ClientAct K → Option (ServerConnection K × UserPc K)
  | .idle, .call m => some (s, .start m)
  | .login u n, .go =>
    some ({ s with credentials := some (u, n) },
      .request { action := actionLogin, params := loginParams u n } false)
  | .request ⟨_, _, .done _ _⟩ logout, .go => some (s, if logout then .forget else .idle)
  | .request c logout, a => (requestStep s c a).map fun r => (r.1, .request r.2 logout)
  | .forget, .go => some ({ s with credentials := none }, .idle)
  | .close, .go => some ({ s with running := false }, .closeState)
  | .closeState, .go => some (s.setState .disconnected, .closeSock)
  | .closeState, .crash => some (s.setState .disconnected, .idle)
  | .closeSock, .go => some ({ s with closed := s.sock.toList ++ s.closed }, .idle)
  | _, _ => none

/-! ### The listener -/

/-- Where the thread is in `_connect_with_retry`. -/
inductive ConnectPc (K : Type)
  | check
  | attempt
  | setSock (k : K)
  | setReader (k : K)
  | setConnected
  | setReconnecting
  | sleep
  | done

/-- A step of `_connect_with_retry`.  An `OSError` of the callback counts as a failed attempt. -/
def connectStep (s : ServerConnection K) :
    ConnectPc K → ClientAct K → Option (ServerConnection K × ConnectPc K)
  | .check, .go => some (s, if s.running then .attempt else .done)
  | .attempt, .connect k => some (s, .setSock k)
  | .attempt, .fail => some (s, .setReconnecting)
  | .setSock k, .go => some ({ s with sock := some k }, .setReader k)
  | .setReader k, .go => some ({ s with reader := some k }, .setConnected)
  | .setConnected, .go => some (s.setState .connected, .done)
  | .setConnected, .fail => some (s.setState .connected, .setReconnecting)
  | .setReconnecting, .go => some (s.setState .reconnecting, .sleep)
  | .sleep, .go => some (s, .check)
  | _, _ => none

/-- Where the thread of `start` and `_listen_loop` is. -/
inductive ListenerPc (K : Type)
  /-- in `_connect_with_retry`, called by `start` or by `_reconnect` -/
  | connect (pc : ConnectPc K) (again : Bool)
  | loop
  | read
  | reading (k : K)
  | recover
  | handle (message : Message)
  | resolve (id : ℕ) (message : Message)
  | wake (id : ℕ)
  | reconnect
  | setReconnecting
  | lockPending
  /-- holding the pending lock, with the slots `todo` still to be failed -/
  | sweep (todo : List ℕ)
  | sweepWake (id : ℕ) (todo : List ℕ)
  | checkRunning
  | checkCredentials
  | unpack
  | relogin (c : RequestCall K)
  | ended
  | died

/-- `x == id` for a key `id`. -/
def equalsId : Json → ℕ → Bool
  | .int n, id => n = id
  | .bool b, id => id = if b then 1 else 0
  | .float _ n, id => n = some (id : ℤ)
  | _, _ => false

/-- `_handle_incoming`, up to the first change of a slot. -/
def handleIncoming (s : ServerConnection K) (m : Message) : Option (ServerConnection K × ListenerPc K) :=
  match getField m (lit "type") with
  | .str t =>
    if t = typeResponse then
      if s.pendingLock then none
      else
        match getField m (lit "id") with
        -- not hashable: `pop` raises, unless there is nothing to look for it in
        | .arr _ | .obj _ => some (s, if s.pending = [] then .loop else .died)
        | x =>
          match s.pending.find? (equalsId x) with
          | some id => some (s.popPending id, .resolve id m)
          | none => some (s, .loop)
    else some (s, .loop)
  | _ => some (s, .loop)

/-- The callback of `_handle_incoming` raises. -/
def eventRaises (m : Message) : Bool :=
  match getField m (lit "type") with
  | .str t => t = typeEvent
  | _ => false

/-- A step of the thread of `start` and `_listen_loop`. -/
def listenerStep (s : ServerConnection K) :
    ListenerPc K → ClientAct K → Option (ServerConnection K × ListenerPc K)
  | .connect .done again, .go =>
    some (if again then (s, .checkRunning) else ({ s with started := true }, .loop))
  | .connect .setConnected _, .crash => some (s.setState .connected, .died)
  | .connect .setReconnecting _, .crash => some (s.setState .reconnecting, .died)
  | .connect pc again, a => (connectStep s pc a).map fun r => (r.1, .connect r.2 again)
  | .loop, .go => some (s, if s.running then .read else .ended)
  | .read, .go =>
    match s.reader with
    | some k => some (s, .reading k)
    | none => some (s, .died)
  | .reading _, .receive (.obj m) => some (s, .handle m)
  | .reading _, .receive .null => some (s, .recover)
  -- only a dict has `get`
  | .reading _, .receive _ => some (s, .died)
  | .reading _, .unreadable => some (s, .recover)
  -- `json.loads` raises it for a line that is nested too deeply, and only the other two are caught
  | .reading _, .crash => some (s, .died)
  | .recover, .go => some (s, if s.running then .reconnect else .loop)
  | .handle m, .go => handleIncoming s m
  | .handle m, .crash => if eventRaises m then some (s, .died) else none
  | .resolve id m, .go =>
    some (s.setSlot id { s.slots id with response := some m }, .wake id)
  | .wake id, .go => some (s.setSlot id { s.slots id with event := true }, .loop)
  | .reconnect, .go => some (s, if s.running then .setReconnecting else .loop)
  | .setReconnecting, .go => some (s.setState .reconnecting, .lockPending)
  | .setReconnecting, .crash => some (s.setState .reconnecting, .died)
  | .lockPending, .go =>
    if s.pendingLock then none else some ({ s with pendingLock := true }, .sweep s.pending)
  | .sweep (id :: todo), .go =>
    some (s.setSlot id { s.slots id with response := some connectionLost }, .sweepWake id todo)
  | .sweepWake id todo, .go =>
    some (s.setSlot id { s.slots id with event := true }, .sweep todo)
  | .sweep [], .go => some ({ s with pending := [], pendingLock := false }, .connect .check true)
  | .checkRunning, .go => some (s, if s.running then .checkCredentials else .loop)
  | .checkCredentials, .go => some (s, if s.credentials.isSome then .unpack else .loop)
  | .unpack, .go =>
    match s.credentials with
    | some (u, n) => some (s, .relogin { action := actionLogin, params := loginParams u n })
    -- `None` cannot be unpacked
    | none => some (s, .died)
  | .relogin ⟨_, _, .done _ _⟩, .go => some (s, .loop)
  | .relogin c, a => (requestStep s c a).map fun r => (r.1, .relogin r.2)
  | _, _ => none

/-! ### The heartbeat -/

/-- Where the heartbeat is. -/
inductive BeatPc (K : Type)
  | off
  | loop
  | sleep
  | check
  | next
  | send (id : ℕ) (pc : SendPc K)
  | ended

def BeatPc.ofSend (id : ℕ) : SendPc K → BeatPc K
  | .sent | .raised => .loop
  | pc => .send id pc

/-- A step of the heartbeat. -/
def beatStep (s : ServerConnection K) : BeatPc K → ClientAct K → Option (ServerConnection K × BeatPc K)
  | .off, .go => if s.started then some (s, .loop) else none
  | .loop, .go => some (s, if s.running then .sleep else .ended)
  | .sleep, .go => some (s, .check)
  | .check, .go => some (s, if s.state = .connected then .next else .loop)
  | .next, .go => some ({ s with nextId := s.nextId + 1 }, .send s.nextId .lock)
  | .send id pc, .go => ping id pc true
  | .send id pc, .fail => ping id pc false
  | _, _ => none
where
  ping (id : ℕ) (pc : SendPc K) (ok : Bool) : Option (ServerConnection K × BeatPc K) :=
    (rawSend ⟨id, actionPing, []⟩ s pc ok).map fun r => (r.1, .ofSend id r.2)

/-! ## The threads together -/

/-- The threads of a client. -/
inductive Thread (U : Type)
  | user (u : U)
  | listener
  | beat
  deriving DecidableEq

/-- A connection with all its threads. -/
structure Client (U K : Type) where
  conn : ServerConnection K := {}
  user : U → UserPc K := fun _ => .idle
  listener : ListenerPc K := .connect .check false
  beat : BeatPc K := .off

section Client

variable {U : Type} [DecidableEq U]

def clientStep (s : Client U K) (a : Thread U × ClientAct K) : Option (Client U K) :=
  match a.1 with
  | .user u => (userStep s.conn (s.user u) a.2).map fun r =>
    { s with conn := r.1, user := Function.update s.user u r.2 }
  | .listener => (listenerStep s.conn s.listener a.2).map fun r =>
    { s with conn := r.1, listener := r.2 }
  | .beat => (beatStep s.conn s.beat a.2).map fun r => { s with conn := r.1, beat := r.2 }

/-! ### Histories -/

/-- A call of `request` that has returned. -/
structure Returned (U : Type) where
  caller : Thread U
  request : Request
  reply : Option Message

/-- What has happened on a connection: the requests and PINGs that have got an id, the messages that
the listener has got, those that it has matched with a slot, and the calls of `request` that have
returned. -/
structure ClientHistory (U : Type) where
  issued : List Request := []
  received : List Message := []
  matched : List (ℕ × Message) := []
  returns : List (Returned U) := []

/-- What gets an id in a step of a call. -/
def RequestCall.issues (conn : ServerConnection K) (c : RequestCall K) (a : ClientAct K) :
    List Request :=
  match c.pc, a with
  | .next, .go => [⟨conn.nextId, c.action, c.params⟩]
  | _, _ => []

/-- What returns in a step of a call of `t`. -/
def RequestCall.returning (t : Thread U) (c : RequestCall K) (a : ClientAct K) : List (Returned U) :=
  match c.pc, a with
  | .done id reply, .go => [⟨t, ⟨id, c.action, c.params⟩, reply⟩]
  | _, _ => []

/-- The call of `request` that the thread is in. -/
def UserPc.call? : UserPc K → Option (RequestCall K)
  | .request c _ => some c
  | _ => none

def ListenerPc.call? : ListenerPc K → Option (RequestCall K)
  | .relogin c => some c
  | _ => none

def Client.call? (s : Client U K) : Thread U → Option (RequestCall K)
  | .user u => (s.user u).call?
  | .listener => s.listener.call?
  | .beat => none

/-- What the heartbeat gives an id in a step. -/
def BeatPc.issues (conn : ServerConnection K) : BeatPc K → ClientAct K → List Request
  | .next, .go => [⟨conn.nextId, actionPing, []⟩]
  | _, _ => []

/-- The message that the listener gets in a step. -/
def ListenerPc.receives : ListenerPc K → ClientAct K → List Message
  | .reading _, .receive (.obj m) => [m]
  | _, _ => []

/-- The message that the listener matches with a slot in a step. -/
def ListenerPc.matches (conn : ServerConnection K) : ListenerPc K → ClientAct K → List (ℕ × Message)
  | .handle m, .go =>
    match handleIncoming conn m with
    | some (_, .resolve id m) => [(id, m)]
    | _ => []
  | _, _ => []

/-- The history after a step of the client. -/
def ClientHistory.next (h : ClientHistory U) (s : Client U K) (a : Thread U × ClientAct K) :
    ClientHistory U :=
  let calls := (s.call? a.1).toList
  let h := { h with
    issued := h.issued ++ calls.flatMap (·.issues s.conn a.2)
    returns := h.returns ++ calls.flatMap (·.returning a.1 a.2) }
  match a.1 with
  | .user _ => h
  | .listener =>
    { h with
      received := h.received ++ s.listener.receives a.2
      matched := h.matched ++ s.listener.matches s.conn a.2 }
  | .beat => { h with issued := h.issued ++ s.beat.issues s.conn a.2 }

omit [DecidableEq K] [DecidableEq U] in
theorem issued_subset (h : ClientHistory U) (s : Client U K) (a : Thread U × ClientAct K) :
    h.issued ⊆ (h.next s a).issued := by
  rcases a with ⟨u | _ | _, act⟩
  · exact List.subset_append_left _ _
  · exact List.subset_append_left _ _
  · exact List.Subset.trans (List.subset_append_left _ _) (List.subset_append_left _ _)

/-- A client with its threads, and what has happened on its connection. -/
def clientMachine (U K : Type) [DecidableEq U] [DecidableEq K] :
    Machine (Client U K × ClientHistory U) (Thread U × ClientAct K) :=
  (⟨fun s => s = {}, clientStep⟩ : Machine (Client U K) (Thread U × ClientAct K)).withHistory
    ({} : ClientHistory U) fun h s a _ => h.next s a

end Client

end Steps

/-! ## Runs -/

section Runs

variable {U K : Type}

/-- The thread of `start` connects, and goes on as the listener up to `read_message`. -/
def startOn (k : K) : List (Thread U × ClientAct K) :=
  [(.listener, .go), (.listener, .connect k)] ++ List.replicate 6 (.listener, .go)

/-- `u` calls READ, and the request is sent. -/
def sendRead (u : U) : List (Thread U × ClientAct K) :=
  (.user u, .call .read) :: List.replicate 5 (.user u, .go)

/-- A RESPONSE with the given id. -/
def responseTo (id : ℤ) : Message :=
  [(lit "type", .str typeResponse), (lit "id", .int id), (lit "status", .str statusOk)]

end Runs

end DistRes
