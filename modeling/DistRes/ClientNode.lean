import DistRes.Connection

/-!
# The client node (`client_node.py`)

The state that the browser is shown, and what the request threads and the callbacks of the
connection do to it.  A request thread calls a method of the connection, which returns some reply,
and then updates the state under `_state_lock`: two steps, between which anything may happen.
-/

namespace DistRes

open Lib

/-! ## The state -/

/-- What the node reads of the dict that a method of the connection returns. -/
structure Reply where
  status : Text
  version : Option ℕ := none
  content : Option Text := none

/-- A RESPONSE of the server, as it is returned. -/
def Response.reply (r : Response) : Reply := ⟨r.status, r.version, r.content⟩

/-- An entry of the update feed. -/
structure Notification where
  version : ℕ
  updatedBy : Option Text
  summary : Json

/-- `_node`. -/
structure Node where
  connection : ConnectionState := .disconnected
  user : Option (Text × Text) := none
  version : Option ℕ := none
  content : Text := []
  contentVersion : Option ℕ := none
  contentLoaded : Bool := false
  contentStale : Bool := false
  statusMessage : Text := lit "Login, then press Read Resource to fetch the file."
  notifications : List Notification := []

/-- A version in an f-string. -/
def formatVersion : Option ℕ → Text
  | some v => lit (toString v)
  | none => lit "None"

/-- `deque(maxlen=20).append`. -/
def appendNotification (notifications : List Notification) (x : Notification) : List Notification :=
  let all := notifications ++ [x]
  all.drop (all.length - 20)

namespace Node

/-! ## The callbacks -/

/-- `_on_event`. -/
def onEvent (n : Node) (e : Event) : Node :=
  let newVersion := e.payload.version
  let n' := { n with
    version := some newVersion
    notifications := appendNotification n.notifications
      ⟨newVersion, e.payload.updatedBy, e.payload.summary⟩ }
  if n.contentLoaded ∧ some newVersion ≠ n.contentVersion then
    { n' with
      contentStale := true
      statusMessage := lit "Resource updated to v" ++ lit (toString newVersion) ++ lit ". " ++
        lit "Your displayed file is a cached snapshot; press Read Resource to refresh." }
  else
    { n' with
      statusMessage := lit "Resource updated to v" ++ lit (toString newVersion) ++
        lit ". Press Read Resource to load it." }

/-- `_on_state`. -/
def onState (n : Node) (state : ConnectionState) : Node := { n with connection := state }

/-! ## The request threads -/

/-- What `api_login` does with the reply. -/
def apiLogin (n : Node) (userId username : Text) (resp : Reply) : Node :=
  if resp.status = statusOk then
    { n with
      user := some (userId, username)
      version := resp.version
      content := []
      contentVersion := none
      contentLoaded := false
      contentStale := false
      statusMessage := lit "Logged in. File contents are not loaded yet; press Read Resource " ++
        lit "to request a shared-lock snapshot from the server." }
  else n

/-- What `api_logout` does, whatever the reply. -/
def apiLogout (n : Node) : Node :=
  { n with
    user := none
    version := none
    content := []
    contentVersion := none
    contentLoaded := false
    contentStale := false
    statusMessage := lit "Logged out. Login to access the distributed resource." }

/-- What `api_read` does with the reply. -/
def apiRead (n : Node) (resp : Reply) : Node :=
  if resp.status = statusOk then
    { n with
      version := resp.version
      content := resp.content.getD []
      contentVersion := resp.version
      contentLoaded := true
      contentStale := false
      statusMessage := lit "Loaded file snapshot v" ++ formatVersion resp.version ++
        lit " using a shared read lock." }
  else n

/-- What `api_write` does with the reply. -/
def apiWrite (n : Node) (resp : Reply) : Node :=
  if resp.status = statusOk then
    { n with
      version := resp.version
      contentStale := if n.contentLoaded ∧ resp.version ≠ n.contentVersion then true else n.contentStale
      statusMessage := lit "Write committed as v" ++ formatVersion resp.version ++
        lit ". Press Read Resource to reload the file." }
  else n

end Node

/-- A request of the browser. -/
inductive ApiCall
  | login (userId username : Text)
  | logout
  | read
  | write (content : Text)

/-- The update of the state at the end of a request. -/
def ApiCall.update (n : Node) (resp : Reply) : ApiCall → Node
  | .login u name => n.apiLogin u name resp
  | .logout => n.apiLogout
  | .read => n.apiRead resp
  | .write _ => n.apiWrite resp

/-! ## The threads -/

/-- Where a request thread is. -/
inductive ApiPc
  | idle
  /-- in the method of the connection -/
  | calling (call : ApiCall)
  /-- about to take `_state_lock` -/
  | returned (call : ApiCall) (resp : Reply)

/-- The node and its request threads. -/
structure NodeState (U : Type) where
  node : Node := {}
  thread : U → ApiPc := fun _ => .idle

inductive NodeAct (U : Type)
  | call (t : U) (call : ApiCall)
  /-- the method returns -/
  | return (t : U) (resp : Reply)
  /-- the section of `_state_lock` -/
  | update (t : U)
  | event (e : Event)
  | state (state : ConnectionState)

def nodeStep {U : Type} [DecidableEq U] (s : NodeState U) : NodeAct U → Option (NodeState U)
  | .call t call =>
    match s.thread t with
    | .idle => some { s with thread := Function.update s.thread t (.calling call) }
    | _ => none
  | .return t resp =>
    match s.thread t with
    | .calling call => some { s with thread := Function.update s.thread t (.returned call resp) }
    | _ => none
  | .update t =>
    match s.thread t with
    | .returned call resp => some ⟨call.update s.node resp, Function.update s.thread t .idle⟩
    | _ => none
  | .event e => some { s with node := s.node.onEvent e }
  | .state state => some { s with node := s.node.onState state }

/-- A node, from its start.  The replies and the EVENTs are arbitrary. -/
def nodeMachine (U : Type) [DecidableEq U] : Machine (NodeState U) (NodeAct U) where
  init s := s = {}
  step := nodeStep

end DistRes
