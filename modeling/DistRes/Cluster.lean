import DistRes.ClientNode
import DistRes.Replies

/-!
# Nodes and server together

One server and any number of client nodes (`client_node.py`), each over its own connection.  The
callbacks run on the threads of the connection, within their steps; a request thread calls a method
of the connection, and updates the node in a step of its own once the method has returned.

* `Cluster` and `clusterMachine` — the nodes beside the `System` that their connections are part of;
* `system_of_cluster` — its runs are runs of the system;
* `AskingInv` — a request thread is in the method that it has called;
* `returned_read` — what `api_read` is about to show comes from the server.
-/

namespace DistRes

open Lib

/-! ## What the node reads of a message -/

/-- A version. -/
def Json.version? (x : Json) : Option ℕ := x.int?.bind Int.toNat?

/-- The dict that a method of the connection has returned.  On `None`, `get` raises before anything
is updated. -/
def Reply.of : Option Message → Reply
  | some m => {
      status := (getField m (lit "status")).text?.getD []
      version := (getField m (lit "version")).version?
      content := (getField m (lit "content")).text? }
  | none => { status := [] }

/-- What `_on_event` reads of an EVENT. -/
def eventOf (m : Message) : Option Event :=
  match getField m (lit "type"), getField m (lit "payload") with
  | .str t, .obj payload =>
    if t = typeEvent then
      (getField payload (lit "version")).version?.map fun version =>
        { topic := (getField m (lit "topic")).text?.getD []
          payload := {
            version
            updatedBy := (getField payload (lit "updated_by")).text?
            summary := getField payload (lit "summary") } }
    else none
  | _, _ => none

@[simp] theorem version?_int (v : ℕ) : (Json.int v).version? = some v := rfl

/-- Nothing of a RESPONSE is lost. -/
theorem reply_of_response {r : Response} {m : Message} (hr : r.toJson = .obj m) :
    Reply.of (some m) = r.reply := by
  obtain ⟨id, status, message, version, content⟩ := r
  cases hr
  rcases message with _ | message <;> rcases version with _ | version <;> rcases content with _ | content <;>
    rfl

/-- Nothing of an EVENT is lost. -/
theorem eventOf_event {e : Event} {m : Message} (he : e.toJson = .obj m) : eventOf m = some e := by
  obtain ⟨topic, version, updatedBy, summary⟩ := e
  cases he
  rcases updatedBy with _ | u <;> rfl

/-! ## The nodes -/

/-- The method that a request thread calls. -/
def ApiCall.method : ApiCall → Method
  | .login u n => .login u n
  | .logout => .logout
  | .read => .read
  | .write content => .write content

/-- The system with the node of every client. -/
structure Cluster (C U H : Type) where
  sys : System C U H
  node : C → NodeState U := fun _ => {}

/-- What happens. -/
inductive ClusterAct (C U H : Type)
  /-- the browser asks for something -/
  | ask (c : C) (u : U) (call : ApiCall)
  /-- a request thread updates the node -/
  | update (c : C) (u : U)
  /-- a connection or the server does something -/
  | system (a : SystemAct C U H)

section Cluster

variable {C U H : Type} [DecidableEq C] [DecidableEq U] [DecidableEq H]

/-- What a method returns at this point.  `api_logout` does not look at it. -/
def UserPc.reply : UserPc H → Option Reply
  | .request ⟨_, _, .done _ reply⟩ false => some (.of reply)
  | .forget => some (.of none)
  | _ => none

/-- What the node sees of a step of its connection. -/
def Client.seen (s s' : Client U H) : Thread U → ClientAct H → Option (NodeAct U)
  | .user u, .go => (s.user u).reply.map (.return u)
  | .listener, .go =>
    match s.listener with
    | .handle m => (eventOf m).map .event
    | _ => if s'.conn.state = s.conn.state then none else some (.state s'.conn.state)
  | _, _ => none

/-- The callbacks of a node do not raise, and its methods are called by request threads. -/
def Client.allows (s : Client U H) : Thread U → ClientAct H → Bool
  | .listener, .crash => s.listener.isReading
  | _, .call _ | _, .crash => false
  | .listener, .fail =>
    match s.listener with
    | .connect .setConnected _ => false
    | _ => true
  | _, _ => true

def System.allows (s : System C U H) : SystemAct C U H → Bool
  | .client c t a => (s.client c).allows t a
  | _ => true

namespace Cluster

/-- The nodes after a step of the system.  Neither a callback nor a return waits for the node. -/
def observe (s : Cluster C U H) (a : SystemAct C U H) (sys : System C U H) : C → NodeState U :=
  match s.sys.clientAct a with
  | some (c, t, act) =>
    match (s.sys.client c).seen (sys.client c) t act with
    | some x => Function.update s.node c ((nodeStep (s.node c) x).getD (s.node c))
    | none => s.node
  | none => s.node

end Cluster

variable (cfg : Config) (file : Bytes)

def clusterStep (s : Cluster C U H) : ClusterAct C U H → Option (Cluster C U H)
  | .ask c u call =>
    (nodeStep (s.node c) (.call u call)).bind fun n =>
      (systemStep cfg file s.sys (.client c (.user u) (.call call.method))).map fun sys =>
        { sys, node := Function.update s.node c n }
  | .update c u =>
    (nodeStep (s.node c) (.update u)).map fun n => { s with node := Function.update s.node c n }
  | .system a =>
    if s.sys.allows a then (systemStep cfg file s.sys a).map fun sys => ⟨sys, s.observe a sys⟩
    else none

/-- What happens in the system. -/
def ClusterAct.act : ClusterAct C U H → Option (SystemAct C U H)
  | .ask c u call => some (.client c (.user u) (.call call.method))
  | .update _ _ => none
  | .system a => some a

/-- The cluster over a file with the given bytes, with what has happened in its system. -/
def clusterMachine (C U H : Type) [DecidableEq C] [DecidableEq U] [DecidableEq H] :
    Machine (Cluster C U H × SystemHistory C U H) (ClusterAct C U H) :=
  (⟨fun s => ((∀ c, s.sys.client c = {}) ∧ (serverMachine cfg H file).init s.sys.server ∧
      (∀ h, s.sys.owner h = none) ∧ (∀ h, s.sys.arrived h = 0) ∧ ∀ h, s.sys.taken h = 0) ∧
      ∀ c, s.node c = {},
    clusterStep cfg file⟩ : Machine (Cluster C U H) (ClusterAct C U H)).withHistory
      ({} : SystemHistory C U H) fun L s a _ => (a.act.map (L.next cfg s.sys)).getD L

/-! ## The parts -/

variable {cfg file} {s s' : Cluster C U H} {a : ClusterAct C U H} {L : SystemHistory C U H}

/-- **The steps of the cluster.** -/
inductive ClusterStep (cfg : Config) (file : Bytes) (s : Cluster C U H) :
    ClusterAct C U H → Cluster C U H → Prop
  | ask (c : C) (u : U) (call : ApiCall) {sys : System C U H} : (s.node c).thread u = .idle →
      systemStep cfg file s.sys (.client c (.user u) (.call call.method)) = some sys →
      ClusterStep cfg file s (.ask c u call)
        ⟨sys, Function.update s.node c
          { s.node c with thread := Function.update (s.node c).thread u (.calling call) }⟩
  | update (c : C) (u : U) (call : ApiCall) (resp : Reply) : (s.node c).thread u = .returned call resp →
      ClusterStep cfg file s (.update c u)
        ⟨s.sys, Function.update s.node c
          ⟨call.update (s.node c).node resp, Function.update (s.node c).thread u .idle⟩⟩
  | system (a : SystemAct C U H) {sys : System C U H} : s.sys.allows a = true →
      systemStep cfg file s.sys a = some sys →
      ClusterStep cfg file s (.system a) ⟨sys, s.observe a sys⟩

theorem clusterStep_cases (hs : clusterStep cfg file s a = some s') : ClusterStep cfg file s a s' := by
  cases a with
  | ask c u call =>
    obtain ⟨n, hn, hmap⟩ := Option.bind_eq_some_iff.1 hs
    obtain ⟨sys, hsys, rfl⟩ := Option.map_eq_some_iff.1 hmap
    clear hs hmap
    simp only [nodeStep] at hn
    split at hn <;> cases hn
    rename_i ht
    exact .ask c u call ht hsys
  | update c u =>
    obtain ⟨n, hn, rfl⟩ := Option.map_eq_some_iff.1 hs
    simp only [nodeStep] at hn
    split at hn <;> cases hn
    rename_i call resp ht
    exact .update c u call resp ht
  | system a =>
    simp only [clusterStep] at hs
    split at hs
    · rename_i hallows
      obtain ⟨sys, hsys, rfl⟩ := Option.map_eq_some_iff.1 hs
      exact .system a hallows hsys
    · cases hs

omit [DecidableEq H] in
theorem plain_method (call : ApiCall) : (ClientAct.call call.method : ClientAct H).plain = true := by
  cases call <;> rfl

omit [DecidableEq C] [DecidableEq U] [DecidableEq H] in
theorem plain_of_allows {sys : System C U H} {a : SystemAct C U H} (h : sys.allows a = true) :
    a.plain = true := by
  cases a with
  | client c t act =>
    cases act with
    | call m =>
      simp only [System.allows, Client.allows] at h
      cases h
    | _ => rfl
  | _ => rfl

/-- **The system of a cluster** runs as a system, in which requests are what the methods make them. -/
theorem system_of_cluster {p : Cluster C U H × SystemHistory C U H}
    (hr : (clusterMachine cfg file C U H).Reachable p) :
    (systemMachine cfg file C U H).Reach (fun _ a => a.plain = true) (p.1.sys, p.2) := by
  refine Machine.Reach.map (fun p : Cluster C U H × SystemHistory C U H => (p.1.sys, p.2)) ?_ ?_ hr
  · rintro ⟨s, L⟩ ⟨⟨hsys, -⟩, rfl⟩
    exact ⟨hsys, rfl⟩
  · rintro ⟨s, L⟩ a ⟨s', L'⟩ - - hs
    obtain ⟨hstep, hh⟩ := Machine.withHistory_step.1 hs
    simp only at hh hstep ⊢
    subst hh
    cases clusterStep_cases hstep with
    | ask c u call _ hsys =>
      exact .inr ⟨.client c (.user u) (.call call.method), plain_method call,
        Machine.withHistory_step.2 ⟨hsys, rfl⟩⟩
    | update => exact .inl rfl
    | system a hallows hsys =>
      exact .inr ⟨a, plain_of_allows hallows, Machine.withHistory_step.2 ⟨hsys, rfl⟩⟩

/-! ## Request threads -/

/-- The thread is in the method that the request has called. -/
def ApiCall.inside (pc : UserPc H) : ApiCall → Prop
  | .login u n => pc = .login u n ∨ ∃ rpc, pc = .request ⟨actionLogin, loginParams u n, rpc⟩ false
  | .logout => pc = .forget ∨ ∃ rpc, pc = .request ⟨actionLogout, [], rpc⟩ true
  | .read => ∃ rpc, pc = .request ⟨actionRead, [], rpc⟩ false
  | .write content => ∃ rpc, pc = .request ⟨actionWrite, writeParams content, rpc⟩ false

def ApiPc.inside (pc : UserPc H) : ApiPc → Prop
  | .calling call => call.inside pc
  | .idle | .returned _ _ => pc = .idle

/-- A request thread is in the method that it has called, and in none before and after. -/
def AskingInv (s : Cluster C U H) : Prop :=
  ∀ c u, ((s.node c).thread u).inside ((s.sys.client c).user u)

omit [DecidableEq H] in
theorem inside_start (call : ApiCall) : call.inside (UserPc.start call.method : UserPc H) := by
  cases call with
  | login u n => exact .inl rfl
  | logout => exact .inr ⟨_, rfl⟩
  | read | write => exact ⟨_, rfl⟩

section Methods

variable {conn conn' : ServerConnection H} {pc pc' : UserPc H} {act : ClientAct H}

/-- A thread in `request` goes on there, or leaves it. -/
theorem request_goes_on {action : Text} {params : List (Text × Json)} {rpc : RequestPc H} {logout : Bool}
    (hs : userStep conn (.request ⟨action, params, rpc⟩ logout) act = some (conn', pc')) :
    ((∀ id reply, rpc ≠ .done id reply) ∧ ∃ rpc', pc' = .request ⟨action, params, rpc'⟩ logout) ∨
      act = .go ∧ (∃ id reply, rpc = .done id reply) ∧ pc' = if logout then .forget else .idle := by
  cases userStep_cases hs with
  | request _ hreq =>
    obtain ⟨rpc', rfl, hstep⟩ := requestStep_cases hreq
    refine .inl ⟨?_, rpc', rfl⟩
    rintro id reply rfl
    cases hstep
  | returns _ _ id reply => exact .inr ⟨rfl, ⟨id, reply, rfl⟩, rfl⟩
  | outside _ _ _ _ hcall => cases hcall

omit [DecidableEq H] in
theorem reply_logout (action : Text) (params : List (Text × Json)) (rpc : RequestPc H) :
    (UserPc.request ⟨action, params, rpc⟩ true).reply = none := by
  cases rpc <;> rfl

/-- A step in a method, or its return. -/
theorem inside_step {call : ApiCall} (hi : call.inside pc)
    (hs : userStep conn pc act = some (conn', pc')) :
    (pc.reply = none ∧ call.inside pc') ∨ act = .go ∧ pc.reply.isSome = true ∧ pc' = .idle := by
  have plain : ∀ {action params rpc}, pc = .request ⟨action, params, rpc⟩ false →
      (∀ rpc', call.inside (.request ⟨action, params, rpc'⟩ false : UserPc H)) →
      (pc.reply = none ∧ call.inside pc') ∨ act = .go ∧ pc.reply.isSome = true ∧ pc' = .idle := by
    rintro action params rpc rfl hin
    rcases request_goes_on hs with ⟨hne, rpc', rfl⟩ | ⟨ha, ⟨id, reply, rfl⟩, rfl⟩
    · refine .inl ⟨?_, hin rpc'⟩
      cases rpc with
      | done id reply => exact absurd rfl (hne id reply)
      | _ => rfl
    · exact .inr ⟨ha, rfl, rfl⟩
  cases call with
  | login u n =>
    rcases hi with rfl | ⟨rpc, hpc⟩
    · cases act <;> cases hs
      exact .inl ⟨rfl, .inr ⟨_, rfl⟩⟩
    · exact plain hpc fun rpc' => .inr ⟨rpc', rfl⟩
  | logout =>
    rcases hi with rfl | ⟨rpc, rfl⟩
    · cases act <;> cases hs
      exact .inr ⟨rfl, rfl, rfl⟩
    · rcases request_goes_on hs with ⟨-, rpc', rfl⟩ | ⟨-, -, rfl⟩
      · exact .inl ⟨reply_logout _ _ _, .inr ⟨rpc', rfl⟩⟩
      · exact .inl ⟨reply_logout _ _ _, .inl rfl⟩
  | read =>
    obtain ⟨rpc, hpc⟩ := hi
    exact plain hpc fun rpc' => ⟨rpc', rfl⟩
  | write content =>
    obtain ⟨rpc, hpc⟩ := hi
    exact plain hpc fun rpc' => ⟨rpc', rfl⟩

end Methods

section Observe

variable {c d : C} {t : Thread U} {act : ClientAct H} {sys : System C U H} {sa : SystemAct C U H}

omit [DecidableEq H] in
theorem observe_client (hlocal : act.isLocal = true) :
    s.observe (.client c t act) sys =
      match (s.sys.client c).seen (sys.client c) t act with
      | some x => Function.update s.node c ((nodeStep (s.node c) x).getD (s.node c))
      | none => s.node := by
  simp only [Cluster.observe, System.clientAct, hlocal, if_true]

/-- A thread of a client does something on its own. -/
def SystemAct.ofClient : SystemAct C U H → Bool
  | .client _ _ _ => true
  | _ => false

omit [DecidableEq H] in
/-- Nothing is seen of what the network and the server do. -/
theorem observe_other (hc : sa.ofClient = false) : s.observe sa sys = s.node := by
  have hnone : ∀ c t act, s.sys.clientAct sa = some (c, t, act) →
      (s.sys.client c).seen (sys.client c) t act = none := by
    intro d t act hact
    unfold System.clientAct at hact
    split at hact
    · cases hc
    · split at hact <;> cases hact
      rfl
    · split at hact
      · obtain ⟨m, -, heq⟩ := Option.map_eq_some_iff.1 hact
        cases heq
        rfl
      · cases hact
    · cases hact
  unfold Cluster.observe
  split
  · rename_i hact
    rw [hnone _ _ _ hact]
  · rfl

omit [DecidableEq H] in
/-- A step shows a node nothing, or one thing. -/
theorem observe_cases (s : Cluster C U H) (c : C) (sys : System C U H) (hlocal : act.isLocal = true) :
    s.observe (.client d t act) sys c = s.node c ∧
        (c = d → ∀ x, (s.sys.client d).seen (sys.client d) t act = some x → nodeStep (s.node c) x = none) ∨
      c = d ∧ ∃ x, (s.sys.client d).seen (sys.client d) t act = some x ∧
        nodeStep (s.node c) x = some (s.observe (.client d t act) sys c) := by
  rw [observe_client hlocal]
  cases hseen : (s.sys.client d).seen (sys.client d) t act with
  | none => exact .inl ⟨rfl, fun _ x hx => by cases hx⟩
  | some x =>
    by_cases hcd : c = d
    · subst hcd
      cases hnode : nodeStep (s.node c) x with
      | none =>
        refine .inl ⟨?_, fun _ y hy => ?_⟩
        · simp only [Function.update_self, hnode, Option.getD_none]
        · cases hy
          exact hnode
      | some n =>
        refine .inr ⟨rfl, x, rfl, ?_⟩
        simp only [Function.update_self, hnode, Option.getD_some]
    · exact .inl ⟨Function.update_of_ne hcd .., fun h => absurd h hcd⟩

/-- A step of another thread. -/
theorem user_frame {x : Client U H} {v : U} (hs : clientStep (sys.client c) (t, act) = some x)
    (ht : d = c → t ≠ .user v) : ((sys.setClient c x).client d).user v = (sys.client d).user v := by
  by_cases hdc : d = c
  · subst hdc
    rw [setClient_self]
    rcases clientStep_cases hs with ⟨u, conn', pc, rfl, -, rfl⟩ | ⟨conn', pc, -, -, rfl⟩ |
      ⟨conn', pc, -, -, rfl⟩
    · exact Function.update_of_ne (fun hv => ht rfl (by rw [hv])) ..
    · rfl
    · rfl
  · rw [setClient_of_ne sys x hdc]

/-- **What a node sees** of a step of its connection. -/
inductive SeenStep (x y : Client U H) : Thread U → ClientAct H → NodeAct U → Prop
  | return (u : U) (r : Reply) : (x.user u).reply = some r → SeenStep x y (.user u) .go (.return u r)
  | event (m : Message) (e : Event) : x.listener = .handle m → eventOf m = some e →
      SeenStep x y .listener .go (.event e)
  | state : (∀ m, x.listener ≠ .handle m) → SeenStep x y .listener .go (.state y.conn.state)

omit [DecidableEq U] [DecidableEq H] in
theorem seen_cases {x y : Client U H} {b : NodeAct U} (h : x.seen y t act = some b) :
    SeenStep x y t act b := by
  unfold Client.seen at h
  split at h
  · obtain ⟨r, hr, rfl⟩ := Option.map_eq_some_iff.1 h
    exact .return _ r hr
  · split at h
    · rename_i m hm
      obtain ⟨e, he, rfl⟩ := Option.map_eq_some_iff.1 h
      exact .event m e hm he
    · rename_i hne
      split_ifs at h
      cases h
      exact .state hne
  · cases h

omit [DecidableEq H] in
/-- Only a return moves a request thread. -/
theorem thread_frame (hlocal : act.isLocal = true) {v : U} (ht : d = c → t ≠ .user v) :
    (s.observe (.client d t act) sys c).thread v = (s.node c).thread v := by
  rcases observe_cases (d := d) (t := t) s c sys hlocal with
    ⟨hsame, -⟩ | ⟨rfl, x, hseen, hnode⟩
  · rw [hsame]
  · generalize s.observe (.client c t act) sys c = n at hnode
    cases seen_cases hseen with
    | «return» u r =>
      have hvu : v ≠ u := fun hv => ht rfl (by rw [hv])
      simp only [nodeStep] at hnode
      split at hnode <;> cases hnode
      exact Function.update_of_ne hvu ..
    | event | state =>
      cases hnode
      rfl

omit [DecidableEq U] [DecidableEq H] in
/-- A thread that has moved has not changed what the node shows. -/
theorem node_of_thread (th : U → ApiPc) :
    (Function.update s.node d { s.node d with thread := th } c).node = (s.node c).node := by
  by_cases hcd : c = d
  · subst hcd
    rw [Function.update_self]
  · rw [Function.update_of_ne hcd]

/-- A request thread calls a method. -/
theorem AskingInv.ask {u : U} {call : ApiCall} {x : Client U H} (hi : AskingInv s)
    (hidle : (s.node c).thread u = .idle)
    (hs : clientStep (s.sys.client c) (.user u, .call call.method) = some x) :
    AskingInv (⟨s.sys.setClient c x, Function.update s.node c { s.node c with
      thread := Function.update (s.node c).thread u (.calling call) }⟩ : Cluster C U H) := by
  intro d v
  by_cases hdc : d = c
  · subst hdc
    have hpc := hi d u
    rw [hidle] at hpc
    have hpc : (s.sys.client d).user u = .idle := hpc
    obtain ⟨⟨conn', pc⟩, hstep, rfl⟩ := Option.map_eq_some_iff.1 hs
    rw [hpc] at hstep
    cases hstep
    simp only [Function.update_self, System.setClient]
    by_cases hvu : v = u
    · subst hvu
      simp only [Function.update_self]
      exact inside_start call
    · simp only [Function.update_of_ne hvu]
      exact hi d v
  · simp only [System.setClient, Function.update_of_ne hdc]
    exact hi d v

omit [DecidableEq H] in
/-- A request thread updates the node with what its method has returned. -/
theorem AskingInv.update {u : U} {call : ApiCall} {r : Reply} {n : Node} (hi : AskingInv s)
    (hret : (s.node c).thread u = .returned call r) :
    AskingInv (⟨s.sys, Function.update s.node c
      ⟨n, Function.update (s.node c).thread u .idle⟩⟩ : Cluster C U H) := by
  intro d v
  by_cases hdc : d = c
  · subst hdc
    simp only [Function.update_self]
    by_cases hvu : v = u
    · subst hvu
      have hpc := hi d v
      rw [hret] at hpc
      rw [Function.update_self]
      exact hpc
    · rw [Function.update_of_ne hvu]
      exact hi d v
  · simp only [Function.update_of_ne hdc]
    exact hi d v

/-- A step of a request thread in its method, or out of it. -/
theorem inside_of_own {v : U} {conn' : ServerConnection H} {pc : UserPc H}
    (hin : ((s.node d).thread v).inside ((s.sys.client d).user v))
    (hallows : s.sys.allows (.client d (.user v) act) = true) (hlocal : act.isLocal = true)
    (hs : userStep (s.sys.client d).conn ((s.sys.client d).user v) act = some (conn', pc)) :
    ((s.observe (.client d (.user v) act) sys d).thread v).inside pc := by
  cases hthread : (s.node d).thread v with
  | idle | returned =>
    -- the thread calls no method
    rw [hthread] at hin
    have hin : (s.sys.client d).user v = .idle := hin
    rw [hin] at hs
    cases act with
    | call m => cases hallows
    | _ => cases hs
  | calling call =>
    rw [hthread] at hin
    rcases inside_step hin hs with ⟨hreply, hin'⟩ | ⟨rfl, hreply, rfl⟩
    · have hseen : ∀ y, (s.sys.client d).seen y (.user v) act = none := fun y => by
        cases act with
        | go => simp only [Client.seen, hreply, Option.map_none]
        | _ => rfl
      simp only [observe_client hlocal, hseen, hthread]
      exact hin'
    · obtain ⟨r, hr⟩ := Option.isSome_iff_exists.1 hreply
      have hseen : ∀ y, (s.sys.client d).seen y (.user v) .go = some (.return v r) := fun y => by
        simp only [Client.seen, hr, Option.map_some]
      have hnode : nodeStep (s.node d) (.return v r) = some { s.node d with
          thread := Function.update (s.node d).thread v (.returned call r) } := by
        simp only [nodeStep, hthread]
      simp only [observe_client hlocal, hseen, hnode, Function.update_self, Option.getD_some]
      rfl

theorem AskingInv.step (hi : AskingInv s) (hs : clusterStep cfg file s a = some s') : AskingInv s' := by
  cases clusterStep_cases hs with
  | @ask c u call sys hidle hsys =>
    cases system_moves hsys with
    | client _ hclient => exact hi.ask hidle hclient
  | update c u call resp hret => exact hi.update hret
  | @system a sys hallows hsys =>
    intro d v
    cases system_moves hsys with
    | @client c t act x hlocal hclient =>
      by_cases hdv : d = c ∧ t = .user v
      · obtain ⟨rfl, rfl⟩ := hdv
        obtain ⟨⟨conn', pc⟩, hstep, rfl⟩ := Option.map_eq_some_iff.1 hclient
        have hpc : ((s.sys.setClient d { s.sys.client d with
            conn := conn', user := Function.update (s.sys.client d).user v pc }).client d).user v = pc := by
          simp only [System.setClient, Function.update_self]
        simp only [hpc]
        exact inside_of_own (hi d v) hallows hlocal hstep
      · have hne : d = c → t ≠ .user v := fun hdc ht => hdv ⟨hdc, ht⟩
        simp only [user_frame hclient hne, thread_frame hlocal fun hcd => hne hcd.symm]
        exact hi d v
    | @connect c k x _ hclient | @deliver c k m x _ _ hclient =>
      rw [observe_other rfl]
      have hframe := user_frame (d := d) (v := v) hclient fun _ h => by cases h
      simp only [System.setClient] at hframe ⊢
      rw [hframe]
      exact hi d v
    | handler | request =>
      rw [observe_other rfl]
      exact hi d v

end Observe

variable {p : Cluster C U H × SystemHistory C U H}

theorem askingInv_of_reachable (hr : (clusterMachine cfg file C U H).Reachable p) : AskingInv p.1 := by
  refine hr.invariant (fun p => AskingInv p.1) ?_ ?_
  · rintro ⟨s, L⟩ ⟨⟨⟨hc, -⟩, hnode⟩, -⟩ c u
    have hc : s.sys.client c = {} := hc c
    have hnode : s.node c = {} := hnode c
    rw [hc, hnode]
    rfl
  · rintro ⟨s, L⟩ a ⟨s', L'⟩ - hi hs
    exact hi.step (Machine.withHistory_step.1 hs).1

/-! ## What a request thread has got -/

theorem clusterStep_version (hs : clusterStep cfg file s a = some s') :
    s.sys.server.shared.data.version ≤ s'.sys.server.shared.data.version := by
  cases clusterStep_cases hs with
  | ask _ _ _ _ hsys | system _ _ hsys => exact systemStep_version hsys
  | update => exact le_rfl

/-- A reply that says OK is a dict that says so. -/
theorem message_of_ok {reply : Option Message} (h : (Reply.of reply).status = statusOk) :
    ∃ m, reply = some m ∧ getField m (lit "status") = .str statusOk := by
  cases reply with
  | none => cases h
  | some m =>
    refine ⟨m, rfl, ?_⟩
    have h : (getField m (lit "status")).text?.getD [] = statusOk := h
    cases ht : (getField m (lit "status")).text? with
    | none =>
      rw [ht] at h
      cases h
    | some t =>
      rw [ht] at h
      have h : t = statusOk := h
      rw [Json.text?_eq_some.1 ht, h]

/-- What a READ that has returned OK tells is a version that the server has come to. -/
def ReturnedInv (s : Cluster C U H) : Prop :=
  ∀ c u resp, (s.node c).thread u = .returned .read resp → resp.status = statusOk →
    ∃ v, resp.version = some v ∧ v ≤ s.sys.server.shared.data.version

variable [Fintype H]

/-- What `read()` returns. -/
theorem returns_read (hr : (clusterMachine cfg file C U H).Reachable (s, L)) {c : C} {u : U} {r : Reply}
    {sys : System C U H} (hs : systemStep cfg file s.sys (.client c (.user u) .go) = some sys)
    (hcall : (s.node c).thread u = .calling .read) (hreply : ((s.sys.client c).user u).reply = some r)
    (hok : r.status = statusOk) :
    ∃ v, r.version = some v ∧ v ≤ sys.server.shared.data.version := by
  have hin := askingInv_of_reachable hr c u
  rw [hcall] at hin
  obtain ⟨rpc, hpc⟩ := hin
  have hpc : (s.sys.client c).user u = .request ⟨actionRead, [], rpc⟩ false := hpc
  rw [hpc] at hreply
  cases rpc with
  | done id reply =>
    obtain rfl : Reply.of reply = r := Option.some.inj hreply
    obtain ⟨m, rfl, hm⟩ := message_of_ok hok
    -- the call is among those that have returned after the step
    have hstep : (systemMachine cfg file C U H).step (s.sys, L) (.client c (.user u) .go) =
        some (sys, L.next cfg s.sys (.client c (.user u) .go)) := Machine.withHistory_step.2 ⟨hs, rfl⟩
    have hr' := (system_of_cluster hr).step rfl hstep
    have hact : s.sys.clientAct (.client c (.user u) .go) = some (c, .user u, .go) := rfl
    have hx : (⟨.user u, ⟨id, actionRead, []⟩, some m⟩ : Returned U) ∈
        ((L.next cfg s.sys (.client c (.user u) .go)).clients c).returns := by
      rw [clients_next hact]
      simp only [Function.update_self, ClientHistory.next, Client.call?, hpc, UserPc.call?,
        RequestCall.returning, Option.toList_some, List.flatMap_cons, List.flatMap_nil]
      exact List.mem_append_right _ (List.mem_singleton_self _)
    obtain ⟨r, hj, v, hv, hle⟩ := version_of_read hr' hx rfl rfl hm
    rw [reply_of_response hj]
    exact ⟨v, hv, hle⟩
  | _ => cases hreply

theorem returnedInv_of_reachable (hr : (clusterMachine cfg file C U H).Reachable p) :
    ReturnedInv p.1 := by
  refine hr.invariant (fun p => ReturnedInv p.1) ?_ ?_
  · rintro ⟨s, L⟩ ⟨⟨-, hnode⟩, -⟩ c u resp ht
    have ht : (s.node c).thread u = .returned .read resp := ht
    rw [show s.node c = {} from hnode c] at ht
    cases ht
  · rintro ⟨s, L⟩ a ⟨s', L'⟩ hr hi hs c u resp ht hok
    obtain ⟨hstep, hh⟩ := Machine.withHistory_step.1 hs
    simp only at hh hi ht hstep ⊢
    have hle := clusterStep_version hstep
    have hold : (s.node c).thread u = .returned .read resp →
        ∃ v, resp.version = some v ∧ v ≤ s'.sys.server.shared.data.version := by
      intro h
      obtain ⟨v, hv, hvle⟩ := hi c u resp h hok
      exact ⟨v, hv, hvle.trans hle⟩
    -- a thread that has moved, but has not returned from a READ
    have moved : ∀ d v pc n, n.thread = Function.update (s.node d).thread v pc →
        pc ≠ .returned .read resp → (Function.update s.node d n c).thread u = .returned .read resp →
        (s.node c).thread u = .returned .read resp := by
      intro d v pc n hn hpc h
      by_cases hcd : c = d
      · subst hcd
        rw [Function.update_self, hn] at h
        by_cases huv : u = v
        · subst huv
          rw [Function.update_self] at h
          exact absurd h hpc
        · rwa [Function.update_of_ne huv] at h
      · rwa [Function.update_of_ne hcd] at h
    cases clusterStep_cases hstep with
    | ask d v call => exact hold (moved d v (.calling call) _ rfl (fun h => by cases h) ht)
    | update d v call r => exact hold (moved d v .idle _ rfl (fun h => by cases h) ht)
    | system a hallows hsys =>
      simp only at ht
      cases system_moves hsys with
      | @client d t act x hlocal hclient =>
        rcases observe_cases (d := d) (t := t) s c _ hlocal with
          ⟨hsame, -⟩ | ⟨rfl, b, hseen, hnode⟩
        · rw [hsame] at ht
          exact hold ht
        · generalize s.observe (.client c t act) _ c = n at hnode ht
          cases seen_cases hseen with
          | «return» v r hreply =>
            simp only [nodeStep] at hnode
            split at hnode <;> cases hnode
            rename_i call hcall
            by_cases huv : u = v
            · subst huv
              simp only [Function.update_self] at ht
              cases ht
              exact returns_read hr hsys hcall hreply hok
            · simp only [Function.update_of_ne huv] at ht
              exact hold ht
          | event | state =>
            cases hnode
            exact hold ht
      | connect | deliver | handler | request =>
        rw [observe_other rfl] at ht
        exact hold ht

end Cluster

end DistRes
