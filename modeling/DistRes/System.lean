import DistRes.Correlation
import DistRes.Service
import DistRes.Surrogates

/-!
# Clients and server together

One server and any number of clients.  Every connection of a client has its own handler; what one
side sends, the other gets in this order (`Channel`), as far as it gets it at all: a reader may stop
at any point, and a send may fail at any point, after which nothing is assumed of the connection.  What
gets there is what `json.loads` makes of the text: a REQUEST arrives with its surrogate pairs joined; the
messages of the server have none (`delivered_as_sent` in `Messages`).

* `System` and `systemStep` put `clientStep` and the server's machine side by side;
* `client_of_system` and `server_of_system` — their runs are runs of each part;
* `writes_exactly_once` — a write causes one record at most, and exactly one if it is acknowledged, with
  its content as it has arrived.
-/

namespace DistRes

open Lib

/-! ## The system -/

/-- The clients `C`, each with the threads `U`, and the server with its handlers `H`.  A connection is
named by its handler. -/
structure System (C U H : Type) where
  client : C → Client U H := fun _ => {}
  server : Pool.State H (DistResServer H) (ClientHandler H)
  /-- whose connection it is -/
  owner : H → Option C := fun _ => none
  /-- how many messages of the client the handler has got -/
  arrived : H → ℕ := fun _ => 0
  /-- how many messages of the handler the client has got -/
  taken : H → ℕ := fun _ => 0

/-- What happens in the system. -/
inductive SystemAct (C U H : Type)
  /-- a thread of a client does something on its own -/
  | client (c : C) (t : Thread U) (a : ClientAct H)
  /-- a client is connected -/
  | connect (c : C) (h : H)
  /-- the listener of a client gets the next message on its socket -/
  | deliver (c : C)
  /-- a handler does something on its own -/
  | handler (h : H) (a : HandlerAct)
  /-- a handler gets the next message on its socket -/
  | request (h : H)

section System

variable {C U H : Type} [DecidableEq C] [DecidableEq U] [DecidableEq H]

/-- What a thread does without the network. -/
def ClientAct.isLocal : ClientAct H → Bool
  | .connect _ | .receive _ => false
  | _ => true

namespace System

variable (s : System C U H)

/-- What a client does in a step of the system. -/
def clientAct : SystemAct C U H → Option (C × Thread U × ClientAct H)
  | .client c t a => if a.isLocal then some (c, t, a) else none
  | .connect c h => if (s.owner h).isNone then some (c, .listener, .connect h) else none
  | .deliver c =>
    match (s.client c).listener with
    | .reading h =>
      (s.server.shared.sockets h)[s.taken h]?.map fun m => (c, .listener, .receive m.toJson)
    | _ => none
  | _ => none

/-- What a handler does in a step of the system. -/
def serverAct : SystemAct C U H → Option (H × HandlerAct)
  | .handler _ (.receive _) => none
  | .handler h .accept => if (s.owner h).isSome then some (h, .accept) else none
  | .handler h a => some (h, a)
  | .request h =>
    (s.owner h).bind fun c =>
      ((s.client c).conn.sent h)[s.arrived h]?.map fun r => (h, .receive r.toJson.joined)
  | _ => none

/-- The connections after a step. -/
def note : SystemAct C U H → System C U H
  | .connect c h => { s with owner := Function.update s.owner h (some c) }
  | .deliver c =>
    match (s.client c).listener with
    | .reading h => { s with taken := Function.update s.taken h (s.taken h + 1) }
    | _ => s
  | .request h => { s with arrived := Function.update s.arrived h (s.arrived h + 1) }
  | _ => s

end System

variable (cfg : Config) (file : Bytes)

def systemStep (s : System C U H) (a : SystemAct C U H) : Option (System C U H) :=
  match s.clientAct a with
  | some (c, act) => (clientStep (s.client c) act).map fun s' =>
    { s.note a with client := Function.update s.client c s' }
  | none => (s.serverAct a).bind fun act =>
    ((serverMachine cfg H file).step s.server act).map fun s' => { s.note a with server := s' }

/-- What has happened at every client and at the server. -/
structure SystemHistory (C U H : Type) where
  clients : C → ClientHistory U := fun _ => {}
  service : ServiceHistory H := {}

def SystemHistory.next (cfg : Config) (L : SystemHistory C U H) (s : System C U H) (a : SystemAct C U H) :
    SystemHistory C U H :=
  match s.clientAct a, s.serverAct a with
  | some (c, act), _ =>
    { L with clients := Function.update L.clients c ((L.clients c).next (s.client c) act) }
  | none, some (h, act) =>
    let l := s.server.thread h
    { L with service := L.service.next h l.userId (serviceEvent cfg l act) }
  | none, none => L

/-- The system over a file with the given bytes, with what has happened in it. -/
def systemMachine (C U H : Type) [DecidableEq C] [DecidableEq U] [DecidableEq H] :
    Machine (System C U H × SystemHistory C U H) (SystemAct C U H) :=
  (⟨fun s => (∀ c, s.client c = {}) ∧ (serverMachine cfg H file).init s.server ∧
      (∀ h, s.owner h = none) ∧ (∀ h, s.arrived h = 0) ∧ ∀ h, s.taken h = 0,
    systemStep cfg file⟩ : Machine (System C U H) (SystemAct C U H)).withHistory
      ({} : SystemHistory C U H) fun L s a _ => SystemHistory.next cfg L s a

/-- Parameters that do not overwrite the fields that `request` sets itself. -/
def plainParams (params : List (Text × Json)) : Bool :=
  params.all fun e => e.1 ≠ lit "type" ∧ e.1 ≠ lit "id" ∧ e.1 ≠ lit "action"

/-- No call of `request` with other parameters; those of the methods above it are plain. -/
def ClientAct.plain : ClientAct H → Bool
  | .call (.request _ params) => plainParams params
  | _ => true

def SystemAct.plain : SystemAct C U H → Bool
  | .client _ _ a => a.plain
  | _ => true

/-! ## The parts -/

variable {cfg file} {s s' : System C U H} {a : SystemAct C U H} {L : SystemHistory C U H}

omit [DecidableEq C] [DecidableEq U] in
@[simp] theorem note_client (s : System C U H) (a : SystemAct C U H) : (s.note a).client = s.client := by
  unfold System.note
  split
  · rfl
  · split <;> rfl
  · rfl
  · rfl

omit [DecidableEq C] [DecidableEq U] in
@[simp] theorem note_server (s : System C U H) (a : SystemAct C U H) : (s.note a).server = s.server := by
  unfold System.note
  split
  · rfl
  · split <;> rfl
  · rfl
  · rfl

/-- A step of the system is one of a client or one of the server. -/
theorem systemStep_cases (hs : systemStep cfg file s a = some s') :
    (∃ c act s₁, s.clientAct a = some (c, act) ∧ clientStep (s.client c) act = some s₁ ∧
      s' = { s.note a with client := Function.update s.client c s₁ }) ∨
    ∃ h act d, s.clientAct a = none ∧ s.serverAct a = some (h, act) ∧
      (serverMachine cfg H file).step s.server (h, act) = some d ∧ s' = { s.note a with server := d } := by
  unfold systemStep at hs
  split at hs
  · rename_i c act hact
    obtain ⟨s₁, hstep, rfl⟩ := Option.map_eq_some_iff.1 hs
    exact .inl ⟨c, act, s₁, hact, hstep, rfl⟩
  · rename_i hnone
    obtain ⟨⟨h, act⟩, hact, hs⟩ := Option.bind_eq_some_iff.1 hs
    obtain ⟨d, hstep, rfl⟩ := Option.map_eq_some_iff.1 hs
    exact .inr ⟨h, act, d, hnone, hact, hstep, rfl⟩

omit [DecidableEq U] in
theorem clients_next {c : C} {act : Thread U × ClientAct H} (hact : s.clientAct a = some (c, act)) :
    SystemHistory.next cfg L s a =
      { L with clients := Function.update L.clients c ((L.clients c).next (s.client c) act) } := by
  unfold SystemHistory.next
  rw [hact]

omit [DecidableEq U] in
theorem service_next {h : H} {act : HandlerAct} (hnone : s.clientAct a = none)
    (hact : s.serverAct a = some (h, act)) :
    SystemHistory.next cfg L s a = { L with
      service := L.service.next h (s.server.thread h).userId
        (serviceEvent cfg (s.server.thread h) act) } := by
  unfold SystemHistory.next
  rw [hnone, hact]

omit [DecidableEq C] [DecidableEq U] [DecidableEq H] in
theorem plain_of_clientAct {c : C} {t : Thread U} {act : ClientAct H}
    (hact : s.clientAct a = some (c, t, act)) (hp : a.plain = true) : act.plain = true := by
  unfold System.clientAct at hact
  split at hact
  · split at hact <;> cases hact
    exact hp
  · split at hact <;> cases hact
    rfl
  · split at hact
    · obtain ⟨m, -, heq⟩ := Option.map_eq_some_iff.1 hact
      cases heq
      rfl
    · cases hact
  · cases hact

/-- **A client of the system** runs as a client. -/
theorem client_of_system {p : System C U H × SystemHistory C U H}
    (hr : (systemMachine cfg file C U H).Reach (fun _ a => a.plain = true) p) (c : C) :
    (clientMachine U H).Reach (fun _ a => a.2.plain = true) (p.1.client c, p.2.clients c) := by
  refine Machine.Reach.map (fun p : System C U H × SystemHistory C U H =>
    (p.1.client c, p.2.clients c)) ?_ ?_ hr
  · rintro ⟨s, L⟩ ⟨⟨hc, -⟩, rfl⟩
    exact ⟨hc c, rfl⟩
  · rintro ⟨s, L⟩ a ⟨s', L'⟩ - hp hs
    obtain ⟨hstep, hh⟩ := Machine.withHistory_step.1 hs
    simp only at hh hstep ⊢
    subst hh
    rcases systemStep_cases hstep with ⟨d, act, s₁, hact, hclient, rfl⟩ |
      ⟨h, act, d, hnone, hact, hserver, rfl⟩
    · rw [clients_next hact]
      by_cases hcd : c = d
      · subst hcd
        refine .inr ⟨act, plain_of_clientAct hact hp, ?_⟩
        exact Machine.withHistory_step.2 ⟨by simpa using hclient, by simp⟩
      · left
        simp [Function.update_of_ne hcd]
    · left
      rw [service_next hnone hact]
      simp

/-- **The server of the system** runs as a server. -/
theorem server_of_system {p : System C U H × SystemHistory C U H}
    (hr : (systemMachine cfg file C U H).Reachable p) :
    (servingServer cfg H file).Reachable (p.1.server, p.2.service) := by
  refine Machine.Reach.map (fun p : System C U H × SystemHistory C U H =>
    (p.1.server, p.2.service)) ?_ ?_ hr
  · rintro ⟨s, L⟩ ⟨⟨-, hserver, -⟩, rfl⟩
    exact ⟨hserver, rfl⟩
  · rintro ⟨s, L⟩ a ⟨s', L'⟩ - - hs
    obtain ⟨hstep, hh⟩ := Machine.withHistory_step.1 hs
    simp only at hh hstep ⊢
    subst hh
    rcases systemStep_cases hstep with ⟨d, act, s₁, hact, hclient, rfl⟩ |
      ⟨h, act, d, hnone, hact, hserver, rfl⟩
    · left
      rw [clients_next hact]
      simp
    · rw [service_next hnone hact]
      exact .inr ⟨(h, act), trivial, Machine.withHistory_step.2 ⟨hserver, rfl⟩⟩

end System

/-! ## The sockets of a client -/

section Sockets

variable {U K : Type} [DecidableEq U] [DecidableEq K] {conn conn' : ServerConnection K}
  {a : ClientAct K} {k : K}

/-- The client reads from the socket, or may do so without connecting. -/
def Client.reads (s : Client U K) (k : K) : Prop := s.conn.reader = some k ∨ s.listener.socket = some k

theorem requestStep_keeps {c c' : RequestCall K} (h : requestStep conn c a = some (conn', c')) :
    conn'.reader = conn.reader ∧ c'.params = c.params := by
  obtain ⟨pc', rfl, -⟩ := requestStep_cases h
  refine ⟨?_, rfl⟩
  rw [requestStep_frame h]

theorem userStep_reader {pc pc' : UserPc K} (hs : userStep conn pc a = some (conn', pc')) :
    conn'.reader = conn.reader := by
  cases userStep_cases hs with
  | request logout hreq => exact (requestStep_keeps hreq).1
  | call | login | returns | outside => rfl

theorem beatStep_reader {pc pc' : BeatPc K} (hs : beatStep conn pc a = some (conn', pc')) :
    conn'.reader = conn.reader := by
  rw [beatStep_frame hs]

omit [DecidableEq K] in
theorem connectStep_reads {pc pc' : ConnectPc K} {again : Bool}
    (hs : connectStep conn pc a = some (conn', pc'))
    (hk : conn'.reader = some k ∨ (ListenerPc.connect pc' again).socket = some k) :
    (conn.reader = some k ∨ (ListenerPc.connect pc again).socket = some k) ∨ a = .connect k := by
  have same : conn'.reader = conn.reader → (ListenerPc.connect pc' again).socket = none →
      (conn.reader = some k ∨ (ListenerPc.connect pc again).socket = some k) ∨ a = .connect k := by
    intro hr hp
    rcases hk with hk | hk
    · exact .inl (.inl (hr ▸ hk))
    · rw [hp] at hk
      cases hk
  cases connectStep_moves hs with
  | attempt k' => exact hk.imp .inl fun h => congrArg _ (Option.some.inj h)
  | setSock k' => exact .inl hk
  | setReader k' =>
    rcases hk with hk | hk
    · exact .inl (.inr hk)
    · cases hk
  | check | stop | fail | setConnected | refused | setReconnecting | sleep => exact same rfl rfl

theorem listenerStep_reads {pc pc' : ListenerPc K} (hs : listenerStep conn pc a = some (conn', pc'))
    (hk : conn'.reader = some k ∨ pc'.socket = some k) :
    (conn.reader = some k ∨ pc.socket = some k) ∨ a = .connect k := by
  have same : conn'.reader = conn.reader → pc'.socket = none →
      (conn.reader = some k ∨ pc.socket = some k) ∨ a = .connect k := by
    intro hr hp
    rcases hk with hk | hk
    · exact .inl (.inl (hr ▸ hk))
    · rw [hp] at hk
      cases hk
  cases listenerStep_cases hs with
  | connect again hc => exact connectStep_reads hc hk
  | read k' hr =>
    refine .inl (.inl ?_)
    rcases hk with hk | hk
    · exact hk
    · exact hr.trans hk
  | handle m hm =>
    rcases handleIncoming_cases hm with ⟨rfl, rfl | rfl⟩ | ⟨id, -, -, -, rfl, rfl⟩ <;>
      exact same rfl rfl
  | request hreq => exact same (requestStep_keeps hreq).1 rfl
  | outside _ _ _ _ hsocket => exact same rfl hsocket
  | receive | crash | resolve | wake | lock | sweep | sweepWake | swept | relogin | returns =>
    exact same rfl rfl

/-- A client reads only from the sockets that it is connected over. -/
theorem clientStep_reads {s s' : Client U K} {t : Thread U} (hs : clientStep s (t, a) = some s')
    (hk : s'.reads k) : s.reads k ∨ a = .connect k := by
  rcases clientStep_cases hs with ⟨u, conn', pc, -, hstep, rfl⟩ | ⟨conn', pc, -, hstep, rfl⟩ |
    ⟨conn', pc, -, hstep, rfl⟩
  · exact .inl (hk.imp_left (userStep_reader hstep).symm.trans)
  · exact listenerStep_reads hstep hk
  · exact .inl (hk.imp_left (beatStep_reader hstep).symm.trans)

/-- A client keeps what it has sent. -/
theorem clientStep_sent {s s' : Client U K} {t : Thread U} (hs : clientStep s (t, a) = some s') (k : K) :
    s.conn.sent k <+: s'.conn.sent k := by
  obtain ⟨u', rs, heff, -⟩ := clientStep_sends (h := {}) hs
  cases heff with
  | quiet hsent => rw [hsent]
  | issue r _ hsent => rw [hsent]
  | transmit k' r _ _ hsent =>
    rw [hsent]
    by_cases hk : k = k'
    · rw [hk, Function.update_self]
      exact List.prefix_append _ _
    · rw [Function.update_of_ne hk]

end Sockets

/-! ## The parameters -/

section Parameters

variable {U K : Type} [DecidableEq U] [DecidableEq K]

/-- The parameters of all requests are plain. -/
def PlainInv (s : Client U K) (h : ClientHistory U) : Prop :=
  (∀ t c, s.call? t = some c → plainParams c.params = true) ∧ ∀ r ∈ h.issued, plainParams r.params = true

theorem plain_login (u n : Text) : plainParams (loginParams u n) = true := rfl

theorem plain_write (content : Text) : plainParams (writeParams content) = true := rfl

theorem userStep_plain {conn conn' : ServerConnection K} {pc pc' : UserPc K} {a : ClientAct K}
    (hs : userStep conn pc a = some (conn', pc')) (ha : a.plain = true)
    (hp : ∀ c, pc.call? = some c → plainParams c.params = true) {c : RequestCall K}
    (hc : pc'.call? = some c) : plainParams c.params = true := by
  cases userStep_cases hs with
  | call m =>
    cases m <;> cases hc
    · rfl
    · rfl
    · exact plain_write _
    · exact ha
  | login u n =>
    cases hc
    exact plain_login _ _
  | request logout hreq =>
    cases hc
    rw [(requestStep_keeps hreq).2]
    exact hp _ rfl
  | returns _ _ _ _ logout => cases logout <;> cases hc
  | outside _ _ _ _ _ hcall =>
    rw [hcall] at hc
    cases hc

theorem listenerStep_plain {conn conn' : ServerConnection K} {pc pc' : ListenerPc K} {a : ClientAct K}
    (hs : listenerStep conn pc a = some (conn', pc'))
    (hp : ∀ c, pc.call? = some c → plainParams c.params = true) {c : RequestCall K}
    (hc : pc'.call? = some c) : plainParams c.params = true := by
  cases listenerStep_cases hs with
  | handle m hm =>
    rw [(handleIncoming_sent hm).2] at hc
    cases hc
  | relogin u n =>
    cases hc
    exact plain_login _ _
  | request hreq =>
    cases hc
    rw [(requestStep_keeps hreq).2]
    exact hp _ rfl
  | outside _ _ _ hb =>
    rw [call?_of_bare hb] at hc
    cases hc
  | connect | read | receive | crash | resolve | wake | lock | sweep | sweepWake | swept | returns =>
    cases hc

omit [DecidableEq K] in
theorem params_of_issues {conn : ServerConnection K} {c : RequestCall K} {a : ClientAct K} {r : Request}
    (hr : r ∈ c.issues conn a) : r.params = c.params := by
  unfold RequestCall.issues at hr
  split at hr
  · rw [List.mem_singleton.1 hr]
  · cases hr

omit [DecidableEq K] in
theorem params_of_beat {conn : ServerConnection K} {pc : BeatPc K} {a : ClientAct K} {r : Request}
    (hr : r ∈ pc.issues conn a) : r.params = [] := by
  unfold BeatPc.issues at hr
  split at hr
  · rw [List.mem_singleton.1 hr]
  · cases hr

omit [DecidableEq U] [DecidableEq K] in
/-- What gets an id in a step has the parameters of the call, or is a PING. -/
theorem params_of_next {s : Client U K} {h : ClientHistory U} {t : Thread U} {a : ClientAct K}
    {r : Request} (hr : r ∈ (h.next s (t, a)).issued) :
    r ∈ h.issued ∨ (∃ c, s.call? t = some c ∧ r.params = c.params) ∨ r.params = [] := by
  have calls : ∀ r ∈ (s.call? t).toList.flatMap (·.issues s.conn a),
      ∃ c, s.call? t = some c ∧ r.params = c.params := by
    intro r hr
    obtain ⟨c, hc, hr⟩ := List.mem_flatMap.1 hr
    exact ⟨c, by simpa using hc, params_of_issues hr⟩
  rcases t with u | _ | _
  · exact (List.mem_append.1 hr).imp_right fun hr => .inl (calls r hr)
  · exact (List.mem_append.1 hr).imp_right fun hr => .inl (calls r hr)
  · rcases List.mem_append.1 hr with hr | hr
    · exact (List.mem_append.1 hr).imp_right fun hr => .inl (calls r hr)
    · exact .inr (.inr (params_of_beat hr))

theorem plainInv_of_reach {p : Client U K × ClientHistory U}
    (hr : (clientMachine U K).Reach (fun _ a => a.2.plain = true) p) : PlainInv p.1 p.2 := by
  refine hr.invariant (fun p => PlainInv p.1 p.2) ?_ ?_
  · rintro ⟨s, h⟩ ⟨hs, rfl⟩
    have hs : s = {} := hs
    subst hs
    refine ⟨fun t c hc => ?_, nofun⟩
    rcases t with u | _ | _ <;> cases hc
  · rintro ⟨s, h⟩ ⟨t, a⟩ ⟨s', h'⟩ - hi ha hs
    obtain ⟨hclient, hh⟩ := Machine.withHistory_step.1 hs
    simp only at hh hclient hi ha
    subst hh
    refine ⟨?_, fun r hr => ?_⟩
    · rcases clientStep_cases hclient with ⟨u, conn', pc, rfl, hstep, rfl⟩ |
        ⟨conn', pc, rfl, hstep, rfl⟩ | ⟨conn', pc, rfl, hstep, rfl⟩
      · rintro (v | _ | _) c hc
        · by_cases hv : v = u
          · subst hv
            exact userStep_plain hstep ha (hi.1 (.user v)) (by simpa [Client.call?] using hc)
          · exact hi.1 (.user v) c (by simpa [Client.call?, hv] using hc)
        · exact hi.1 .listener c hc
        · cases hc
      · rintro (v | _ | _) c hc
        · exact hi.1 (.user v) c hc
        · exact listenerStep_plain hstep (hi.1 .listener) hc
        · cases hc
      · rintro (v | _ | _) c hc
        · exact hi.1 (.user v) c hc
        · exact hi.1 .listener c hc
        · cases hc
    · rcases params_of_next hr with hr | ⟨c, hc, heq⟩ | heq
      · exact hi.2 r hr
      · rw [heq]
        exact hi.1 t c hc
      · rw [heq]
        rfl

/-! ### The fields of a plain request -/

/-- A REQUEST as it arrives. -/
def Request.arriving (r : Request) : Message := joinFields r.fields

theorem joined_request (r : Request) : r.toJson.joined = .obj r.arriving := rfl

theorem field?_arriving (r : Request) {key : Text} (hkey : isAscii key = true) :
    field? r.arriving key = (field? r.fields key).map Json.joined :=
  field?_joined (requestFields_items r.id r.action r.params).1 hkey

theorem getField_arriving (r : Request) {key : Text} (hkey : isAscii key = true) :
    getField r.arriving key = (getField r.fields key).joined := by
  rw [getField, getField, field?_arriving r hkey]
  cases field? r.fields key <;> rfl

variable {r : Request}

theorem getField_of_plain (hp : plainParams r.params = true) :
    getField r.arriving (lit "type") = .str typeRequest ∧ getField r.arriving (lit "id") = .int r.id ∧
      getField r.arriving (lit "action") = .str (joinPairs r.action) := by
  have hne : ∀ e ∈ r.params, e.1 ≠ lit "type" ∧ e.1 ≠ lit "id" ∧ e.1 ≠ lit "action" := by
    simpa [plainParams] using hp
  refine ⟨?_, ?_, ?_⟩ <;> rw [getField_arriving r (by decide)]
  · rw [getField, Request.fields, requestFields, field?_mergeFields _ fun e he => (hne e he).1]
    rfl
  · rw [getField_id r fun e he => (hne e he).2.1]
    rfl
  · rw [getField, Request.fields, requestFields, field?_mergeFields _ fun e he => (hne e he).2.2]
    rfl

/-- The actions that the server knows arrive as they are. -/
theorem action_of_plain (hp : plainParams r.params = true) {action : Text} (ha : isAscii action = true)
    (hr : r.action = action) : getField r.arriving (lit "action") = .str action := by
  rw [(getField_of_plain hp).2.2, (joinPairs_eq_iff ha).2 hr]

theorem isWrite_of_plain (hp : plainParams r.params = true) :
    isWrite r.arriving ↔ r.action = actionWrite := by
  have hwrite : isAscii actionWrite = true := by decide
  obtain ⟨htype, -, haction⟩ := getField_of_plain hp
  simp only [isWrite, htype, haction, Json.str.injEq, joinPairs_eq_iff hwrite, true_and]

theorem writeContent_write {content : Text} (hr : r.params = writeParams content) :
    writeContent r.arriving = .str (joinPairs content) := by
  have hne : lit "content" ≠ lit "type" ∧ lit "content" ≠ lit "id" ∧ lit "content" ≠ lit "action" := by
    decide
  have hfield : field? r.fields (lit "content") = some (.str content) := by
    simp [Request.fields, requestFields, hr, writeParams, mergeFields, setField, field?,
      hne.1.symm, hne.2.1.symm, hne.2.2.symm]
  rw [writeContent, field?_arriving r (by decide), hfield]
  rfl

end Parameters

/-! ## What the server sends and gets -/

section Sends

variable {H : Type} [DecidableEq H] {cfg : Config} {h : H} {d d' : DistResServer H}
  {l l' : ClientHandler H} {a : HandlerAct}

theorem prefix_send (d : DistResServer H) (h : H) (m : ServerMessage) (t : H) :
    d.sockets t <+: (d.send h m).sockets t := by
  unfold DistResServer.send
  by_cases ht : t = h
  · simp only [ht, Function.update_self]
    exact List.prefix_append _ _
  · simp only [Function.update_of_ne ht]
    exact List.prefix_rfl

/-- The server keeps what it has sent. -/
theorem handlerStep_sockets (hs : handlerStep cfg h d l a = some (d', l')) (t : H) :
    d.sockets t <+: d'.sockets t := by
  cases handlerStep_sends hs with
  | nothing hsock => rw [hsock]
  | response r next _ _ hs =>
    rw [hs]
    exact prefix_send d h (.response r) t
  | event e u k _ _ _ _ hs =>
    rw [hs]
    exact prefix_send d k (.event e) t

theorem got_of_receive {m : Json} (hs : handlerStep cfg h d l (.receive m) = some (d', l')) :
    serviceEvent cfg l (.receive m) = some (.got m) := by
  cases hpc : l.pc with
  | recv => simp only [serviceEvent, hpc]
  | _ => simp [handlerStep, hpc] at hs

/-- A handler gets a message only in a step that receives it. -/
theorem got_next {L : ServiceHistory H} {u : Option Text} (ha : ∀ m, a ≠ .receive m) (k : H) :
    (L.next h u (serviceEvent cfg l a)).got k = L.got k := by
  unfold serviceEvent
  split
  · exact absurd rfl (ha _)
  · rename_i pc b _
    cases pc.event _ _ b with
    | none => rfl
    | some e => cases e <;> rfl
  · rfl

end Sends

/-! ## What happens between the parts -/

section Between

variable {C U H : Type} [DecidableEq C] [DecidableEq U] [DecidableEq H] {cfg : Config} {file : Bytes}
  {s s' : System C U H} {L L' : SystemHistory C U H} {a : SystemAct C U H}

def System.setClient (s : System C U H) (c : C) (x : Client U H) : System C U H :=
  { s with client := Function.update s.client c x }

omit [DecidableEq U] [DecidableEq H] in
@[simp] theorem setClient_self (s : System C U H) (c : C) (x : Client U H) :
    (s.setClient c x).client c = x := Function.update_self ..

omit [DecidableEq U] [DecidableEq H] in
theorem setClient_of_ne (s : System C U H) {c d : C} (x : Client U H) (h : d ≠ c) :
    (s.setClient c x).client d = s.client d := Function.update_of_ne h ..

def SystemHistory.atClient (L : SystemHistory C U H) (s : System C U H) (c : C)
    (act : Thread U × ClientAct H) : SystemHistory C U H :=
  { L with clients := Function.update L.clients c ((L.clients c).next (s.client c) act) }

def SystemHistory.atServer (cfg : Config) (L : SystemHistory C U H) (s : System C U H) (h : H)
    (act : HandlerAct) : SystemHistory C U H :=
  let l := s.server.thread h
  { L with service := L.service.next h l.userId (serviceEvent cfg l act) }

/-- **The steps of the system**, by what happens. -/
inductive SystemMove (cfg : Config) (file : Bytes) (s : System C U H) :
    SystemAct C U H → System C U H → Prop
  | client {c : C} {t : Thread U} {act : ClientAct H} {x : Client U H} : act.isLocal = true →
      clientStep (s.client c) (t, act) = some x →
      SystemMove cfg file s (.client c t act) (s.setClient c x)
  | connect {c : C} {k : H} {x : Client U H} : s.owner k = none →
      clientStep (s.client c) (.listener, .connect k) = some x →
      SystemMove cfg file s (.connect c k)
        { s.setClient c x with owner := Function.update s.owner k (some c) }
  | deliver {c : C} {k : H} {m : ServerMessage} {x : Client U H} :
      (s.client c).listener = .reading k → (s.server.shared.sockets k)[s.taken k]? = some m →
      clientStep (s.client c) (.listener, .receive m.toJson) = some x →
      SystemMove cfg file s (.deliver c)
        { s.setClient c x with taken := Function.update s.taken k (s.taken k + 1) }
  | handler {h : H} {act : HandlerAct} {d : Pool.State H (DistResServer H) (ClientHandler H)} :
      (∀ m, act ≠ .receive m) → s.serverAct (.handler h act) = some (h, act) →
      (serverMachine cfg H file).step s.server (h, act) = some d →
      SystemMove cfg file s (.handler h act) { s with server := d }
  | request {c : C} {h : H} {r : Request} {d : Pool.State H (DistResServer H) (ClientHandler H)} :
      s.owner h = some c → ((s.client c).conn.sent h)[s.arrived h]? = some r →
      (serverMachine cfg H file).step s.server (h, .receive r.toJson.joined) = some d →
      SystemMove cfg file s (.request h)
        { s with server := d, arrived := Function.update s.arrived h (s.arrived h + 1) }

theorem system_moves (hs : systemStep cfg file s a = some s') : SystemMove cfg file s a s' := by
  rcases systemStep_cases hs with ⟨c, act, x, hact, hclient, rfl⟩ | ⟨h, act, d, -, hact, hserver, rfl⟩
  · unfold System.clientAct at hact
    split at hact
    · split at hact <;> cases hact
      rename_i hlocal
      exact .client hlocal hclient
    · split at hact <;> cases hact
      rename_i howner
      exact .connect (Option.isNone_iff_eq_none.1 howner) hclient
    · split at hact
      · rename_i c' k hk
        obtain ⟨m, hm, heq⟩ := Option.map_eq_some_iff.1 hact
        cases heq
        have hnote : s.note (.deliver c) =
            { s with taken := Function.update s.taken k (s.taken k + 1) } := by
          simp only [System.note, hk]
        rw [hnote]
        exact .deliver hk hm hclient
      · cases hact
    · cases hact
  · unfold System.serverAct at hact
    split at hact
    · cases hact
    · split at hact <;> cases hact
      rename_i howner
      exact .handler nofun (by simp [System.serverAct, howner]) hserver
    · rename_i h' act' hne haccept
      cases hact
      refine .handler (fun m heq => hne m heq) ?_ hserver
      cases act with
      | receive m => exact absurd rfl (hne m)
      | accept => exact absurd rfl haccept
      | _ => rfl
    · obtain ⟨c, hc, hact⟩ := Option.bind_eq_some_iff.1 hact
      obtain ⟨r, hr, heq⟩ := Option.map_eq_some_iff.1 hact
      cases heq
      exact .request hc hr hserver
    · cases hact

/-- **What a step of the system is.** -/
inductive SystemEffect (cfg : Config) (file : Bytes) (s : System C U H) (L : SystemHistory C U H) :
    System C U H → SystemHistory C U H → Prop
  | client {c : C} {t : Thread U} {act : ClientAct H} {x : Client U H} : act.isLocal = true →
      clientStep (s.client c) (t, act) = some x →
      SystemEffect cfg file s L (s.setClient c x) (L.atClient s c (t, act))
  | connect {c : C} {k : H} {x : Client U H} : s.owner k = none →
      clientStep (s.client c) (.listener, .connect k) = some x →
      SystemEffect cfg file s L { s.setClient c x with owner := Function.update s.owner k (some c) }
        (L.atClient s c (.listener, .connect k))
  | deliver {c : C} {k : H} {m : ServerMessage} {x : Client U H} :
      (s.client c).listener = .reading k → m ∈ s.server.shared.sockets k →
      clientStep (s.client c) (.listener, .receive m.toJson) = some x →
      SystemEffect cfg file s L
        { s.setClient c x with taken := Function.update s.taken k (s.taken k + 1) }
        (L.atClient s c (.listener, .receive m.toJson))
  | handler {h : H} {act : HandlerAct} {d : Pool.State H (DistResServer H) (ClientHandler H)} :
      (∀ m, act ≠ .receive m) → (serverMachine cfg H file).step s.server (h, act) = some d →
      SystemEffect cfg file s L { s with server := d } (L.atServer cfg s h act)
  | request {c : C} {h : H} {r : Request} {d : Pool.State H (DistResServer H) (ClientHandler H)} :
      s.owner h = some c → ((s.client c).conn.sent h)[s.arrived h]? = some r →
      (serverMachine cfg H file).step s.server (h, .receive r.toJson.joined) = some d →
      SystemEffect cfg file s L
        { s with server := d, arrived := Function.update s.arrived h (s.arrived h + 1) }
        (L.atServer cfg s h (.receive r.toJson.joined))

theorem system_effect (hs : systemStep cfg file s a = some s') :
    SystemEffect cfg file s L s' (L.next cfg s a) := by
  cases system_moves hs with
  | @client c t act x hlocal hclient =>
    have hact : s.clientAct (.client c t act) = some (c, t, act) := by
      simp only [System.clientAct, hlocal, if_true]
    rw [clients_next hact]
    exact .client hlocal hclient
  | @connect c k x howner hclient =>
    have hact : s.clientAct (.connect c k) = some (c, .listener, .connect k) := by
      simp only [System.clientAct, howner, Option.isNone_none, if_true]
    rw [clients_next hact]
    exact .connect howner hclient
  | @deliver c k m x hk hm hclient =>
    have hact : s.clientAct (.deliver c) = some (c, .listener, .receive m.toJson) := by
      simp only [System.clientAct, hk, hm, Option.map_some]
    rw [clients_next hact]
    exact .deliver hk (List.mem_of_getElem? hm) hclient
  | handler hne hact hserver =>
    rw [service_next rfl hact]
    exact .handler hne hserver
  | @request c h r d hc hr hserver =>
    have hact : s.serverAct (.request h) = some (h, .receive r.toJson.joined) := by
      simp only [System.serverAct, hc, hr, Option.bind_some, Option.map_some]
    rw [service_next rfl hact]
    exact .request hc hr hserver

omit [DecidableEq U] [DecidableEq H] in
theorem received_next {c : Client U H} {h : ClientHistory U} {t : Thread U} {act : ClientAct H}
    {m : Message} (hm : m ∈ (h.next c (t, act)).received) : m ∈ h.received ∨ act = .receive (.obj m) := by
  rcases t with u | _ | _
  · exact .inl hm
  · refine (List.mem_append.1 hm).imp_right fun hm => ?_
    unfold ListenerPc.receives at hm
    split at hm
    · rename_i hact
      rw [List.mem_singleton.1 hm]
      exact hact
    · cases hm
  · exact .inl hm

/-- **What holds between the parts.**  A client reads only from its own sockets, a handler gets what
its client has sent, in this order, and what a client has received its own handlers have sent. -/
structure SystemInv (s : System C U H) (L : SystemHistory C U H) : Prop where
  reads : ∀ c k, (s.client c).reads k → s.owner k = some c
  unowned : ∀ h, s.owner h = none → s.arrived h = 0 ∧ L.service.got h = []
  got : ∀ h c, s.owner h = some c → s.arrived h ≤ ((s.client c).conn.sent h).length ∧
    L.service.got h = (((s.client c).conn.sent h).take (s.arrived h)).map fun r => r.toJson.joined
  received : ∀ c, ∀ m ∈ (L.clients c).received, ∃ h x, s.owner h = some c ∧
    x ∈ s.server.shared.sockets h ∧ x.toJson = .obj m

/-- A step of a client, which may be connected or get a message. -/
theorem SystemInv.atClient (hi : SystemInv s L) {c : C} {t : Thread U} {act : ClientAct H} {x : Client U H}
    (hs : clientStep (s.client c) (t, act) = some x) {owner' : H → Option C} {taken' : H → ℕ}
    (howner : ∀ k d, s.owner k = some d → owner' k = some d)
    (hconn : ∀ k, act = .connect k → owner' k = some c)
    (hrec : ∀ m, act = .receive (.obj m) → ∃ h y, s.owner h = some c ∧
      y ∈ s.server.shared.sockets h ∧ y.toJson = .obj m) :
    SystemInv { s.setClient c x with owner := owner', taken := taken' } (L.atClient s c (t, act)) := by
  refine ⟨fun d k hk => ?_, fun h hn => ?_, fun h d hd => ?_, fun d m hm => ?_⟩
  · by_cases hdc : d = c
    · subst hdc
      simp only [System.setClient, Function.update_self] at hk
      exact (clientStep_reads hs hk).elim (fun hk => howner k d (hi.reads d k hk)) (hconn k)
    · simp only [System.setClient, Function.update_of_ne hdc] at hk
      exact howner k d (hi.reads d k hk)
  · refine hi.unowned h (Option.eq_none_iff_forall_ne_some.2 fun d hd => ?_)
    have := howner h d hd
    simp only at hn
    rw [hn] at this
    cases this
  · cases hold : s.owner h with
    | none =>
      obtain ⟨h0, hgot⟩ := hi.unowned h hold
      simp only [System.setClient, SystemHistory.atClient, h0, hgot]
      exact ⟨Nat.zero_le _, by simp⟩
    | some e =>
      obtain rfl : e = d := Option.some.inj ((howner h e hold).symm.trans hd)
      obtain ⟨hle, hgot⟩ := hi.got h e hold
      have hsent : (s.client e).conn.sent h <+: ((s.setClient c x).client e).conn.sent h := by
        by_cases hec : e = c
        · subst hec
          simp only [System.setClient, Function.update_self]
          exact clientStep_sent hs h
        · simp only [System.setClient, Function.update_of_ne hec]
          exact List.prefix_rfl
      obtain ⟨zs, hzs⟩ := hsent
      simp only [← hzs, SystemHistory.atClient]
      refine ⟨?_, ?_⟩
      · rw [List.length_append]
        exact Nat.le_add_right_of_le hle
      · show _ = (((s.client e).conn.sent h ++ zs).take (s.arrived h)).map fun r => r.toJson.joined
        rw [List.take_append_of_le_length hle]
        exact hgot
  · have hkeep : (∃ h y, s.owner h = some d ∧ y ∈ s.server.shared.sockets h ∧ y.toJson = .obj m) →
        ∃ h y, owner' h = some d ∧ y ∈ s.server.shared.sockets h ∧ y.toJson = .obj m :=
      fun ⟨h, y, ho, hy⟩ => ⟨h, y, howner h d ho, hy⟩
    refine hkeep ?_
    by_cases hdc : d = c
    · subst hdc
      simp only [SystemHistory.atClient, Function.update_self] at hm
      exact (received_next hm).elim (hi.received d m) (hrec m)
    · simp only [SystemHistory.atClient, Function.update_of_ne hdc] at hm
      exact hi.received d m hm

omit [DecidableEq C] [DecidableEq U] in
/-- A step of a handler, which may get a message. -/
theorem SystemInv.atServer (hi : SystemInv s L) {h : H} {act : HandlerAct}
    {d : Pool.State H (DistResServer H) (ClientHandler H)} {arrived' : H → ℕ}
    (hs : (serverMachine cfg H file).step s.server (h, act) = some d)
    (hunowned : ∀ k, s.owner k = none → arrived' k = s.arrived k ∧
      (L.atServer cfg s h act).service.got k = L.service.got k)
    (hgot : ∀ k c, s.owner k = some c → arrived' k ≤ ((s.client c).conn.sent k).length ∧
      (L.atServer cfg s h act).service.got k =
        (((s.client c).conn.sent k).take (arrived' k)).map fun r => r.toJson.joined) :
    SystemInv { s with server := d, arrived := arrived' } (L.atServer cfg s h act) := by
  obtain ⟨g, l, hstep, rfl⟩ := Pool.machine_step.1 hs
  refine ⟨hi.reads, fun k hk => ?_, hgot, fun c m hm => ?_⟩
  · obtain ⟨h1, h2⟩ := hunowned k hk
    exact ⟨h1.trans (hi.unowned k hk).1, h2.trans (hi.unowned k hk).2⟩
  · obtain ⟨k, y, ho, hy, hj⟩ := hi.received c m hm
    exact ⟨k, y, ho, (handlerStep_sockets hstep k).mem hy, hj⟩

theorem SystemInv.step (hi : SystemInv s L) (he : SystemEffect cfg file s L s' L') : SystemInv s' L' := by
  cases he with
  | client hlocal hclient =>
    refine hi.atClient hclient (fun _ _ h => h) ?_ ?_
    · rintro k rfl
      cases hlocal
    · rintro m rfl
      cases hlocal
  | @connect c k x hk hclient =>
    refine hi.atClient hclient (fun k' d hd => ?_) (fun k' heq => ?_) nofun
    · have hne : k' ≠ k := by
        rintro rfl
        rw [hk] at hd
        cases hd
      rwa [Function.update_of_ne hne]
    · cases heq
      exact Function.update_self ..
  | @deliver c k m x hk hm hclient =>
    refine hi.atClient hclient (fun _ _ h => h) nofun fun m' heq => ?_
    refine ⟨k, m, hi.reads c k (.inr ?_), hm, ClientAct.receive.inj heq⟩
    rw [hk]
    rfl
  | @handler h act d hne hserver =>
    have hsame : ∀ k, (L.atServer cfg s h act).service.got k = L.service.got k := got_next hne
    refine hi.atServer hserver (fun k _ => ⟨rfl, hsame k⟩) fun k c hc => ?_
    rw [hsame k]
    exact hi.got k c hc
  | @request c h r d hc hr hserver =>
    obtain ⟨g, l, hstep, -⟩ := Pool.machine_step.1 hserver
    have hnext : (L.atServer cfg s h (.receive r.toJson.joined)).service.got =
        Function.update L.service.got h (L.service.got h ++ [r.toJson.joined]) := by
      simp only [SystemHistory.atServer, got_of_receive hstep]
      rfl
    refine hi.atServer hserver (fun k hk => ?_) fun k e hk => ?_
    · have hne : k ≠ h := by
        rintro rfl
        rw [hc] at hk
        cases hk
      rw [hnext, Function.update_of_ne hne, Function.update_of_ne hne]
      exact ⟨rfl, rfl⟩
    · rw [hnext]
      by_cases hkh : k = h
      · subst hkh
        obtain rfl : c = e := Option.some.inj (hc.symm.trans hk)
        have hlt := (List.getElem?_eq_some_iff.1 hr).1
        rw [Function.update_self, Function.update_self, (hi.got k c hc).2, List.take_add_one, hr,
          List.map_append]
        exact ⟨hlt, rfl⟩
      · rw [Function.update_of_ne hkh, Function.update_of_ne hkh]
        exact hi.got k e hk

theorem systemInv_of_reachable {p : System C U H × SystemHistory C U H}
    (hr : (systemMachine cfg file C U H).Reachable p) : SystemInv p.1 p.2 := by
  refine hr.invariant (fun p => SystemInv p.1 p.2) ?_ ?_
  · rintro ⟨s, L⟩ ⟨⟨hc, -, howner, harrived, -⟩, rfl⟩
    have hc : ∀ c, s.client c = {} := hc
    have howner : ∀ h, s.owner h = none := howner
    refine ⟨fun c k hk => ?_, fun h _ => ⟨harrived h, rfl⟩, fun h c hh => ?_, fun _ => nofun⟩
    · have hk : (s.client c).reads k := hk
      rw [hc c] at hk
      rcases hk with hk | hk <;> cases hk
    · have hh : s.owner h = some c := hh
      rw [howner h] at hh
      cases hh
  · rintro ⟨s, L⟩ a ⟨s', L'⟩ - hi hs
    obtain ⟨hstep, hh⟩ := Machine.withHistory_step.1 hs
    simp only at hh hstep hi
    subst hh
    exact hi.step (system_effect hstep)

/-! ## Writes -/

/-- The client and the request that the `n`-th message of the handler is. -/
def System.origin (s : System C U H) (h : H) : ℕ → Option (C × Request)
  | 0 => none
  | n + 1 => (s.owner h).bind fun c => ((s.client c).conn.sent h)[n]?.map fun r => (c, r)

/-- The client and the request that a record is for. -/
def System.cause (s : System C U H) (e : FileRecord H) : Option (C × Request) :=
  s.origin e.handler e.number

/-- `write(content)` has returned OK, with the given version. -/
def Returned.wrote (x : Returned U) (content : Text) (version : Json) : Prop :=
  x.request.action = actionWrite ∧ x.request.params = writeParams content ∧
    ∃ m, x.reply = some m ∧ getField m (lit "status") = .str statusOk ∧
      getField m (lit "version") = version

section Origin

variable {c : C} {h h' : H} {n n' : ℕ} {r : Request}

section

omit [DecidableEq C] [DecidableEq U] [DecidableEq H]

theorem origin_eq_some : s.origin h n = some (c, r) ↔
    1 ≤ n ∧ s.owner h = some c ∧ ((s.client c).conn.sent h)[n - 1]? = some r := by
  cases n with
  | zero => simp [System.origin]
  | succ n =>
    simp only [System.origin, Option.bind_eq_some_iff, Option.map_eq_some_iff, Nat.add_sub_cancel]
    constructor
    · rintro ⟨d, hd, r', hr', heq⟩
      cases heq
      exact ⟨by omega, hd, hr'⟩
    · rintro ⟨-, hd, hr'⟩
      exact ⟨c, hd, r, hr', rfl⟩

/-- What a handler has got is a request of its client. -/
theorem origin_of_got (hi : SystemInv s L) {m : Message} (hg : Got L.service h n m) :
    ∃ c r, s.origin h n = some (c, r) ∧ m = r.arriving := by
  obtain ⟨hn, hg⟩ := hg
  cases hc : s.owner h with
  | none =>
    rw [(hi.unowned h hc).2] at hg
    cases hg
  | some c =>
    rw [(hi.got h c hc).2, List.getElem?_map] at hg
    obtain ⟨r, hr, heq⟩ := Option.map_eq_some_iff.1 hg
    refine ⟨c, r, origin_eq_some.2 ⟨hn, hc, ?_⟩, (Json.obj.inj heq).symm⟩
    exact getElem?_of_prefix (List.take_prefix _ _) hr

/-- No request is two messages. -/
theorem origin_inj {k : ClientHistory U} (hi : SentInv (s.client c) k)
    (ho : s.origin h n = some (c, r)) (ho' : s.origin h' n' = some (c, r)) : h = h' ∧ n = n' := by
  obtain ⟨hn, -, hr⟩ := origin_eq_some.1 ho
  obtain ⟨hn', -, hr'⟩ := origin_eq_some.1 ho'
  obtain rfl : h = h' := hi.apart h h' r (List.mem_of_getElem? hr) r (List.mem_of_getElem? hr') rfl
  refine ⟨rfl, ?_⟩
  obtain ⟨hlt, hr⟩ := List.getElem?_eq_some_iff.1 hr
  obtain ⟨hlt', hr'⟩ := List.getElem?_eq_some_iff.1 hr'
  have := ((hi.once h).of_map _).getElem_inj_iff.1 (hr.trans hr'.symm)
  omega

end

end Origin

/-! ### Replies -/

theorem ServerMessage.response_of_isResponse {y : ServerMessage} {m : Message} (hy : y.toJson = .obj m)
    (hm : isResponse m = true) : ∃ r, y = .response r := by
  cases y with
  | response r => exact ⟨r, rfl⟩
  | event e =>
    cases hy
    cases hm

theorem fields_of_response {r : Response} {m : Message} (hr : r.toJson = .obj m) :
    getField m (lit "id") = r.id ∧ getField m (lit "status") = .str r.status ∧
      ∀ v, r.version = some v → getField m (lit "version") = .int v := by
  obtain ⟨id, status, message, version, content⟩ := r
  cases hr
  refine ⟨rfl, rfl, ?_⟩
  rintro v hv
  cases hv
  cases message <;> rfl

/-- Only a RESPONSE of the server says that a call was successful. -/
theorem response_of_ok {p : Client U H × ClientHistory U} (hr : (clientMachine U H).Reachable p)
    {x : Returned U} (hx : x ∈ p.2.returns) {m : Message} (hm : x.reply = some m)
    (hok : getField m (lit "status") = .str statusOk) :
    m ∈ p.2.received ∧ isResponse m = true ∧ equalsId (getField m (lit "id")) x.request.id = true := by
  have herror : ∀ message, getField (localError message) (lit "status") ≠ .str statusOk := by
    intro message heq
    exact absurd (show statusError = statusOk from Json.str.inj heq) (by decide)
  obtain ⟨m', hm', hor⟩ := reply_cases hr hx
  obtain rfl : m = m' := Option.some.inj (hm.symm.trans hm')
  rcases hor with rfl | rfl | rfl | ⟨hrec, hans⟩
  · exact absurd hok (herror _)
  · exact absurd hok (herror _)
  · exact absurd hok (herror _)
  · exact ⟨hrec, (Bool.and_eq_true _ _).mp hans⟩

section Reachable

variable [Fintype H]

omit [Fintype H] in
/-- The RESPONSE of the server that a successful call has got. -/
theorem server_of_ok (hr : (systemMachine cfg file C U H).Reach (fun _ a => a.plain = true) (s, L))
    {c : C} {x : Returned U} (hx : x ∈ (L.clients c).returns) {m : Message} (hm : x.reply = some m)
    (hok : getField m (lit "status") = .str statusOk) :
    ∃ h r, s.owner h = some c ∧ .response r ∈ s.server.shared.sockets h ∧ r.toJson = .obj m ∧
      r.status = statusOk ∧ equalsId r.id x.request.id = true := by
  obtain ⟨hrec, hres, hid⟩ := response_of_ok (client_of_system hr c).reachable hx hm hok
  obtain ⟨h, y, hc, hy, hj⟩ := (systemInv_of_reachable hr.reachable).received c m hrec
  obtain ⟨r, rfl⟩ := ServerMessage.response_of_isResponse hj hres
  obtain ⟨hid', hstatus, -⟩ := fields_of_response hj
  exact ⟨h, r, hc, hy, hj, Json.str.inj (hstatus.symm.trans hok), hid' ▸ hid⟩

omit [Fintype H] in
/-- The id of a call is that of its own message to the server. -/
theorem origin_of_id (hr : (systemMachine cfg file C U H).Reach (fun _ a => a.plain = true) (s, L))
    {c : C} {x : Returned U} (hx : x ∈ (L.clients c).returns) {h : H} (hc : s.owner h = some c) {n : ℕ}
    {m : Message} (hgot : Got L.service h n m) (hid : equalsId (getField m (lit "id")) x.request.id = true) :
    s.origin h n = some (c, x.request) ∧ m = x.request.arriving ∧ plainParams x.request.params = true := by
  have hplain := client_of_system hr c
  have hclient := hplain.reachable
  obtain ⟨d, q, ho, rfl⟩ := origin_of_got (systemInv_of_reachable hr.reachable) hgot
  obtain ⟨-, hd, hq⟩ := origin_eq_some.1 ho
  obtain rfl : c = d := Option.some.inj (hc.symm.trans hd)
  have hissued : q ∈ (L.clients c).issued :=
    (sentInv_of_reachable hclient).sent h q (List.mem_of_getElem? hq)
  have hqp := (plainInv_of_reach hplain).2 q hissued
  have hqid : q.id = x.request.id := by
    rw [(getField_of_plain hqp).2.1] at hid
    exact equalsId_unique (by simp [equalsId]) hid
  obtain rfl : q = x.request := eq_of_issued hclient hissued (request_issued hclient hx) hqid
  exact ⟨ho, rfl, hqp⟩

/-- The commit that a successful WRITE tells. -/
theorem commit_of_ok (hr : (systemMachine cfg file C U H).Reach (fun _ a => a.plain = true) (s, L))
    {c : C} {x : Returned U} (hx : x ∈ (L.clients c).returns) (hw : x.request.action = actionWrite)
    {m : Message} (hm : x.reply = some m) (hok : getField m (lit "status") = .str statusOk) :
    ∃ v : ℕ, getField m (lit "version") = .int v ∧ 1 ≤ v ∧ ∃ e, L.service.commits[v - 1]? = some e ∧
      s.origin e.handler e.number = some (c, x.request) := by
  obtain ⟨h, r, hc, hy, hj, hstatus, hid⟩ := server_of_ok hr hx hm hok
  obtain ⟨n, m₀, hgot, hecho, hack⟩ :=
    (serviceInv_of_reachable (server_of_system hr.reachable)).replies h r hy
  obtain ⟨ho, rfl, hqp⟩ := origin_of_id hr hx hc hgot (hecho ▸ hid)
  obtain ⟨v, hv, hv1, e, he, hcall⟩ := hack ((isWrite_of_plain hqp).2 hw) hstatus
  obtain ⟨rfl, rfl⟩ := Prod.mk.inj hcall
  exact ⟨v, (fields_of_response hj).2.2 v hv, hv1, e, he, ho⟩

/-- No two records are for one request, and every record is for a WRITE. -/
theorem records_once (hr : (systemMachine cfg file C U H).Reach (fun _ a => a.plain = true) (s, L)) :
    (L.service.appended.map s.cause).Nodup ∧ ∀ e ∈ L.service.appended,
      ∃ c, ∃ r ∈ (L.clients c).issued, s.cause e = some (c, r) ∧ r.action = actionWrite := by
  have hservice := serviceInv_of_reachable (server_of_system hr.reachable)
  have hi := systemInv_of_reachable hr.reachable
  have hcause : ∀ e ∈ L.service.appended,
      ∃ c, ∃ r ∈ (L.clients c).issued, s.cause e = some (c, r) ∧ r.action = actionWrite := by
    intro e he
    obtain ⟨m, hgot, hw⟩ := hservice.asked e he
    obtain ⟨c, r, ho, rfl⟩ := origin_of_got hi hgot
    have hplain := client_of_system hr c
    have hissued : r ∈ (L.clients c).issued := (sentInv_of_reachable hplain.reachable).sent e.handler r
      (List.mem_of_getElem? (origin_eq_some.1 ho).2.2)
    exact ⟨c, r, hissued, ho, (isWrite_of_plain ((plainInv_of_reach hplain).2 r hissued)).1 hw⟩
  refine ⟨?_, hcause⟩
  have honce : L.service.appended.Pairwise fun e e' => e.call ≠ e'.call :=
    List.pairwise_map.1 hservice.once
  refine List.pairwise_map.2 (honce.imp_of_mem fun {e e'} he he' hne heq => hne ?_)
  obtain ⟨c, r, -, ho, -⟩ := hcause e he
  have hinj := origin_inj (sentInv_of_reachable (client_of_system hr c).reachable) ho (heq.symm.trans ho)
  exact Prod.ext hinj.1 hinj.2

/-- **Writes are exactly-once when acknowledged, and at-most-once otherwise.**  Every call makes one
request with an id of its own.  The file is the records that were appended; no two of them are for one
request of a client, and each is for a WRITE.  If `write(content)` returns OK with a version, the
request has exactly one record, which is whole and the commit with this number, and tells the user of
the session and the content with its surrogate pairs joined; and no two calls are acknowledged with one
version. -/
theorem writes_exactly_once
    (hr : (systemMachine cfg file C U H).Reach (fun _ a => a.plain = true) (s, L)) :
    (s.server.shared.data.file = file ++ (L.service.appended.map FileRecord.bytes).flatten ∧
      (∀ c, ((L.clients c).issued.map Request.id).Nodup) ∧
      (L.service.appended.map s.cause).Nodup ∧ ∀ e ∈ L.service.appended,
        ∃ c, ∃ r ∈ (L.clients c).issued, s.cause e = some (c, r) ∧ r.action = actionWrite) ∧
    (∀ c, ∀ x ∈ (L.clients c).returns, ∀ content version, x.wrote content version →
      ∃ v : ℕ, version = .int v ∧ 1 ≤ v ∧ ∃ e u stamp, L.service.commits[v - 1]? = some e ∧
        e.session = some u ∧ e.text = record stamp u (joinPairs content) ∧
        ∀ e', e' ∈ L.service.appended ∧ s.cause e' = some (c, x.request) ↔
          e' = ⟨e.handler, e.number, e.text, utf8 e.text⟩) ∧
    ∀ c d, ∀ x ∈ (L.clients c).returns, ∀ y ∈ (L.clients d).returns, ∀ content content' version,
      x.wrote content version → y.wrote content' version → c = d ∧ x = y := by
  have hservice := serviceInv_of_reachable (server_of_system hr.reachable)
  obtain ⟨honce, hcause⟩ := records_once hr
  have hids : ∀ c, ((L.clients c).issued.map Request.id).Nodup := by
    intro c
    have := (correlated_of_client (client_of_system hr c).reachable).ids.once
    simp only [ClientHistory.table, List.map_map] at this
    exact this
  refine ⟨⟨hservice.file, hids, honce, hcause⟩, ?_, ?_⟩
  · rintro c x hx content version ⟨hw, hparams, m, hm, hok, rfl⟩
    obtain ⟨v, hversion, hv, e, he, ho⟩ := commit_of_ok hr hx hw hm hok
    obtain ⟨m', u, stamp, hgot, -, hu, htext, hmem⟩ := hservice.committed e (List.mem_of_getElem? he)
    obtain ⟨d, q, ho', rfl⟩ := origin_of_got (systemInv_of_reachable hr.reachable) hgot
    cases ho.symm.trans ho'
    rw [writeContent_write hparams, pyFormat_str] at htext
    refine ⟨v, hversion, hv, e, u, stamp, he, hu, htext, fun e' => ⟨?_, ?_⟩⟩
    · rintro ⟨he', hc'⟩
      exact List.inj_on_of_nodup_map honce he' hmem (hc'.trans ho.symm)
    · rintro rfl
      exact ⟨hmem, ho⟩
  · rintro c d x hx y hy content content' version ⟨hw, -, m, hm, hok, rfl⟩ ⟨hw', -, m', hm', hok', heq⟩
    obtain ⟨v, hversion, -, e, he, ho⟩ := commit_of_ok hr hx hw hm hok
    obtain ⟨v', hversion', -, e', he', ho'⟩ := commit_of_ok hr hy hw' hm' hok'
    obtain rfl : v = v' := Int.ofNat.inj (Json.int.inj (hversion.symm.trans (heq.symm.trans hversion')))
    obtain rfl : e = e' := Option.some.inj (he.symm.trans he')
    obtain ⟨rfl, hreq⟩ := Prod.mk.inj (Option.some.inj (ho.symm.trans ho'))
    have hnd := (correlated_of_client (client_of_system hr c).reachable).ids.returnedOnce
    simp only [ClientHistory.table, List.map_map] at hnd
    exact ⟨rfl, List.inj_on_of_nodup_map hnd hx hy (congrArg Request.id hreq)⟩

end Reachable

end Between

/-! ### A run -/

def systemStart {C U H : Type} (cfg : Config) : System C U H := { server := serverStart cfg }

theorem systemStart_init {C U H : Type} [DecidableEq C] [DecidableEq U] [DecidableEq H] {cfg : Config} :
    (systemMachine cfg [] C U H).init (systemStart cfg, {}) :=
  ⟨⟨fun _ => rfl, ⟨rfl, fun _ => rfl⟩, fun _ => rfl, fun _ => rfl, fun _ => rfl⟩, rfl⟩

section Run

variable {C U H : Type}

/-- The thread `u` of the client `c` calls a method; the request goes out in so many steps, is served,
and the call returns. -/
def roundTrip (c : C) (u : U) (m : Method) (steps : ℕ) (served : List (SystemAct C U H)) :
    List (SystemAct C U H) :=
  .client c (.user u) (.call m) :: List.replicate steps (.client c (.user u) .go) ++ served ++
    .deliver c :: List.replicate 5 (.client c .listener .go) ++
    List.replicate 3 (.client c (.user u) .go)

/-- The client connects, logs in, and writes a text whose record has so many bytes. -/
def writingRun (c : C) (u : U) (h : H) (content : Text) (size : ℕ) : List (SystemAct C U H) :=
  [.client c .listener .go, .connect c h] ++ List.replicate 6 (.client c .listener .go) ++
    [.handler h .accept] ++
    roundTrip c u (.login (lit "ENG001") (lit "Alice")) 6
      (.request h :: List.replicate 8 (.handler h .go)) ++
    roundTrip c u (.write content) 5
      [.request h, .handler h (.data (.lock false)), .handler h (.data .go),
        .handler h (.data (.openAt (lit "now"))), .handler h (.data (.flush size)), .handler h (.data .go),
        .handler h (.data (.release 0)), .handler h .go, .handler h .go, .handler h .go]

def acknowledgedRun (c : C) (u : U) (h : H) : List (SystemAct C U H) := writingRun c u h (lit "hi") 17

/-- The text is a high surrogate in front of a low one. -/
def splitPairRun (c : C) (u : U) (h : H) : List (SystemAct C U H) :=
  writingRun c u h [chr 0xD83D, chr 0xDE00] 19

end Run

def Json.text? : Json → Option Text
  | .str s => some s
  | _ => none

def Json.int? : Json → Option ℤ
  | .int n => some n
  | _ => none

theorem Json.text?_eq_some {x : Json} {s : Text} : x.text? = some s ↔ x = .str s := by
  cases x <;> simp [Json.text?]

theorem Json.int?_eq_some {x : Json} {n : ℤ} : x.int? = some n ↔ x = .int n := by
  cases x <;> simp [Json.int?]

/-- What a call has asked for and got, as far as it is texts and a version. -/
structure CallSummary where
  action : Text
  params : List (Text × Option Text)
  status : Option Text
  version : Option ℤ
  deriving DecidableEq

def Returned.summary {U : Type} (x : Returned U) : CallSummary where
  action := x.request.action
  params := x.request.params.map fun e => (e.1, e.2.text?)
  status := x.reply.bind fun m => (getField m (lit "status")).text?
  version := x.reply.bind fun m => (getField m (lit "version")).int?

theorem wrote_of_summary {U : Type} {x : Returned U} {content : Text} {v : ℤ}
    (hx : x.summary = ⟨actionWrite, [(lit "content", some content)], some statusOk, some v⟩) :
    x.wrote content (.int v) := by
  obtain ⟨haction, hparams, hstatus, hversion⟩ := CallSummary.mk.inj hx
  obtain ⟨m, hm, hstatus⟩ := Option.bind_eq_some_iff.1 hstatus
  obtain ⟨m', hm', hversion⟩ := Option.bind_eq_some_iff.1 hversion
  obtain rfl : m = m' := Option.some.inj (hm.symm.trans hm')
  refine ⟨haction, ?_, m, hm, Json.text?_eq_some.1 hstatus, Json.int?_eq_some.1 hversion⟩
  obtain ⟨⟨key, text⟩, hsingle, he⟩ := List.map_eq_singleton_iff.1 hparams
  obtain ⟨hkey, htext⟩ := Prod.mk.inj he
  obtain rfl : text = .str content := Json.text?_eq_some.1 htext
  obtain rfl : key = lit "content" := hkey
  exact hsingle

theorem acknowledgedRun_wrote :
    ∃ s L, (systemMachine shippedConfig [] (Fin 1) (Fin 1) (Fin 1)).runIf (fun _ a => a.plain = true)
        (systemStart shippedConfig, {}) (acknowledgedRun 0 0 0) = some (s, L) ∧
      ∃ x ∈ (L.clients 0).returns, x.wrote (lit "hi") (.int 1) ∧
        ∃ e u stamp, L.service.commits[0]? = some e ∧ e.session = some u ∧
          e.text = record stamp u (joinPairs (lit "hi")) ∧
          ∀ e', e' ∈ L.service.appended ∧ s.cause e' = some (0, x.request) ↔
            e' = ⟨e.handler, e.number, e.text, utf8 e.text⟩ := by
  have hs : ((systemMachine shippedConfig [] (Fin 1) (Fin 1) (Fin 1)).runIf (fun _ a => a.plain = true)
      (systemStart shippedConfig, {}) (acknowledgedRun 0 0 0)).map
        (fun p => ((p.2.clients 0).returns[1]?).map Returned.summary) =
      some (some ⟨actionWrite, [(lit "content", some (lit "hi"))], some statusOk, some 1⟩) := by
    decide +kernel
  obtain ⟨⟨s, L⟩, hrun, hval⟩ := Option.map_eq_some_iff.1 hs
  obtain ⟨x, hx, hsummary⟩ := Option.map_eq_some_iff.1 hval
  have hr := Machine.Reach.runIf (.init systemStart_init) hrun
  have hmem : x ∈ (L.clients 0).returns := List.mem_of_getElem? hx
  have hwrote := wrote_of_summary hsummary
  obtain ⟨v, hv, -, e, u, stamp, he⟩ := (writes_exactly_once hr).2.1 0 x hmem _ _ hwrote
  cases hv
  exact ⟨s, L, hrun, x, hmem, hwrote, e, u, stamp, he⟩

/-- The write is acknowledged, and its record has one code point for the two. -/
theorem splitPairRun_joins :
    ¬ ∀ s L, (systemMachine shippedConfig [] (Fin 1) (Fin 1) (Fin 1)).Reach (fun _ a => a.plain = true)
        (s, L) → ∀ x ∈ (L.clients 0).returns, ∀ content, x.wrote content (.int 1) →
      ∃ e u stamp, L.service.commits[0]? = some e ∧ e.text = record stamp u content := by
  intro hall
  have hs : ((systemMachine shippedConfig [] (Fin 1) (Fin 1) (Fin 1)).runIf (fun _ a => a.plain = true)
      (systemStart shippedConfig, {}) (splitPairRun 0 0 0)).map
        (fun p => (((p.2.clients 0).returns[1]?).map Returned.summary,
          p.2.service.commits[0]?.map fun e => e.text.getLast?)) =
      some (some ⟨actionWrite, [(lit "content", some [chr 0xD83D, chr 0xDE00])], some statusOk, some 1⟩,
        some (some (chr 0x1F600))) := by
    decide +kernel
  obtain ⟨⟨s, L⟩, hrun, hval⟩ := Option.map_eq_some_iff.1 hs
  obtain ⟨hreturned, hcommit⟩ := Prod.mk.inj hval
  obtain ⟨x, hx, hsummary⟩ := Option.map_eq_some_iff.1 hreturned
  obtain ⟨e, he, hlast⟩ := Option.map_eq_some_iff.1 hcommit
  have hr := Machine.Reach.runIf (.init systemStart_init) hrun
  obtain ⟨e', u, stamp, he', htext⟩ := hall s L hr x (List.mem_of_getElem? hx) _ (wrote_of_summary hsummary)
  obtain rfl : e = e' := Option.some.inj (he.symm.trans he')
  rw [htext, record, List.getLast?_append] at hlast
  have hlow : chr 0xDE00 = chr 0x1F600 := Option.some.inj hlast
  exact absurd hlow (by decide)

end DistRes
