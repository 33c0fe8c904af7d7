import DistRes.ConnectionSteps

/-!
# Requests and their replies

What callers of `request` get.  The abstract side is `Lib.Correlation`: the connection with its
threads, seen as a table of response slots whose resolver is the listener.

* `client_refines` — every run of a client is a run of the table;
* `replies_correlated` — what `request` returns, and where the id of the call is afterwards.
-/

namespace DistRes

open Lib

/-! ## The client as a table -/

/-- Why a call of `request` gives up. -/
inductive GivesUp
  | unavailable
  | timedOut

def GivesUp.reply : GivesUp → Message
  | .unavailable => connectionUnavailable
  | .timedOut => requestTimedOut

def isResponse (m : Message) : Bool :=
  match getField m (lit "type") with
  | .str t => t = typeResponse
  | _ => false

/-- The listener matches the message with the slot of the id. -/
def answers (m : Message) (id : ℕ) : Bool := isResponse m && equalsId (getField m (lit "id")) id

theorem equalsId_unique {x : Json} {i j : ℕ} (hi : equalsId x i = true) (hj : equalsId x j = true) :
    i = j := by
  cases x <;> simp only [equalsId, decide_eq_true_eq, Bool.false_eq_true] at hi hj
  · exact hi.trans hj.symm
  · omega
  · exact Int.ofNat.inj (Option.some.inj (hi.symm.trans hj))

/-- The replies of a client. -/
def replies : Replies Message GivesUp where
  lost := connectionLost
  withdrawn := GivesUp.reply
  answers := answers
  unique m i j hi hj := by
    rw [answers, Bool.and_eq_true] at hi hj
    exact equalsId_unique hi.2 hj.2

section Table

variable {U K : Type} [DecidableEq U] [DecidableEq K]

/-- Where a call is, seen from the table. -/
def RequestCall.phase (c : RequestCall K) : Phase (Text × Message) Message :=
  match c.pc with
  | .next => .idle
  | .insert id => .issued id (c.action, c.params)
  | .send id _ | .failed id | .wait id | .timedOut id => .waiting id (c.action, c.params)
  | .fetch id => .woken id (c.action, c.params)
  | .done id reply => .done id (c.action, c.params) reply

def phaseOf : Option (RequestCall K) → Phase (Text × Message) Message
  | some c => c.phase
  | none => .idle

def ListenerPc.job : ListenerPc K → Job Message
  | .resolve id m => .fill id m
  | .wake id => .wake id
  | .sweep todo => .sweep todo
  | .sweepWake id todo => .sweepWake id todo
  | _ => .idle

/-- The table of a connection, with the given callers and resolver. -/
def ServerConnection.table (s : ServerConnection K) (phase : Thread U → Phase (Text × Message) Message)
    (job : Job Message) : Table (Thread U) (Text × Message) Message :=
  ⟨s.nextId, s.pending, s.slots, s.pendingLock, phase, job⟩

def Client.table (s : Client U K) : Table (Thread U) (Text × Message) Message :=
  s.conn.table (fun t => phaseOf (s.call? t)) s.listener.job

def Request.entry (r : Request) : ℕ × Text × Message := (r.id, r.action, r.params)

def Returned.entry (x : Returned U) : CallReturn (Thread U) (Text × Message) Message :=
  ⟨x.caller, x.request.id, (x.request.action, x.request.params), x.reply⟩

def ClientHistory.table (h : ClientHistory U) : TableHistory (Thread U) (Text × Message) Message where
  issued := h.issued.map Request.entry
  taken := h.matched
  returns := h.returns.map Returned.entry

/-- The table and its history. -/
abbrev toTable (p : Client U K × ClientHistory U) := (p.1.table, p.2.table)

/-! ### Steps of a call -/

variable {conn conn' : ServerConnection K} {c c' : RequestCall K} {a : ClientAct K}

omit [DecidableEq U] in
/-- What `_raw_send` does is not seen in the table. -/
theorem sendStep_table {r : Request} {pc pc' : SendPc K} {ok : Bool} (h : SendStep r conn pc ok conn' pc')
    (phase : Thread U → Phase (Text × Message) Message) (job : Job Message) :
    conn'.table phase job = conn.table phase job := by
  rw [h.frame]
  rfl

omit [DecidableEq K] in
theorem phase_ofSend (c : RequestCall K) (id : ℕ) (pc : SendPc K) :
    RequestCall.phase { c with pc := .ofSend id pc } = .waiting id (c.action, c.params) := by
  cases pc <;> rfl

/-- A step of the call of the thread `t`, seen from the table. -/
inductive CallStep (t : Thread U) (conn conn' : ServerConnection K) (c c' : RequestCall K)
    (a : ClientAct K) (phase : Thread U → Phase (Text × Message) Message) (job : Job Message) : Prop
  | quiet : conn'.table phase job = conn.table phase job → c'.phase = c.phase →
      c.issues conn a = [] → c.returning t a = [] → CallStep t conn conn' c c' a phase job
  | act (b : TableAct (Thread U) (Text × Message) Message GivesUp) :
      tableStep replies (conn.table phase job) b =
        some (conn'.table (Function.update phase t c'.phase) job) →
      (∀ h : ClientHistory U, h.table.next (conn.table phase job) b =
        { h with
          issued := h.issued ++ c.issues conn a
          returns := h.returns ++ c.returning t a : ClientHistory U }.table) →
      CallStep t conn conn' c c' a phase job

theorem requestStep_table {t : Thread U} {phase : Thread U → Phase (Text × Message) Message}
    (job : Job Message) (ht : phase t = c.phase) (h : requestStep conn c a = some (conn', c')) :
    CallStep t conn conn' c c' a phase job := by
  obtain ⟨pc', rfl, hstep⟩ := requestStep_cases h
  obtain ⟨action, params, pc⟩ := c
  cases hstep with
  | next =>
    exact .act (.issue t (action, params)) (by simp only [tableStep, ServerConnection.table, ht]; rfl)
      fun h => by simp [TableHistory.next, ClientHistory.table, Request.entry, RequestCall.issues,
        RequestCall.returning, ServerConnection.table]
  | insert id hl =>
    exact .act (.register t) (by simp only [tableStep, ServerConnection.table, ht, hl]; rfl) fun h => by
      simp [TableHistory.next, ClientHistory.table, RequestCall.issues, RequestCall.returning]
  | send id ok hsend =>
    exact .quiet (sendStep_table hsend phase job) (phase_ofSend _ id _) rfl rfl
  | unavailable id hl =>
    exact .act (.withdraw t .unavailable)
      (by simp only [tableStep, ServerConnection.table, ServerConnection.popPending, ht, hl]; rfl)
      fun h => by simp [TableHistory.next, ClientHistory.table, RequestCall.issues, RequestCall.returning]
  | wakes id hev =>
    refine .act (.see t) ?_ fun h => by
      simp [TableHistory.next, ClientHistory.table, RequestCall.issues, RequestCall.returning]
    simp only [tableStep, ServerConnection.table, ht, RequestCall.phase, hev, if_true]
    rfl
  | expires id => exact .quiet rfl rfl rfl rfl
  | timedOut id hl =>
    exact .act (.withdraw t .timedOut)
      (by simp only [tableStep, ServerConnection.table, ServerConnection.popPending, ht, hl]; rfl)
      fun h => by simp [TableHistory.next, ClientHistory.table, RequestCall.issues, RequestCall.returning]
  | fetch id =>
    exact .act (.fetch t) (by simp only [tableStep, ServerConnection.table, ht]; rfl) fun h => by
      simp [TableHistory.next, ClientHistory.table, RequestCall.issues, RequestCall.returning]

/-! ### Steps of the client -/

variable {s s' : Client U K} {h : ClientHistory U} {t : Thread U}

/-- The callers of a client, seen from the table. -/
def Client.phases (s : Client U K) (t : Thread U) : Phase (Text × Message) Message :=
  phaseOf (s.call? t)

omit [DecidableEq K] in
theorem phases_user (s : Client U K) (conn : ServerConnection K) (u : U) (pc : UserPc K) :
    Client.phases { s with conn, user := Function.update s.user u pc } =
      Function.update s.phases (.user u) (phaseOf pc.call?) := by
  funext t
  rcases t with v | _ | _
  · by_cases hv : v = u
    · subst hv
      simp [Client.phases, Client.call?]
    · simp [Client.phases, Client.call?, hv]
  · rfl
  · rfl

omit [DecidableEq K] in
theorem phases_listener (s : Client U K) (conn : ServerConnection K) (pc : ListenerPc K) :
    Client.phases { s with conn, listener := pc } =
      Function.update s.phases .listener (phaseOf pc.call?) := by
  funext t
  rcases t with v | _ | _
  · rfl
  · simp [Client.phases, Client.call?]
  · rfl

/-- The step is a step of the table, or it is not seen there. -/
def SeenInTable (s : Client U K) (h : ClientHistory U) (a : Thread U × ClientAct K) (s' : Client U K) :
    Prop :=
  toTable (s', h.next s a) = toTable (s, h) ∨
    ∃ b, (tableMachine replies (Thread U) (Text × Message)).step (toTable (s, h)) b =
      some (toTable (s', h.next s a))

section

omit [DecidableEq K]

/-- A step that is not seen. -/
theorem SeenInTable.of_eq {a : Thread U × ClientAct K}
    (hconn : ∀ phase job, s'.conn.table (U := U) phase job = s.conn.table phase job)
    (hphase : s'.phases = s.phases) (hjob : s'.listener.job = s.listener.job)
    (hh : (h.next s a).table = h.table) : SeenInTable s h a s' := by
  refine .inl (Prod.ext ?_ hh)
  exact (hconn _ _).trans (congrArg₂ (ServerConnection.table s.conn) hphase hjob)

/-- A step that is one of the table. -/
theorem SeenInTable.of_step {a : Thread U × ClientAct K}
    (b : TableAct (Thread U) (Text × Message) Message GivesUp)
    (hb : tableStep replies s.table b = some s'.table)
    (hh : h.table.next s.table b = (h.next s a).table) : SeenInTable s h a s' :=
  .inr ⟨b, Machine.withHistory_step.2 ⟨hb, hh.symm⟩⟩

/-- A step of a call. -/
theorem SeenInTable.of_call {c c' : RequestCall K} {a : ClientAct K}
    (hc : CallStep t s.conn s'.conn c c' a s.phases s.listener.job) (ht : s.phases t = c.phase)
    (hphase : s'.phases = Function.update s.phases t c'.phase)
    (hjob : s'.listener.job = s.listener.job)
    (hh : (h.next s (t, a)).table = ({ h with
      issued := h.issued ++ c.issues s.conn a
      returns := h.returns ++ c.returning t a } : ClientHistory U).table) :
    SeenInTable s h (t, a) s' := by
  have htable : s'.table = s'.conn.table (Function.update s.phases t c'.phase) s.listener.job :=
    congrArg₂ (ServerConnection.table s'.conn) hphase hjob
  cases hc with
  | quiet h1 h2 h3 h4 =>
    have hsame : Function.update s.phases t c'.phase = s.phases := by
      rw [h2, ← ht, Function.update_eq_self]
    refine .inl (Prod.ext ?_ ?_)
    · show s'.table = s.table
      rw [htable, hsame]
      exact h1
    · exact hh.trans (by rw [h3, h4, List.append_nil, List.append_nil])
  | act b h1 h2 => exact .of_step b (h1.trans (congrArg some htable.symm)) ((h2 h).trans hh.symm)

/-- The return of a call. -/
theorem SeenInTable.of_ret {action : Text} {params : Message} {id : ℕ} {reply : Option Message}
    (ht : s.call? t = some ⟨action, params, .done id reply⟩)
    (hconn : ∀ phase job, s'.conn.table (U := U) phase job = s.conn.table phase job)
    (hphase : s'.phases = Function.update s.phases t .idle)
    (hjob : s'.listener.job = s.listener.job)
    (hh : (h.next s (t, .go)).table = ({ h with
      returns := h.returns ++ [⟨t, ⟨id, action, params⟩, reply⟩] } : ClientHistory U).table) :
    SeenInTable s h (t, .go) s' := by
  have hp : s.table.phase t = .done id (action, params) reply := by
    show phaseOf (s.call? t) = _
    rw [ht]
    rfl
  refine .of_step (.ret t) ?_ ?_
  · simp only [tableStep, hp]
    exact congrArg some (((hconn _ _).trans
      (congrArg₂ (ServerConnection.table s.conn) hphase hjob)).symm)
  · rw [hh]
    simp [TableHistory.next, hp, ClientHistory.table, Returned.entry]

end

theorem userStep_seen {u : U} {pc : UserPc K} {a : ClientAct K}
    (hs : userStep s.conn (s.user u) a = some (conn', pc)) :
    SeenInTable s h (.user u, a) { s with conn := conn', user := Function.update s.user u pc } := by
  have hphase := phases_user s conn' u pc
  -- outside of `request`, nothing is seen
  have outside : (s.user u).call? = none → phaseOf pc.call? = .idle →
      (∀ phase job, conn'.table (U := U) phase job = s.conn.table phase job) →
      SeenInTable s h (.user u, a) { s with conn := conn', user := Function.update s.user u pc } := by
    intro hcall hidle hconn
    have hold : s.phases (.user u) = .idle := by
      simp only [Client.phases, Client.call?, hcall]
      rfl
    refine .of_eq hconn ?_ rfl ?_
    · rw [hphase, hidle, ← hold, Function.update_eq_self]
    · simp [ClientHistory.next, Client.call?, hcall]
  generalize hpc : s.user u = pc₀ at hs outside
  cases userStep_cases hs with
  | call m =>
    refine outside rfl ?_ fun _ _ => rfl
    cases m <;> rfl
  | login => exact outside rfl rfl fun _ _ => rfl
  | @request _ c c' conn' logout hreq =>
    have hc : s.phases (.user u) = c.phase := by
      simp only [Client.phases, Client.call?, hpc]
      rfl
    refine .of_call (requestStep_table s.listener.job hc hreq) hc hphase rfl ?_
    simp [ClientHistory.next, Client.call?, hpc, UserPc.call?]
  | returns action params id reply logout =>
    refine .of_ret (by simp only [Client.call?, hpc]; rfl) (fun _ _ => rfl) ?_ rfl ?_
    · rw [hphase]
      cases logout <;> rfl
    · simp [ClientHistory.next, Client.call?, hpc, UserPc.call?, RequestCall.issues,
        RequestCall.returning]
  | outside _ _ _ _ hcall hcall' =>
    exact outside hcall (by rw [hcall']; rfl) fun _ _ => rfl

omit [DecidableEq U] [DecidableEq K] in
theorem connectStep_table {pc pc' : ConnectPc K} {a : ClientAct K}
    (hs : connectStep conn pc a = some (conn', pc')) (phase : Thread U → Phase (Text × Message) Message)
    (job : Job Message) : conn'.table phase job = conn.table phase job := by
  rw [connectStep_frame hs]
  rfl

section

omit [DecidableEq K]

/-- The listener has the message and takes the slot that it answers out of the table. -/
theorem handleIncoming_cases {m : Message} {pc : ListenerPc K}
    (hs : handleIncoming conn m = some (conn', pc)) :
    (conn' = conn ∧ (pc = .loop ∨ pc = .died)) ∨
      ∃ id, conn.pendingLock = false ∧ id ∈ conn.pending ∧ answers m id = true ∧
        conn' = conn.popPending id ∧ pc = .resolve id m := by
  unfold handleIncoming at hs
  split at hs
  · rename_i t htype
    split at hs
    · rename_i ht
      split at hs
      · cases hs
      · rename_i hl
        have hor : (if conn.pending = [] then ListenerPc.loop else .died : ListenerPc K) = .loop ∨
            (if conn.pending = [] then ListenerPc.loop else .died : ListenerPc K) = .died := by
          split
          · exact .inl rfl
          · exact .inr rfl
        split at hs
        · cases hs
          exact .inl ⟨rfl, hor⟩
        · cases hs
          exact .inl ⟨rfl, hor⟩
        · rename_i x hx
          split at hs <;> cases hs
          · rename_i id hid
            refine .inr ⟨id, by simpa using hl, List.mem_of_find?_eq_some hid, ?_, rfl, rfl⟩
            have := List.find?_some hid
            simp [answers, isResponse, htype, ht, this]
          · exact .inl ⟨rfl, .inl rfl⟩
    · cases hs
      exact .inl ⟨rfl, .inl rfl⟩
  · cases hs
    exact .inl ⟨rfl, .inl rfl⟩

theorem call?_of_bare {pc : ListenerPc K} (h : pc.bare = true) : pc.call? = none := by
  cases pc <;> first | rfl | cases h

theorem job_of_bare {pc : ListenerPc K} (h : pc.bare = true) : pc.job = .idle := by
  cases pc <;> first | rfl | cases h

theorem matches_of_bare {pc : ListenerPc K} {a : ClientAct K} (h : pc.bare = true) :
    pc.matches conn a = [] := by
  cases pc <;> first | rfl | cases h

end

theorem listenerStep_seen {pc : ListenerPc K} {a : ClientAct K}
    (hs : listenerStep s.conn s.listener a = some (conn', pc)) :
    SeenInTable s h (.listener, a) { s with conn := conn', listener := pc } := by
  have hphase := phases_listener s conn' pc
  -- outside of `request`, only the slots and the lock are seen
  have hold : s.listener.call? = none → s.phases .listener = .idle := by
    intro hcall
    simp only [Client.phases, Client.call?, hcall]
    rfl
  have outside : s.listener.call? = none → phaseOf pc.call? = .idle →
      (∀ phase job, conn'.table (U := U) phase job = s.conn.table phase job) →
      pc.job = s.listener.job → s.listener.matches s.conn a = [] →
      SeenInTable s h (.listener, a) { s with conn := conn', listener := pc } := by
    intro hcall hidle hconn hjob hmatch
    refine .of_eq hconn ?_ hjob ?_
    · rw [hphase, hidle, ← hold hcall, Function.update_eq_self]
    · simp [ClientHistory.next, Client.call?, hcall, hmatch, ClientHistory.table]
  -- a step of the resolver
  have resolver : ∀ b : TableAct (Thread U) (Text × Message) Message GivesUp,
      s.listener.call? = none → pc.call? = none →
      tableStep replies (s.conn.table s.phases s.listener.job) b =
        some (conn'.table s.phases pc.job) →
      h.table.next s.table b = { h.table with taken := h.matched ++ s.listener.matches s.conn a } →
      SeenInTable s h (.listener, a) { s with conn := conn', listener := pc } := by
    intro b hcall hcall' hb hh
    refine .of_step b (hb.trans ?_) (hh.trans ?_)
    · refine congrArg some (congrArg (conn'.table · pc.job) ?_)
      show s.phases = Client.phases { s with conn := conn', listener := pc }
      rw [hphase, hcall', show phaseOf none = s.phases .listener from (hold hcall).symm,
        Function.update_eq_self]
    · simp [ClientHistory.next, Client.call?, hcall, ClientHistory.table]
  have works : ∀ b : TableAct (Thread U) (Text × Message) Message GivesUp,
      s.listener.call? = none → pc.call? = none →
      tableStep replies (s.conn.table s.phases s.listener.job) b =
        some (conn'.table s.phases pc.job) →
      s.listener.matches s.conn a = [] → h.table.next s.table b = h.table →
      SeenInTable s h (.listener, a) { s with conn := conn', listener := pc } := by
    intro b hcall hcall' hb hmatch hh
    refine resolver b hcall hcall' hb ?_
    rw [hmatch, List.append_nil]
    exact hh
  generalize hpc : s.listener = pc₀ at hs outside resolver works
  cases listenerStep_cases hs with
  | connect again hc => exact outside rfl rfl (connectStep_table hc) rfl rfl
  | read | receive | crash | relogin => exact outside rfl rfl (fun _ _ => rfl) rfl rfl
  | @handle m _ _ hm =>
    rcases handleIncoming_cases hm with ⟨rfl, rfl | rfl⟩ | ⟨id, hl, hid, hans, rfl, rfl⟩
    · exact outside rfl rfl (fun _ _ => rfl) rfl (by simp only [ListenerPc.matches, hm])
    · exact outside rfl rfl (fun _ _ => rfl) rfl (by simp only [ListenerPc.matches, hm])
    · refine resolver (.take id m) rfl rfl ?_ ?_
      · simp only [tableStep, ServerConnection.table, ListenerPc.job, hl]
        rw [if_pos ⟨hid, hans⟩]
        simp only [ServerConnection.popPending, hl]
      · simp only [ListenerPc.matches, hm]
        rfl
  | resolve | wake | sweep | sweepWake | swept => exact works .work rfl rfl rfl rfl rfl
  | lock hl =>
    refine works .lock rfl rfl ?_ rfl rfl
    simp only [tableStep, ServerConnection.table, ListenerPc.job, hl]
  | @request _ c c' conn' hreq =>
    have hc : s.phases .listener = c.phase := by
      simp only [Client.phases, Client.call?, hpc]
      rfl
    refine .of_call (requestStep_table s.listener.job hc hreq) hc hphase (by rw [hpc]; rfl) ?_
    simp [ClientHistory.next, Client.call?, hpc, ListenerPc.call?, ListenerPc.matches,
      ClientHistory.table]
  | returns action params id reply =>
    refine .of_ret (by simp only [Client.call?, hpc]; rfl) (fun _ _ => rfl) hphase
      (by rw [hpc]; rfl) ?_
    simp [ClientHistory.next, Client.call?, hpc, ListenerPc.call?, RequestCall.issues,
      RequestCall.returning, ListenerPc.matches, ClientHistory.table]
  | outside state started hb hb' _ _ =>
    refine outside (call?_of_bare hb) (by rw [call?_of_bare hb']; rfl) (fun _ _ => rfl) ?_
      (matches_of_bare hb)
    rw [job_of_bare hb, job_of_bare hb']

theorem beatStep_seen {pc : BeatPc K} {a : ClientAct K}
    (hs : beatStep s.conn s.beat a = some (conn', pc)) :
    SeenInTable s h (.beat, a) { s with conn := conn', beat := pc } := by
  have hphase : Client.phases { s with conn := conn', beat := pc } = s.phases := by
    funext t
    rcases t with u | _ | _ <;> rfl
  have outside : (∀ phase job, conn'.table (U := U) phase job = s.conn.table phase job) →
      s.beat.issues s.conn a = [] →
      SeenInTable s h (.beat, a) { s with conn := conn', beat := pc } := by
    intro hconn hissue
    refine .of_eq hconn hphase rfl ?_
    simp [ClientHistory.next, Client.call?, hissue]
  generalize hpc : s.beat = pc₀ at hs outside
  cases beatStep_cases hs with
  | next =>
    refine .of_step (.spend (actionPing, [])) (congrArg some ?_) ?_
    · exact (congrArg (ServerConnection.table { s.conn with nextId := s.conn.nextId + 1 } ·
        s.listener.job) hphase).symm
    · simp [TableHistory.next, ClientHistory.next, ClientHistory.table, Client.call?, hpc,
        BeatPc.issues, Request.entry, Client.table, ServerConnection.table]
  | send id ok hsend => exact outside (sendStep_table hsend) rfl
  | outside _ hissues => exact outside (fun _ _ => rfl) hissues

/-- A step of a client is one of its threads. -/
theorem clientStep_cases {a : Thread U × ClientAct K} (hs : clientStep s a = some s') :
    (∃ u conn' pc, a.1 = .user u ∧ userStep s.conn (s.user u) a.2 = some (conn', pc) ∧
      s' = { s with conn := conn', user := Function.update s.user u pc }) ∨
    (∃ conn' pc, a.1 = .listener ∧ listenerStep s.conn s.listener a.2 = some (conn', pc) ∧
      s' = { s with conn := conn', listener := pc }) ∨
    ∃ conn' pc, a.1 = .beat ∧ beatStep s.conn s.beat a.2 = some (conn', pc) ∧
      s' = { s with conn := conn', beat := pc } := by
  obtain ⟨t, a⟩ := a
  rcases t with u | _ | _
  · obtain ⟨⟨conn', pc⟩, hstep, rfl⟩ := Option.map_eq_some_iff.1 hs
    exact .inl ⟨u, conn', pc, rfl, hstep, rfl⟩
  · obtain ⟨⟨conn', pc⟩, hstep, rfl⟩ := Option.map_eq_some_iff.1 hs
    exact .inr (.inl ⟨conn', pc, rfl, hstep, rfl⟩)
  · obtain ⟨⟨conn', pc⟩, hstep, rfl⟩ := Option.map_eq_some_iff.1 hs
    exact .inr (.inr ⟨conn', pc, rfl, hstep, rfl⟩)

theorem clientStep_seen {a : Thread U × ClientAct K} (hs : clientStep s a = some s') :
    SeenInTable s h a s' := by
  obtain ⟨t, a⟩ := a
  rcases clientStep_cases hs with ⟨u, conn', pc, rfl, hstep, rfl⟩ | ⟨conn', pc, rfl, hstep, rfl⟩ |
    ⟨conn', pc, rfl, hstep, rfl⟩
  · exact userStep_seen hstep
  · exact listenerStep_seen hstep
  · exact beatStep_seen hstep

/-- **Refinement.**  A run of a client is a run of the table with the same history. -/
theorem client_refines {p : Client U K × ClientHistory U} (hr : (clientMachine U K).Reachable p) :
    (tableMachine replies (Thread U) (Text × Message)).Reachable (toTable p) := by
  refine Machine.Reach.map toTable ?_ ?_ hr
  · rintro ⟨s, h⟩ ⟨hs, rfl⟩
    have hs : s = {} := hs
    subst hs
    refine ⟨⟨rfl, rfl, fun t => ?_, rfl, fun _ => rfl⟩, rfl⟩
    rcases t with u | _ | _ <;> rfl
  · rintro ⟨s, h⟩ a ⟨s', h'⟩ - - hs
    obtain ⟨hstep, hh⟩ := Machine.withHistory_step.1 hs
    simp only at hh hstep
    subst hh
    rcases clientStep_seen hstep with heq | ⟨b, hb⟩
    · exact .inl heq
    · exact .inr ⟨b, trivial, hb⟩

theorem correlated_of_client {p : Client U K × ClientHistory U}
    (hr : (clientMachine U K).Reachable p) : Correlated replies p.1.table p.2.table :=
  correlated_of_reachable (client_refines hr)

/-! ## What is sent -/

/-- The request that a call has still to send. -/
def RequestCall.unsent (c : RequestCall K) : Option Request :=
  match c.pc with
  | .insert id | .send id _ => some ⟨id, c.action, c.params⟩
  | _ => none

def BeatPc.unsent : BeatPc K → Option Request
  | .send id _ => some ⟨id, actionPing, []⟩
  | _ => none

def Client.unsent (s : Client U K) : Thread U → Option Request
  | .user u => (s.user u).call?.bind RequestCall.unsent
  | .listener => s.listener.call?.bind RequestCall.unsent
  | .beat => s.beat.unsent

/-- **What a step does with the requests**: nothing, or it gives up on sending one, or it makes one,
or it sends one. -/
inductive SendEffect (conn conn' : ServerConnection K) (u u' : Option Request) : List Request → Prop
  | quiet : conn'.sent = conn.sent → u' = u ∨ u' = none → SendEffect conn conn' u u' []
  | issue (r : Request) : r.id = conn.nextId → conn'.sent = conn.sent → u' = some r →
      SendEffect conn conn' u u' [r]
  | transmit (k : K) (r : Request) : u = some r → u' = none →
      conn'.sent = Function.update conn.sent k (conn.sent k ++ [r]) → SendEffect conn conn' u u' []

theorem SendStep.sends {r : Request} {pc pc' : SendPc K} {ok : Bool}
    (h : SendStep r conn pc ok conn' pc') :
    (conn'.sent = conn.sent ∧ ∀ id, (RequestPc.ofSend id pc' = .send id pc' ∧
      BeatPc.ofSend id pc' = .send id pc') ∨ pc' = .raised) ∨
    ∃ k, conn'.sent = Function.update conn.sent k (conn.sent k ++ [r]) ∧ pc' = .sent := by
  cases h with
  | lock | pick => exact .inl ⟨rfl, fun _ => .inl ⟨rfl, rfl⟩⟩
  | unconnected | raises => exact .inl ⟨rfl, fun _ => .inr rfl⟩
  | sent k => exact .inr ⟨k, rfl, rfl⟩

theorem requestStep_sends (h : requestStep conn c a = some (conn', c')) :
    SendEffect conn conn' c.unsent c'.unsent (c.issues conn a) := by
  obtain ⟨pc', rfl, hstep⟩ := requestStep_cases h
  obtain ⟨action, params, pc⟩ := c
  cases hstep with
  | next => exact .issue _ rfl rfl rfl
  | @send id pc₀ pc₁ _ ok hsend =>
    rcases hsend.sends with ⟨hsent, hpc⟩ | ⟨k, hsent, rfl⟩
    · refine .quiet hsent ?_
      rcases hpc id with ⟨hpc, -⟩ | rfl
      · left
        simp only [hpc]
        rfl
      · exact .inr rfl
    · exact .transmit k _ rfl rfl hsent
  | insert | unavailable | wakes | expires | timedOut | fetch => exact .quiet rfl (.inl rfl)

theorem userStep_sends {pc pc' : UserPc K} (hs : userStep conn pc a = some (conn', pc')) :
    SendEffect conn conn' (pc.call?.bind RequestCall.unsent) (pc'.call?.bind RequestCall.unsent)
      (pc.call?.toList.flatMap (·.issues conn a)) := by
  cases userStep_cases hs with
  | call m =>
    refine .quiet rfl (.inl ?_)
    cases m <;> rfl
  | login => exact .quiet rfl (.inl rfl)
  | request logout hreq => simpa [UserPc.call?] using requestStep_sends hreq
  | returns _ _ _ _ logout => cases logout <;> exact .quiet rfl (.inr rfl)
  | outside _ _ _ _ hcall hcall' =>
    rw [hcall, hcall']
    exact .quiet rfl (.inl rfl)

omit [DecidableEq K] in
theorem handleIncoming_sent {m : Message} {pc : ListenerPc K}
    (hs : handleIncoming conn m = some (conn', pc)) : conn'.sent = conn.sent ∧ pc.call? = none := by
  rcases handleIncoming_cases hs with ⟨rfl, rfl | rfl⟩ | ⟨id, -, -, -, rfl, rfl⟩
  · exact ⟨rfl, rfl⟩
  · exact ⟨rfl, rfl⟩
  · exact ⟨rfl, rfl⟩

theorem listenerStep_sends {pc pc' : ListenerPc K} (hs : listenerStep conn pc a = some (conn', pc')) :
    SendEffect conn conn' (pc.call?.bind RequestCall.unsent) (pc'.call?.bind RequestCall.unsent)
      (pc.call?.toList.flatMap (·.issues conn a)) := by
  cases listenerStep_cases hs with
  | connect again hc =>
    refine .quiet ?_ (.inl rfl)
    rw [connectStep_frame hc]
  | handle m hm =>
    obtain ⟨hsent, hcall⟩ := handleIncoming_sent hm
    exact .quiet hsent (.inr (by rw [hcall]; rfl))
  | request hreq => simpa [ListenerPc.call?] using requestStep_sends hreq
  | outside _ _ hb hb' =>
    rw [call?_of_bare hb, call?_of_bare hb']
    exact .quiet rfl (.inl rfl)
  | read | receive | crash | resolve | wake | lock | sweep | sweepWake | swept | relogin | returns =>
    exact .quiet rfl (.inr rfl)

theorem beatStep_sends {pc pc' : BeatPc K} (hs : beatStep conn pc a = some (conn', pc')) :
    SendEffect conn conn' pc.unsent pc'.unsent (pc.issues conn a) := by
  cases beatStep_cases hs with
  | next => exact .issue _ rfl rfl rfl
  | @send id pc₀ pc₁ _ ok hsend =>
    rcases hsend.sends with ⟨hsent, hpc⟩ | ⟨k, hsent, rfl⟩
    · refine .quiet hsent ?_
      rcases hpc id with ⟨-, hpc⟩ | rfl
      · left
        simp only [hpc]
        rfl
      · exact .inr rfl
    · exact .transmit k _ rfl rfl hsent
  | outside hne hissues =>
    rw [hissues]
    refine .quiet rfl (.inr ?_)
    cases pc' with
    | send id pc₁ => exact absurd rfl (hne id pc₁)
    | _ => rfl

/-- What a step of a client does with the requests. -/
theorem clientStep_sends {a : Thread U × ClientAct K} (hs : clientStep s a = some s') :
    ∃ u' rs, SendEffect s.conn s'.conn (s.unsent a.1) u' rs ∧
      s'.unsent = Function.update s.unsent a.1 u' ∧ (h.next s a).issued = h.issued ++ rs := by
  obtain ⟨t, a⟩ := a
  rcases clientStep_cases hs with ⟨u, conn', pc, rfl, hstep, rfl⟩ | ⟨conn', pc, rfl, hstep, rfl⟩ |
    ⟨conn', pc, rfl, hstep, rfl⟩
  · refine ⟨_, _, userStep_sends hstep, ?_, by simp [ClientHistory.next, Client.call?]⟩
    funext t
    rcases t with v | _ | _
    · by_cases hv : v = u
      · subst hv
        simp [Client.unsent]
      · simp [Client.unsent, hv]
    · rfl
    · rfl
  · refine ⟨_, _, listenerStep_sends hstep, ?_, by simp [ClientHistory.next, Client.call?]⟩
    funext t
    rcases t with v | _ | _
    · rfl
    · simp [Client.unsent]
    · rfl
  · refine ⟨_, _, beatStep_sends hstep, ?_, by simp [ClientHistory.next, Client.call?]⟩
    funext t
    rcases t with v | _ | _
    · rfl
    · rfl
    · simp [Client.unsent]

/-- **A request is sent once**, on one socket, and only while its thread has it to send. -/
structure SentInv (s : Client U K) (h : ClientHistory U) : Prop where
  known : ∀ t r, s.unsent t = some r → r ∈ h.issued
  alone : ∀ t v r r', s.unsent t = some r → s.unsent v = some r' → r.id = r'.id → t = v
  sent : ∀ k, ∀ r ∈ s.conn.sent k, r ∈ h.issued
  fresh : ∀ t r, s.unsent t = some r → ∀ k, ∀ r' ∈ s.conn.sent k, r'.id ≠ r.id
  once : ∀ k, ((s.conn.sent k).map Request.id).Nodup
  apart : ∀ k k', ∀ r ∈ s.conn.sent k, ∀ r' ∈ s.conn.sent k', r.id = r'.id → k = k'

omit [DecidableEq K] in
theorem SentInv.quiet (hi : SentInv s h) {h' : ClientHistory U} {u' : Option Request}
    (hsent : s'.conn.sent = s.conn.sent) (hu : s'.unsent = Function.update s.unsent t u')
    (hor : u' = s.unsent t ∨ u' = none) (hh : h'.issued = h.issued) : SentInv s' h' := by
  have hold : ∀ v r, s'.unsent v = some r → s.unsent v = some r := by
    intro v r hv
    rw [hu] at hv
    by_cases hvt : v = t
    · rw [hvt, Function.update_self] at hv
      rcases hor with rfl | rfl
      · rw [hvt]
        exact hv
      · cases hv
    · rwa [Function.update_of_ne hvt] at hv
  refine ⟨fun v r hv => ?_, fun v w r r' hv hw => hi.alone v w r r' (hold v r hv) (hold w r' hw), ?_,
    fun v r hv => ?_, ?_, ?_⟩
  · rw [hh]
    exact hi.known v r (hold v r hv)
  · rw [hh, hsent]
    exact hi.sent
  · rw [hsent]
    exact hi.fresh v r (hold v r hv)
  · rw [hsent]
    exact hi.once
  · rw [hsent]
    exact hi.apart

omit [DecidableEq K] in
/-- The thread `t` gets a request with a new id. -/
theorem SentInv.issue (hi : SentInv s h) {h' : ClientHistory U} {r : Request}
    (hnew : ∀ r' ∈ h.issued, r'.id ≠ r.id) (hsent : s'.conn.sent = s.conn.sent)
    (hu : s'.unsent = Function.update s.unsent t (some r)) (hh : h'.issued = h.issued ++ [r]) :
    SentInv s' h' := by
  have hold : ∀ v r', s'.unsent v = some r' → v = t ∧ r' = r ∨ v ≠ t ∧ s.unsent v = some r' := by
    intro v r' hv
    rw [hu] at hv
    by_cases hvt : v = t
    · rw [hvt, Function.update_self] at hv
      exact .inl ⟨hvt, (Option.some.inj hv).symm⟩
    · exact .inr ⟨hvt, by rwa [Function.update_of_ne hvt] at hv⟩
  refine ⟨fun v r' hv => ?_, fun v w r₁ r₂ hv hw heq => ?_, fun k r' hr => ?_, fun v r' hv => ?_, ?_, ?_⟩
  · rw [hh]
    rcases hold v r' hv with ⟨-, rfl⟩ | ⟨-, hv⟩
    · exact List.mem_append_right _ (List.mem_singleton_self _)
    · exact List.mem_append_left _ (hi.known v r' hv)
  · rcases hold v r₁ hv with ⟨hvt, rfl⟩ | ⟨-, hv'⟩
    · rcases hold w r₂ hw with ⟨hwt, -⟩ | ⟨-, hw'⟩
      · exact hvt.trans hwt.symm
      · exact absurd heq.symm (hnew r₂ (hi.known w r₂ hw'))
    · rcases hold w r₂ hw with ⟨-, rfl⟩ | ⟨-, hw'⟩
      · exact absurd heq (hnew r₁ (hi.known v r₁ hv'))
      · exact hi.alone v w r₁ r₂ hv' hw' heq
  · rw [hsent] at hr
    rw [hh]
    exact List.mem_append_left _ (hi.sent k r' hr)
  · rw [hsent]
    rcases hold v r' hv with ⟨-, rfl⟩ | ⟨-, hv⟩
    · exact fun k r₁ hr => hnew r₁ (hi.sent k r₁ hr)
    · exact hi.fresh v r' hv
  · rw [hsent]
    exact hi.once
  · rw [hsent]
    exact hi.apart

/-- The thread `t` sends its request. -/
theorem SentInv.transmit (hi : SentInv s h) {h' : ClientHistory U} {k : K} {r : Request}
    (ht : s.unsent t = some r)
    (hsent : s'.conn.sent = Function.update s.conn.sent k (s.conn.sent k ++ [r]))
    (hu : s'.unsent = Function.update s.unsent t none) (hh : h'.issued = h.issued) : SentInv s' h' := by
  have hold : ∀ v r', s'.unsent v = some r' → v ≠ t ∧ s.unsent v = some r' := by
    intro v r' hv
    rw [hu] at hv
    by_cases hvt : v = t
    · rw [hvt, Function.update_self] at hv
      cases hv
    · exact ⟨hvt, by rwa [Function.update_of_ne hvt] at hv⟩
  have hmem : ∀ k' r', r' ∈ s'.conn.sent k' → r' ∈ s.conn.sent k' ∨ r' = r ∧ k' = k := by
    intro k' r' hr
    rw [hsent] at hr
    by_cases hk : k' = k
    · rw [hk, Function.update_self] at hr
      rcases List.mem_append.1 hr with hr | hr
      · exact .inl (hk ▸ hr)
      · exact .inr ⟨List.mem_singleton.1 hr, hk⟩
    · rw [Function.update_of_ne hk] at hr
      exact .inl hr
  refine ⟨fun v r' hv => ?_, fun v w r₁ r₂ hv hw => ?_, fun k' r' hr => ?_, fun v r' hv k' r₁ hr => ?_,
    fun k' => ?_, fun k₁ k₂ r₁ hr₁ r₂ hr₂ heq => ?_⟩
  · rw [hh]
    exact hi.known v r' (hold v r' hv).2
  · exact hi.alone v w r₁ r₂ (hold v r₁ hv).2 (hold w r₂ hw).2
  · rw [hh]
    rcases hmem k' r' hr with hr | ⟨rfl, -⟩
    · exact hi.sent k' r' hr
    · exact hi.known t r' ht
  · obtain ⟨hvt, hv⟩ := hold v r' hv
    rcases hmem k' r₁ hr with hr | ⟨rfl, -⟩
    · exact hi.fresh v r' hv k' r₁ hr
    · exact fun heq => hvt (hi.alone t v r₁ r' ht hv heq).symm
  · by_cases hk : k' = k
    · rw [hsent, hk, Function.update_self, List.map_append, List.nodup_append]
      refine ⟨hi.once k, List.nodup_singleton _, fun i hm j hj => ?_⟩
      obtain ⟨r', hr, rfl⟩ := List.mem_map.1 hm
      rw [List.map_singleton, List.mem_singleton] at hj
      rw [hj]
      exact hi.fresh t r ht k r' hr
    · rw [hsent, Function.update_of_ne hk]
      exact hi.once k'
  · rcases hmem k₁ r₁ hr₁ with hr₁ | ⟨rfl, rfl⟩
    · rcases hmem k₂ r₂ hr₂ with hr₂ | ⟨rfl, rfl⟩
      · exact hi.apart k₁ k₂ r₁ hr₁ r₂ hr₂ heq
      · exact absurd heq (hi.fresh t r₂ ht k₁ r₁ hr₁)
    · rcases hmem k₂ r₂ hr₂ with hr₂ | ⟨rfl, rfl⟩
      · exact absurd heq.symm (hi.fresh t r₁ ht k₂ r₂ hr₂)
      · rfl

theorem id_lt_of_issued {p : Client U K × ClientHistory U} (hr : (clientMachine U K).Reachable p)
    {r : Request} (hm : r ∈ p.2.issued) : r.id < p.1.conn.nextId :=
  (correlated_of_client hr).ids.below _ (List.mem_map_of_mem (f := Request.entry) hm)

theorem sentInv_of_reachable {p : Client U K × ClientHistory U}
    (hr : (clientMachine U K).Reachable p) : SentInv p.1 p.2 := by
  refine hr.invariant (fun p => SentInv p.1 p.2) ?_ ?_
  · rintro ⟨s, h⟩ ⟨hs, rfl⟩
    have hs : s = {} := hs
    subst hs
    have hnone : ∀ t, Client.unsent ({} : Client U K) t = none := by
      intro t
      rcases t with u | _ | _ <;> rfl
    refine ⟨fun t r ht => ?_, fun t _ r _ ht => ?_, fun _ => nofun, fun t r ht => ?_,
      fun _ => List.nodup_nil, fun _ _ => nofun⟩
    all_goals
      rw [hnone] at ht
      cases ht
  · rintro ⟨s, h⟩ a ⟨s', h'⟩ hr hi hs
    obtain ⟨hstep, hh⟩ := Machine.withHistory_step.1 hs
    simp only at hh hstep hi
    subst hh
    obtain ⟨u', rs, heff, hu, hissued⟩ := clientStep_sends (h := h) hstep
    cases heff with
    | quiet hsent hor => exact hi.quiet hsent hu hor (by rw [hissued, List.append_nil])
    | issue r hid hsent hu' =>
      refine hi.issue (fun r' hm => ?_) hsent (hu' ▸ hu) hissued
      have := id_lt_of_issued hr hm
      simp only at this
      omega
    | transmit k r ht hu' hsent =>
      exact hi.transmit ht hsent (hu' ▸ hu) (by rw [hissued, List.append_nil])

/-! ## What is received -/

/-- What the listener handles and matches has been received. -/
def ReceivedInv (s : Client U K) (h : ClientHistory U) : Prop :=
  (∀ m, s.listener = .handle m → m ∈ h.received) ∧ ∀ e ∈ h.matched, e.2 ∈ h.received

theorem receives_of_handle {pc : ListenerPc K} {m : Message}
    (hs : listenerStep conn pc a = some (conn', .handle m)) : m ∈ pc.receives a := by
  cases listenerStep_cases hs with
  | receive k => exact List.mem_singleton_self m
  | handle m' hm =>
    rcases handleIncoming_cases hm with ⟨-, heq | heq⟩ | ⟨id, -, -, -, -, heq⟩ <;> cases heq
  | outside _ _ _ hb => cases hb

omit [DecidableEq K] in
theorem handle_of_matches {pc : ListenerPc K} {e : ℕ × Message} (he : e ∈ pc.matches conn a) :
    pc = .handle e.2 := by
  unfold ListenerPc.matches at he
  split at he
  · split at he
    · rename_i hs
      rw [List.mem_singleton.1 he]
      rcases handleIncoming_cases hs with ⟨-, heq | heq⟩ | ⟨id, -, -, -, -, heq⟩
      · cases heq
      · cases heq
      · cases heq
        rfl
    · cases he
  · cases he

theorem receivedInv_of_reachable {p : Client U K × ClientHistory U}
    (hr : (clientMachine U K).Reachable p) : ReceivedInv p.1 p.2 := by
  refine hr.invariant (fun p => ReceivedInv p.1 p.2) ?_ ?_
  · rintro ⟨s, h⟩ ⟨hs, rfl⟩
    have hs : s = {} := hs
    subst hs
    exact ⟨nofun, nofun⟩
  · rintro ⟨s, h⟩ ⟨t, a⟩ ⟨s', h'⟩ hr hi hs
    obtain ⟨hclient, hh⟩ := Machine.withHistory_step.1 hs
    simp only at hh hclient hi
    subst hh
    rcases clientStep_cases hclient with ⟨u, conn', pc, rfl, hstep, rfl⟩ |
      ⟨conn', pc, rfl, hstep, rfl⟩ | ⟨conn', pc, rfl, hstep, rfl⟩
    · exact hi
    · refine ⟨fun m hm => ?_, fun e he => List.mem_append_left _ ?_⟩
      · have hm : pc = .handle m := hm
        subst hm
        exact List.mem_append_right _ (receives_of_handle hstep)
      · rcases List.mem_append.1 he with he | he
        · exact hi.2 e he
        · exact hi.1 e.2 (handle_of_matches he)
    · exact hi

/-! ## What callers of `request` get -/

theorem getField_id (r : Request) (h : ∀ e ∈ r.params, e.1 ≠ lit "id") :
    getField r.fields (lit "id") = .int r.id := by
  rw [getField, Request.fields, requestFields, field?_mergeFields _ h]
  rfl

theorem isResponse_reply (w : GivesUp) : isResponse w.reply = false := by
  cases w <;> decide

/-- The reply of a call is one of the three errors that the client makes itself, or a RESPONSE that
has been received and carries the id of the call. -/
theorem reply_cases {p : Client U K × ClientHistory U} (hr : (clientMachine U K).Reachable p)
    {x : Returned U} (hx : x ∈ p.2.returns) : ∃ m, x.reply = some m ∧
      (m = connectionUnavailable ∨ m = requestTimedOut ∨ m = connectionLost ∨
        m ∈ p.2.received ∧ answers m x.request.id = true) := by
  have hi := correlated_of_client hr
  obtain ⟨m, hm, hor⟩ := hi.reply (List.mem_map_of_mem (f := Returned.entry) hx)
  refine ⟨m, hm, ?_⟩
  rcases hor with rfl | ⟨w, rfl⟩ | htaken
  · exact .inr (.inr (.inl rfl))
  · cases w
    · exact .inl rfl
    · exact .inr (.inl rfl)
  · exact .inr (.inr (.inr ⟨(receivedInv_of_reachable hr).2 _ htaken, hi.taken _ htaken⟩))

/-- A RESPONSE is the reply of a call only if it carries the id of the call. -/
theorem answers_of_reply {p : Client U K × ClientHistory U} (hr : (clientMachine U K).Reachable p)
    {x : Returned U} (hx : x ∈ p.2.returns) {m : Message} (hm : x.reply = some m)
    (hres : isResponse m = true) : answers m x.request.id = true := by
  obtain ⟨m', hm', hor⟩ := reply_cases hr hx
  obtain rfl : m = m' := Option.some.inj (hm.symm.trans hm')
  rcases hor with rfl | rfl | rfl | ⟨-, hans⟩
  · exact absurd (hres.symm.trans (isResponse_reply .unavailable)) (by decide)
  · exact absurd (hres.symm.trans (isResponse_reply .timedOut)) (by decide)
  · exact absurd hres (by decide)
  · exact hans

theorem request_issued {p : Client U K × ClientHistory U} (hr : (clientMachine U K).Reachable p)
    {x : Returned U} (hx : x ∈ p.2.returns) : x.request ∈ p.2.issued := by
  have := ((correlated_of_client hr).ids.returned _ (List.mem_map_of_mem (f := Returned.entry) hx)).1
  obtain ⟨r, hm, heq⟩ := List.mem_map.1 this
  cases r
  cases x
  cases heq
  exact hm

/-- Two requests with one id are the same request. -/
theorem eq_of_issued {p : Client U K × ClientHistory U} (hr : (clientMachine U K).Reachable p)
    {r r' : Request} (hm : r ∈ p.2.issued) (hm' : r' ∈ p.2.issued) (hid : r.id = r'.id) : r = r' := by
  have hnd := (correlated_of_client hr).ids.once
  simp only [ClientHistory.table, List.map_map] at hnd
  exact List.inj_on_of_nodup_map hnd hm hm' hid

/-- **Requests and replies are correlated.**  A call of `request` that returns yields the RESPONSE
with its id, which answers no other message that was sent, or one of the three errors that the
client makes itself; no RESPONSE is returned by two calls; and the id of a call that has returned is
in `_pending` at most while the pending lock is held, and does not come back once it is out. -/
theorem replies_correlated {s : Client U K} {h : ClientHistory U}
    (hr : (clientMachine U K).Reachable (s, h)) :
    (∀ x ∈ h.returns, ∃ m, x.reply = some m ∧
      (m = connectionUnavailable ∨ m = requestTimedOut ∨ m = connectionLost ∨
        m ∈ h.received ∧ isResponse m = true ∧ equalsId (getField m (lit "id")) x.request.id = true ∧
          ∀ k, ∀ r ∈ s.conn.sent k, (∀ e ∈ r.params, e.1 ≠ lit "id") →
            getField r.fields (lit "id") = getField m (lit "id") → r = x.request)) ∧
    (h.returns.Pairwise fun x y =>
      ∀ m, isResponse m = true → x.reply = some m → y.reply ≠ some m) ∧
    (∀ x ∈ h.returns, x.request.id ∈ s.conn.pending → s.conn.pendingLock = true) ∧
    ∀ x ∈ h.returns, x.request.id ∉ s.conn.pending →
      ∀ a s', clientStep s a = some s' → x.request.id ∉ s'.conn.pending := by
  have hi := correlated_of_client hr
  have hmem : ∀ {x}, x ∈ h.returns → x.entry ∈ (toTable (s, h)).2.returns :=
    List.mem_map_of_mem (f := Returned.entry)
  refine ⟨fun x hx => ?_, ?_, fun x hx hm => hi.locked_of_pending (hmem hx) hm, ?_⟩
  · obtain ⟨m, hm, hor⟩ := reply_cases hr hx
    refine ⟨m, hm, hor.imp_right fun h1 => h1.imp_right fun h2 => h2.imp_right ?_⟩
    rintro ⟨hrec, hans⟩
    obtain ⟨hres, hid⟩ := (Bool.and_eq_true _ _).mp hans
    refine ⟨hrec, hres, hid, fun k r hsent hplain heq => ?_⟩
    refine eq_of_issued hr ((sentInv_of_reachable hr).sent k r hsent) (request_issued hr hx) ?_
    rw [getField_id r hplain] at heq
    refine equalsId_unique (x := .int r.id) ?_ (heq ▸ hid)
    simp [equalsId]
  · have hnd : (h.returns.map fun x => x.request.id).Nodup := by
      have := hi.ids.returnedOnce
      simp only [ClientHistory.table, List.map_map] at this
      exact this
    refine (List.pairwise_map.1 hnd).imp_of_mem fun {x y} hx hy hne m hres hm hm' => hne ?_
    have h1 := (Bool.and_eq_true _ _).mp (answers_of_reply hr hx hm hres)
    have h2 := (Bool.and_eq_true _ _).mp (answers_of_reply hr hy hm' hres)
    exact equalsId_unique h1.2 h2.2
  · intro x hx hn a s' hs
    rcases clientStep_seen (h := h) hs with heq | ⟨b, hb⟩
    · have : s'.table = s.table := congrArg Prod.fst heq
      show x.entry.id ∉ s'.table.pending
      rw [this]
      exact hn
    · exact hi.not_pending_again (hmem hx) hn (Machine.withHistory_step.1 hb).1

end Table

/-! ### Runs -/

/-- The connection drops, and the sweep of `_reconnect` wakes a caller, which returns before the sweep
has cleared `_pending`. -/
def sweptRun {U K : Type} (u : U) (k : K) : List (Thread U × ClientAct K) :=
  startOn k ++ sendRead u ++ [(.listener, .unreadable)] ++ List.replicate 6 (.listener, .go) ++
    List.replicate 3 (.user u, .go)

theorem sweptRun_pending :
    ∃ s h, (clientMachine (Fin 1) (Fin 1)).Reachable (s, h) ∧
      ∃ x ∈ h.returns, x.request.id ∈ s.conn.pending := by
  have hs : ((clientMachine (Fin 1) (Fin 1)).run ({}, {}) (sweptRun 0 0)).map
      (fun p => (p.2.returns.map (·.request.id), p.1.conn.pending)) = some ([1], [1]) := by decide
  obtain ⟨⟨s, h⟩, hrun, hval⟩ := Option.map_eq_some_iff.1 hs
  obtain ⟨hret, hpending⟩ := Prod.mk.inj hval
  have hr : (clientMachine (Fin 1) (Fin 1)).Reachable (s, h) :=
    Machine.Reachable.run (s := ({}, {})) (.init ⟨rfl, rfl⟩) hrun
  obtain ⟨x, hx, hid⟩ := List.mem_map.1 (hret ▸ List.mem_singleton_self 1 : 1 ∈ h.returns.map _)
  exact ⟨s, h, hr, x, hx, by rw [hid, show s.conn.pending = [1] from hpending]; simp⟩

/-- The server answers a request. -/
def answeredRun {U K : Type} (u : U) (k : K) : List (Thread U × ClientAct K) :=
  startOn k ++ sendRead u ++ [(.listener, .receive (.obj (responseTo 1)))] ++
    List.replicate 3 (.listener, .go) ++ List.replicate 3 (.user u, .go)

theorem answeredRun_returns :
    ∃ s h, (clientMachine (Fin 1) (Fin 1)).run ({}, {}) (answeredRun 0 0) = some (s, h) ∧
      ∃ x ∈ h.returns, (x.reply.map isResponse = some true) ∧ x.request.id ∉ s.conn.pending := by
  have hs : ((clientMachine (Fin 1) (Fin 1)).run ({}, {}) (answeredRun 0 0)).map
      (fun p => (p.2.returns.map (fun x => (x.request.id, x.reply.map isResponse)),
        p.1.conn.pendingLock)) = some ([(1, some true)], false) := by decide
  obtain ⟨⟨s, h⟩, hrun, hval⟩ := Option.map_eq_some_iff.1 hs
  obtain ⟨hret, hlock⟩ := Prod.mk.inj hval
  have hr : (clientMachine (Fin 1) (Fin 1)).Reachable (s, h) :=
    Machine.Reachable.run (s := ({}, {})) (.init ⟨rfl, rfl⟩) hrun
  obtain ⟨x, hx, hxval⟩ := List.mem_map.1
    (hret ▸ List.mem_singleton_self (1, some true) : (1, some true) ∈ h.returns.map _)
  refine ⟨s, h, hrun, x, hx, (Prod.mk.inj hxval).2, fun hm => ?_⟩
  have := (replies_correlated hr).2.2.1 x hx hm
  rw [show s.conn.pendingLock = false from hlock] at this
  cases this

end DistRes
