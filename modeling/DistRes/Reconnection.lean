import DistRes.System

/-!
# The connection that a client reads, and its recovery

* `ListenerPc.link` — the connection that the listener reads from, or is about to;
* `ListenerPc.recovers` and `ReenterStep` — the way of `_reconnect` to the re-LOGIN, and its sending;
* `RecoveryInv` — the socket and the reader of a client that is not closed.
-/

namespace DistRes

open Lib

/-! ## The connection that a client reads -/

section Link

variable {U K : Type} [DecidableEq U] [DecidableEq K] {conn conn' : ServerConnection K}
  {pc pc' : ListenerPc K} {a : ClientAct K} {s s' : Client U K} {k : K}

/-- The listener has left its loop for good. -/
def ListenerPc.gone : ListenerPc K → Bool
  | .ended | .died => true
  | _ => false

/-- The connection that the listener reads from, or is about to. -/
def ListenerPc.link (conn : ServerConnection K) : ListenerPc K → Option K
  | .connect (.setSock k) _ | .connect (.setReader k) _ => some k
  | .connect .setConnected _ | .connect .done _ | .loop | .read | .reading _ | .handle _
  | .resolve _ _ | .wake _ | .checkRunning | .checkCredentials | .unpack | .relogin _ => conn.reader
  | _ => none

def Client.link (s : Client U K) : Option K := s.listener.link s.conn

omit [DecidableEq U] [DecidableEq K] in
theorem reads_of_link (h : s.link = some k) : s.reads k := by
  obtain ⟨conn, user, pc, beat⟩ := s
  have h : pc.link conn = some k := h
  unfold ListenerPc.link at h
  split at h
  · exact .inr h
  · exact .inr h
  all_goals first
    | exact .inl h
    | cases h

/-- A listener that waits for a message reads from the current reader. -/
def ReaderInv (s : Client U K) : Prop := ∀ k, s.listener = .reading k → s.conn.reader = some k

theorem reader_of_reading (hs : listenerStep conn pc a = some (conn', .reading k)) :
    conn'.reader = some k := by
  cases listenerStep_cases hs with
  | read _ hr => exact hr
  | handle m hm =>
    rcases handleIncoming_cases hm with ⟨-, h | h⟩ | ⟨id, -, -, -, -, h⟩ <;> cases h
  | outside _ _ _ _ hsocket => cases hsocket

theorem ReaderInv.step {t : Thread U} (hi : ReaderInv s) (hs : clientStep s (t, a) = some s') :
    ReaderInv s' := by
  rcases clientStep_cases hs with ⟨u, conn', pc, -, hstep, rfl⟩ | ⟨conn', pc, -, hstep, rfl⟩ |
    ⟨conn', pc, -, hstep, rfl⟩
  · exact fun k hk => (userStep_reader hstep).trans (hi k hk)
  · intro k hk
    have hk : pc = .reading k := hk
    subst hk
    exact reader_of_reading hstep
  · exact fun k hk => (beatStep_reader hstep).trans (hi k hk)

theorem listener_of_client (hs : clientStep s (.listener, a) = some s') :
    listenerStep s.conn s.listener a = some (s'.conn, s'.listener) := by
  obtain ⟨⟨conn', pc'⟩, hstep, rfl⟩ := Option.map_eq_some_iff.1 hs
  exact hstep

omit [DecidableEq K] in
theorem connectStep_link {pc pc' : ConnectPc K} {again : Bool}
    (hs : connectStep conn pc a = some (conn', pc')) :
    (ListenerPc.connect pc' again).link conn' = (ListenerPc.connect pc again).link conn ∨
      (ListenerPc.connect pc again).link conn = none ∨ a = .fail ∧ pc = .setConnected := by
  cases connectStep_moves hs with
  | refused => exact .inr (.inr ⟨rfl, rfl⟩)
  | setSock | setReader | setConnected => exact .inl rfl
  | check | stop | attempt | fail | setReconnecting | sleep => exact .inr (.inl rfl)

/-- **The link** of a listener changes where it stops reading, where it had none, and where
`_connect_once` takes an error of the callback for its own. -/
theorem listenerStep_link (hs : listenerStep conn pc a = some (conn', pc')) :
    pc'.link conn' = pc.link conn ∨ pc.link conn = none ∨ pc'.gone = true ∨
      (pc' = .recover ∧ ∃ k, pc = .reading k) ∨ a = .fail ∧ ∃ again, pc = .connect .setConnected again := by
  cases listenerStep_moves hs with
  | connect again hc =>
    rcases connectStep_link hc with h | h | ⟨ha, hpc⟩
    · exact .inl h
    · exact .inr (.inl h)
    · exact .inr (.inr (.inr (.inr ⟨ha, again, by rw [hpc]⟩)))
  | receiveNone | unreadable => exact .inr (.inr (.inr (.inl ⟨rfl, _, rfl⟩)))
  | handle m hm =>
    rcases handleIncoming_cases hm with ⟨rfl, rfl | rfl⟩ | ⟨id, -, -, -, rfl, rfl⟩
    · exact .inl rfl
    · exact .inr (.inr (.inl rfl))
    · exact .inl rfl
  | request hreq => exact .inl (requestStep_keeps hreq).1
  | connectedRaises | retryRaises | ends | readerless | receiveOther | overflows | handleRaises
  | reconnectRaises
  | unpackNone => exact .inr (.inr (.inl rfl))
  | recover | recoverStopped | reconnect | reconnectStopped | setReconnecting | lock | sweep | sweepWake
  | swept => exact .inr (.inl rfl)
  | _ => exact .inl rfl

/-- A listener stops reading in the step in which it gets nothing. -/
theorem unreadable_of_recover (hlocal : a.isLocal = true)
    (hs : listenerStep conn (.reading k) a = some (conn', .recover)) : a = .unreadable := by
  cases a with
  | unreadable => rfl
  | receive m => cases hlocal
  | _ => cases hs

end Link

/-! ## The recovery of a client -/

section Client

variable {U K : Type} [DecidableEq U] [DecidableEq K] {conn conn' : ServerConnection K}
  {pc pc' : ListenerPc K} {a : ClientAct K} {s s' : Client U K} {u : Text}

/-- The request has not been sent. -/
def RequestPc.starting : RequestPc K → Bool
  | .next | .insert _ | .send _ _ => true
  | _ => false

/-- The listener is in `_reconnect` before its re-LOGIN, or does nothing any more. -/
def ListenerPc.recovers : ListenerPc K → Bool
  | .recover | .reconnect | .setReconnecting | .lockPending | .sweep _ | .sweepWake _ _
  | .connect _ true | .checkRunning | .checkCredentials | .unpack => true
  | pc => pc.gone

/-- The listener has a re-LOGIN to send that is one of `u` where it arrives. -/
def ListenerPc.reenters (u : Text) : ListenerPc K → Bool
  | .relogin c => c.pc.starting && (getField c.params (lit "user_id")).joined.text? = some u
  | _ => false

/-- The listener comes to a LOGIN of `u`, as far as it can tell. -/
def Client.resumes (s : Client U K) (u : Text) : Bool := s.listener.recovers || s.listener.reenters u

/-- In this step, the request cannot be sent. -/
def RequestCall.unsendable (conn : ServerConnection K) (c : RequestCall K) (a : ClientAct K) : Bool :=
  match c.pc, a with
  | .send _ .pick, .go => conn.sock.isNone
  | .send _ (.sendall _), .fail => true
  | _, _ => false

/-- In this step, the recovery ends without a LOGIN of `u`: there are no credentials, or those of
another user, or the re-LOGIN cannot be sent. -/
def Client.givesUp (s : Client U K) (u : Text) (a : ClientAct K) : Bool :=
  match s.listener, a with
  | .checkCredentials, .go => s.conn.credentials.isNone
  | .unpack, .go => s.conn.credentials.any fun x => joinPairs x.1 ≠ u
  | .relogin c, a => c.unsendable s.conn a
  | _, _ => false

omit [DecidableEq U] in
/-- **The steps of a recovery.** -/
theorem recovers_step (hpc : s.listener.recovers = true) (hrun : s.conn.running = true)
    (hs : listenerStep s.conn s.listener a = some (conn', pc')) :
    (pc'.recovers = true ∧ s.givesUp u a = false) ∨
      conn' = s.conn ∧ ((s.listener = .checkCredentials ∧ pc' = .loop ∧ s.givesUp u a = true) ∨
        ∃ v n, s.listener = .unpack ∧ s.givesUp u a = decide (joinPairs v ≠ u) ∧
          pc' = .relogin { action := actionLogin, params := loginParams v n }) := by
  obtain ⟨conn, user, pc, beat⟩ := s
  change listenerStep conn pc a = some (conn', pc') at hs
  change conn.running = true at hrun
  cases listenerStep_moves hs with
  | connect again hc =>
    cases again
    · cases hpc
    · exact .inl ⟨rfl, rfl⟩
  | checkCredentials x hcred =>
    exact .inl ⟨rfl, by simp only [Client.givesUp, hcred, Option.isNone_some]⟩
  | loggedOut hcred =>
    exact .inr ⟨rfl, .inl ⟨rfl, rfl, by simp only [Client.givesUp, hcred, Option.isNone_none]⟩⟩
  | relogin v n hcred =>
    exact .inr ⟨rfl, .inr ⟨v, n, rfl, by simp only [Client.givesUp, hcred, Option.any_some], rfl⟩⟩
  | unpackNone hcred => exact .inl ⟨rfl, by simp only [Client.givesUp, hcred, Option.any_none]⟩
  | recoverStopped hstop | reconnectStopped hstop | stopped hstop => cases hrun.symm.trans hstop
  | reconnected | connectedRaises | retryRaises | recover | reconnect | setReconnecting | reconnectRaises
  | lock | sweep | sweepWake | swept | checkRunning => exact .inl ⟨rfl, rfl⟩
  | _ => cases hpc

/-- **The steps of a re-LOGIN** up to where it is sent. -/
inductive ReenterStep (conn : ServerConnection K) (c : RequestCall K) :
    ClientAct K → ServerConnection K → RequestCall K → Prop
  | on {a : ClientAct K} {conn' : ServerConnection K} {pc : RequestPc K} : pc.starting = true →
      c.unsendable conn a = false → ReenterStep conn c a conn' { c with pc }
  | sent (id : ℕ) (k : K) : c.pc = .send id (.sendall k) →
      ReenterStep conn c .go { conn.transmit k ⟨id, c.action, c.params⟩ with sendLock := false }
        { c with pc := .wait id }
  | unconnected (id : ℕ) : c.pc = .send id .pick → conn.sock = none →
      ReenterStep conn c .go { conn with sendLock := false } { c with pc := .failed id }
  | raises (id : ℕ) (k : K) : c.pc = .send id (.sendall k) →
      ReenterStep conn c .fail { conn with sendLock := false } { c with pc := .failed id }

theorem reenterStep_cases {c c' : RequestCall K} (hc : c.pc.starting = true)
    (hs : requestStep conn c a = some (conn', c')) : ReenterStep conn c a conn' c' := by
  obtain ⟨pc', rfl, hstep⟩ := requestStep_cases hs
  obtain ⟨action, params, pc⟩ := c
  cases hstep with
  | next | insert => exact .on rfl rfl
  | send id ok hsend =>
    cases hsend with
    | lock => exact .on rfl rfl
    | pick k hk =>
      have hsome : conn.sock.isNone = false := by rw [hk]; rfl
      exact .on rfl hsome
    | unconnected hsock => exact .unconnected id rfl hsock
    | sent k => exact .sent id k rfl
    | raises k => exact .raises id k rfl
  | unavailable | wakes | expires | timedOut | fetch => cases hc

/-! ### What holds of a client that is not closed -/

/-- **The invariant of the recovery.**  Apart from the moment between the two assignments of
`_connect_once`, the socket and the reader belong to one connection, and the re-LOGIN goes there. -/
structure RecoveryInv (s : Client U K) : Prop where
  running : s.conn.running = true
  connecting : ∀ k again, s.listener = .connect (.setReader k) again → s.conn.sock = some k
  connected : (∀ k again, s.listener ≠ .connect (.setReader k) again) → s.conn.sock = s.conn.reader
  relogin : ∀ c, s.listener = .relogin c → c.action = actionLogin ∧ ∃ v n, c.params = loginParams v n
  sending : ∀ c id k, s.listener = .relogin c → c.pc = .send id (.sendall k) → s.conn.reader = some k

omit [DecidableEq U] [DecidableEq K] in
theorem RecoveryInv.of_conn (hi : RecoveryInv s) (hlistener : s'.listener = s.listener)
    (hrun : s'.conn.running = s.conn.running) (hsock : s'.conn.sock = s.conn.sock)
    (hreader : s'.conn.reader = s.conn.reader) : RecoveryInv s' := by
  refine ⟨by rw [hrun, hi.running], ?_, ?_, ?_, ?_⟩ <;> simp only [hlistener, hsock, hreader]
  · exact hi.connecting
  · exact hi.connected
  · exact hi.relogin
  · exact hi.sending

theorem requestStep_link {c c' : RequestCall K} (hs : requestStep conn c a = some (conn', c')) :
    conn'.running = conn.running ∧ conn'.sock = conn.sock ∧ conn'.reader = conn.reader := by
  rw [requestStep_frame hs]
  exact ⟨rfl, rfl, rfl⟩

theorem userStep_link {pc pc' : UserPc K} (hpc : pc ≠ .close)
    (hs : userStep conn pc a = some (conn', pc')) :
    conn'.running = conn.running ∧ conn'.sock = conn.sock ∧ conn'.reader = conn.reader := by
  cases userStep_moves hs with
  | request logout hreq => exact requestStep_link hreq
  | close => exact absurd rfl hpc
  | call | login | returns | loggedOut | forget | closeState | closeRaises | closeSock =>
    exact ⟨rfl, rfl, rfl⟩

theorem beatStep_link {pc pc' : BeatPc K} (hs : beatStep conn pc a = some (conn', pc')) :
    conn'.running = conn.running ∧ conn'.sock = conn.sock ∧ conn'.reader = conn.reader := by
  rw [beatStep_frame hs]
  exact ⟨rfl, rfl, rfl⟩

omit [DecidableEq U] [DecidableEq K] in
/-- A step of `_connect_with_retry`. -/
theorem RecoveryInv.connect {user : U → UserPc K} {beat : BeatPc K} {pc pc' : ConnectPc K} {again : Bool}
    (hi : RecoveryInv (⟨conn, user, .connect pc again, beat⟩ : Client U K))
    (hs : connectStep conn pc a = some (conn', pc')) :
    RecoveryInv (⟨conn', user, .connect pc' again, beat⟩ : Client U K) := by
  obtain ⟨hrun, hconnecting, hconnected, -, -⟩ := hi
  have hno : ∀ {pc : ConnectPc K}, (∀ k, pc ≠ .setReader k) →
      ∀ k again', ListenerPc.connect pc again ≠ .connect (.setReader k) again' := by
    intro pc hpc k again' h
    cases h
    exact hpc k rfl
  cases connectStep_moves hs with
  | setSock k =>
    refine ⟨hrun, fun k' again' h => ?_, fun h => absurd rfl (h k again), nofun, nofun⟩
    cases h
    rfl
  | setReader k => exact ⟨hrun, nofun, fun _ => hconnecting k again rfl, nofun, nofun⟩
  | check | stop | attempt | fail | setConnected | refused | setReconnecting | sleep =>
    exact ⟨hrun, nofun, fun _ => hconnected (hno (by nofun)), nofun, nofun⟩

/-- The socket that `_raw_send` has taken. -/
theorem sock_of_sendall {action : Text} {params : List (Text × Json)} {pc : RequestPc K} {id : ℕ} {k : K}
    (hs : RequestStep conn action params pc a conn' (.send id (.sendall k))) : conn.sock = some k := by
  generalize hpc : RequestPc.send id (.sendall k) = pc' at hs
  cases hs with
  | send id ok hsend =>
    cases hsend with
    | pick k' hk =>
      cases hpc
      exact hk
    | lock | unconnected | sent | raises => cases hpc
  | next | insert | unavailable | wakes | expires | timedOut | fetch => cases hpc

omit [DecidableEq U] in
theorem RecoveryInv.listener (hi : RecoveryInv s)
    (hs : listenerStep s.conn s.listener a = some (conn', pc')) :
    RecoveryInv { s with conn := conn', listener := pc' } := by
  obtain ⟨conn, user, pc, beat⟩ := s
  change listenerStep conn pc a = some (conn', pc') at hs
  obtain ⟨hrun, hconnecting, hconnected, hrelogin, hsending⟩ := hi
  -- a step that leaves the socket and the reader alone, with no re-LOGIN
  have stays : ∀ {conn' : ServerConnection K} {pc' : ListenerPc K},
      (∀ k again, pc ≠ .connect (.setReader k) again) →
      conn'.running = conn.running → conn'.sock = conn.sock → conn'.reader = conn.reader →
      (∀ k again, pc' ≠ .connect (.setReader k) again) → pc'.call? = none →
      RecoveryInv (⟨conn', user, pc', beat⟩ : Client U K) := by
    intro conn' pc' hpc h1 h2 h3 h4 h5
    refine ⟨h1.trans hrun, fun k again h => absurd h (h4 k again), fun _ => ?_, fun c h => ?_,
      fun c id k h => ?_⟩
    · exact h2.trans ((hconnected hpc).trans h3.symm)
    · rw [show pc' = .relogin c from h] at h5
      cases h5
    · rw [show pc' = .relogin c from h] at h5
      cases h5
  cases listenerStep_moves hs with
  | connect again hc => exact RecoveryInv.connect ⟨hrun, hconnecting, hconnected, hrelogin, hsending⟩ hc
  | handle m hm =>
    rcases handleIncoming_cases hm with ⟨rfl, rfl | rfl⟩ | ⟨id, -, -, -, rfl, rfl⟩ <;>
      exact stays nofun rfl rfl rfl nofun rfl
  | relogin v n hcred =>
    refine ⟨hrun, nofun, fun _ => hconnected nofun, fun c h => ?_, fun c id k h hpc => ?_⟩
    · cases h
      exact ⟨rfl, v, n, rfl⟩
    · cases h
      cases hpc
  | @request _ c c' _ hreq =>
    obtain ⟨h1, h2, h3⟩ := requestStep_link hreq
    obtain ⟨pc', rfl, hstep⟩ := requestStep_cases hreq
    have hsock : conn.sock = conn.reader := hconnected nofun
    refine ⟨h1.trans hrun, nofun, fun _ => h2.trans (hsock.trans h3.symm), fun c' h => ?_,
      fun c' id k h hpc => ?_⟩
    · cases h
      exact hrelogin c rfl
    · cases h
      have hpc : pc' = .send id (.sendall k) := hpc
      exact h3.trans (hsock.symm.trans (sock_of_sendall (hpc ▸ hstep)))
  | _ => exact stays nofun rfl rfl rfl nofun rfl

theorem RecoveryInv.step {t : Thread U} (hi : RecoveryInv s) (hclose : ∀ u, s.user u ≠ .close)
    (hs : clientStep s (t, a) = some s') : RecoveryInv s' := by
  rcases clientStep_cases hs with ⟨u, conn', pc, -, hstep, rfl⟩ | ⟨conn', pc, -, hstep, rfl⟩ |
    ⟨conn', pc, -, hstep, rfl⟩
  · obtain ⟨h1, h2, h3⟩ := userStep_link (hclose u) hstep
    exact hi.of_conn rfl h1 h2 h3
  · exact hi.listener hstep
  · obtain ⟨h1, h2, h3⟩ := beatStep_link hstep
    exact hi.of_conn rfl h1 h2 h3

end Client

end DistRes
