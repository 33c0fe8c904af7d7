import DistRes.Closing

/-!
# A server that has gone silent

From some point on every send succeeds and nothing comes in, neither a byte nor the end of the stream.

* `pingMachine` — a client, with the number of PINGs on the current socket since the last message;
* `Client.silent` — the steps of such a run;
* `Client.established` — the connection is up, or about to be, and nobody has closed it;
* `silence_detected_iff` — the PINGs stay bounded exactly if the connection is not established.
-/

namespace DistRes

open Lib

section Heartbeat

variable {U K : Type} [DecidableEq U] [DecidableEq K] {conn conn' : ServerConnection K}
  {a : ClientAct K} {s s' : Client U K}

/-! ## PINGs without an answer -/

/-- The number of PINGs on the current socket since the last message, after a step. -/
def Client.unanswered (s : Client U K) (n : ℕ) : Thread U × ClientAct K → ℕ
  | (.listener, a) =>
    match s.listener, a with
    | .reading _, .receive _ => 0
    | .connect (.setSock _) _, .go => 0
    | _, _ => n
  | (.beat, a) =>
    match s.beat, a with
    | .send _ (.sendall k), .go => if s.conn.sock = some k then n + 1 else n
    | _, _ => n
  | (.user _, _) => n

/-- A client, with its unanswered PINGs. -/
def pingMachine (U K : Type) [DecidableEq U] [DecidableEq K] :
    Machine (Client U K × ℕ) (Thread U × ClientAct K) :=
  (⟨fun s => s = {}, clientStep⟩ : Machine (Client U K) (Thread U × ClientAct K)).withHistory
    0 fun n s x _ => s.unanswered n x

/-- Nothing comes in, and no `sendall` raises. -/
def Client.silent (s : Client U K) (x : Thread U × ClientAct K) : Bool :=
  match x.2 with
  | .receive _ | .unreadable | .connect _ => false
  | .fail => (s.picked x.1).isNone
  | _ => true

/-- What is reached from `p` on while the server is silent. -/
def SilentReach (p : Client U K × ℕ) : Client U K × ℕ → Prop :=
  ((pingMachine U K).startingAt p).Reach fun q x => q.1.silent x = true

/-- The listener has a new socket, and is about to leave `_connect_with_retry` with it. -/
def ListenerPc.establishing : ListenerPc K → Bool
  | .connect (.setSock _) _ | .connect (.setReader _) _ | .connect .setConnected _
  | .connect .done _ => true
  | _ => false

/-- The connection is up or about to be, with its heartbeat, and not closed. -/
def Client.established (s : Client U K) : Bool :=
  s.conn.running &&
    (s.listener.establishing || s.conn.started && decide (s.conn.state = .connected))

/-! ## What holds of every client -/

/-- `start` has not returned, or the listener has died. -/
def ListenerPc.starting : ListenerPc K → Bool
  | .connect _ again => !again
  | .died => true
  | _ => false

/-- The listener has set `_sock`, and not the state. -/
def ListenerPc.connecting : ListenerPc K → Bool
  | .connect (.setReader _) _ | .connect .setConnected _ => true
  | _ => false

/-- A thread in `_raw_send` holds the send lock. -/
def SendPc.holdsLock : SendPc K → Bool
  | .pick | .sendall _ => true
  | _ => false

def RequestCall.holdsLock (c : RequestCall K) : Bool :=
  match c.pc with
  | .send _ pc => pc.holdsLock
  | _ => false

def BeatPc.holdsLock : BeatPc K → Bool
  | .send _ pc => pc.holdsLock
  | _ => false

def Client.holdsLock (s : Client U K) : Thread U → Bool
  | .beat => s.beat.holdsLock
  | t => (s.call? t).any RequestCall.holdsLock

/-- The heartbeat has not ended, and takes up where `_raw_send` leaves it. -/
def BeatPc.alive : BeatPc K → Bool
  | .ended | .send _ .sent | .send _ .raised => false
  | _ => true

/-- **The invariant.** -/
structure PingInv (s : Client U K) (n : ℕ) : Prop where
  closing : ∀ u, (s.user u).closing = true → s.conn.running = false
  closed : s.conn.running = true → s.conn.closed = []
  sock : s.conn.state = .connected ∨ s.listener.connecting = true → s.conn.sock ≠ none
  done : ∀ again, s.listener = .connect .done again → s.conn.running = true → s.conn.state = .connected
  started : s.listener.starting = false → s.conn.started = true
  beats : s.conn.running = true → s.beat.alive = true
  fresh : s.conn.started = false → s.beat = .off ∧ n = 0
  lock : s.conn.sendLock = true → ∃ t, s.holdsLock t = true

/-! ### The send lock -/

theorem SendStep.holdsLock {r : Request} {pc pc' : SendPc K} {ok : Bool}
    (hs : SendStep r conn pc ok conn' pc') (hl : conn'.sendLock = true) : pc'.holdsLock = true := by
  cases hs with
  | lock | pick => rfl
  | unconnected | sent | raises => cases hl

theorem requestStep_lock {c c' : RequestCall K} (hs : requestStep conn c a = some (conn', c'))
    (hl : conn'.sendLock = true) :
    c'.holdsLock = true ∨ conn.sendLock = true ∧ c.holdsLock = false := by
  obtain ⟨pc', rfl, hstep⟩ := requestStep_cases hs
  obtain ⟨action, params, pc⟩ := c
  cases hstep with
  | @send id pc pc' conn' ok hsend =>
    have := hsend.holdsLock hl
    cases pc' with
    | pick | sendall => exact .inl rfl
    | lock | sent | raised => cases this
  | next | insert | unavailable | wakes | expires | timedOut | fetch => exact .inr ⟨hl, rfl⟩

theorem userStep_lock {pc pc' : UserPc K} (hs : userStep conn pc a = some (conn', pc'))
    (hl : conn'.sendLock = true) :
    pc'.call?.any RequestCall.holdsLock = true ∨
      conn.sendLock = true ∧ pc.call?.any RequestCall.holdsLock = false := by
  cases userStep_moves hs with
  | request logout hreq => exact requestStep_lock hreq hl
  | _ => exact .inr ⟨hl, rfl⟩

theorem listenerStep_lock {pc pc' : ListenerPc K} (hs : listenerStep conn pc a = some (conn', pc'))
    (hl : conn'.sendLock = true) :
    pc'.call?.any RequestCall.holdsLock = true ∨
      conn.sendLock = true ∧ pc.call?.any RequestCall.holdsLock = false := by
  cases listenerStep_moves hs with
  | request hreq => exact requestStep_lock hreq hl
  | connect again hc =>
    rw [connectStep_frame hc] at hl
    exact .inr ⟨hl, rfl⟩
  | handle m hm =>
    rcases handleIncoming_cases hm with ⟨rfl, -⟩ | ⟨id, -, -, -, rfl, -⟩
    · exact .inr ⟨hl, rfl⟩
    · exact .inr ⟨hl, rfl⟩
  | _ => exact .inr ⟨hl, rfl⟩

theorem beatStep_lock {pc pc' : BeatPc K} (hs : beatStep conn pc a = some (conn', pc'))
    (hl : conn'.sendLock = true) :
    pc'.holdsLock = true ∨ conn.sendLock = true ∧ pc.holdsLock = false := by
  cases beatStep_moves hs with
  | @send id pc pc' conn' ok hsend =>
    have := hsend.holdsLock hl
    cases pc' with
    | pick | sendall => exact .inl rfl
    | lock | sent | raised => cases this
  | _ => exact .inr ⟨hl, rfl⟩

/-- Whoever has the lock is in `_raw_send`. -/
theorem lock_step {t : Thread U} (hs : clientStep s (t, a) = some s')
    (hi : s.conn.sendLock = true → ∃ t, s.holdsLock t = true) (hl : s'.conn.sendLock = true) :
    ∃ t, s'.holdsLock t = true := by
  -- the lock was held by a thread that does not move
  have other : (∀ v, v ≠ t → s'.holdsLock v = s.holdsLock v) → s.conn.sendLock = true →
      s.holdsLock t = false → ∃ t, s'.holdsLock t = true := by
    intro hother hlock ht
    obtain ⟨v, hv⟩ := hi hlock
    have hvt : v ≠ t := by
      rintro rfl
      exact absurd (hv.symm.trans ht) nofun
    exact ⟨v, (hother v hvt).trans hv⟩
  rcases clientStep_cases hs with ⟨u, conn', pc, rfl, hstep, rfl⟩ | ⟨conn', pc, rfl, hstep, rfl⟩ |
    ⟨conn', pc, rfl, hstep, rfl⟩
  · rcases userStep_lock hstep hl with h | ⟨hlock, hno⟩
    · refine ⟨.user u, ?_⟩
      simp only [Client.holdsLock, Client.call?, Function.update_self]
      exact h
    · refine other (fun v hv => ?_) hlock hno
      cases v with
      | user w =>
        have hw : w ≠ u := fun h => hv (h ▸ rfl)
        simp only [Client.holdsLock, Client.call?, Function.update_of_ne hw]
      | listener | beat => rfl
  · rcases listenerStep_lock hstep hl with h | ⟨hlock, hno⟩
    · exact ⟨.listener, h⟩
    · refine other (fun v hv => ?_) hlock hno
      cases v with
      | listener => exact absurd rfl hv
      | user | beat => rfl
  · rcases beatStep_lock hstep hl with h | ⟨hlock, hno⟩
    · exact ⟨.beat, h⟩
    · refine other (fun v hv => ?_) hlock hno
      cases v with
      | beat => exact absurd rfl hv
      | user | listener => rfl

/-! ### The rest -/

/-- Nobody but `close` touches what the heartbeat depends on, and only after lowering `_running`. -/
theorem userStep_frame {pc pc' : UserPc K} (hclosing : pc.closing = true → conn.running = false)
    (hs : userStep conn pc a = some (conn', pc')) :
    (pc'.closing = true → conn'.running = false) ∧ conn'.started = conn.started ∧
      (conn'.state = .connected → conn.state = .connected) ∧
      (conn'.running = true →
        conn.running = true ∧ conn'.closed = conn.closed ∧ conn'.state = conn.state) := by
  cases userStep_moves hs with
  | call m => exact ⟨fun h => (by cases m <;> cases h), rfl, id, fun h => ⟨h, rfl, rfl⟩⟩
  | request logout hreq =>
    rw [requestStep_frame hreq]
    exact ⟨nofun, rfl, id, fun h => ⟨h, rfl, rfl⟩⟩
  | close => exact ⟨fun _ => rfl, rfl, id, nofun⟩
  | closeState =>
    have hrun : conn.running = false := hclosing rfl
    exact ⟨fun _ => hrun, rfl, nofun, fun h => absurd (h.symm.trans hrun) nofun⟩
  | closeRaises =>
    have hrun : conn.running = false := hclosing rfl
    exact ⟨nofun, rfl, nofun, fun h => absurd (h.symm.trans hrun) nofun⟩
  | closeSock =>
    have hrun : conn.running = false := hclosing rfl
    exact ⟨nofun, rfl, id, fun h => absurd (h.symm.trans hrun) nofun⟩
  | login | returns | loggedOut | forget => exact ⟨nofun, rfl, id, fun h => ⟨h, rfl, rfl⟩⟩

theorem beatStep_state {pc pc' : BeatPc K} (hs : beatStep conn pc a = some (conn', pc')) :
    conn'.started = conn.started ∧ conn'.state = conn.state := by
  rw [beatStep_frame hs]
  exact ⟨rfl, rfl⟩

theorem beat_ends {pc pc' : BeatPc K} (hs : beatStep conn pc a = some (conn', pc'))
    (hpc : pc'.alive = false) : conn.running = false := by
  cases beatStep_moves hs with
  | ends hstop => exact hstop
  | @send id pc pc' _ ok hsend => cases pc' <;> cases hpc
  | _ => cases hpc

theorem beat_begins {pc : BeatPc K} (hs : beatStep conn .off a = some (conn', pc)) :
    conn.started = true := by
  cases beatStep_moves hs with
  | start hstarted => exact hstarted

/-- What the listener does to the link and to `start`. -/
theorem listenerStep_upholds {pc pc' : ListenerPc K} (hs : listenerStep conn pc a = some (conn', pc'))
    (hsock : conn.state = .connected ∨ pc.connecting = true → conn.sock ≠ none)
    (hdone : ∀ again, pc = .connect .done again → conn.running = true → conn.state = .connected)
    (hstarted : pc.starting = false → conn.started = true) :
    (conn'.state = .connected ∨ pc'.connecting = true → conn'.sock ≠ none) ∧
      (∀ again, pc' = .connect .done again → conn'.running = true → conn'.state = .connected) ∧
      (pc'.starting = false → conn'.started = true) ∧
      (conn.started = true → conn'.started = true) := by
  cases listenerStep_moves hs with
  | started => exact ⟨fun h => hsock (h.imp id nofun), nofun, fun _ => rfl, fun _ => rfl⟩
  | connectedRaises => exact ⟨fun _ => hsock (.inr rfl), nofun, nofun, id⟩
  | retryRaises => exact ⟨fun h => (by rcases h with h | h <;> cases h), nofun, nofun, id⟩
  | connect again hc =>
    cases connectStep_moves hc with
    | check | attempt | fail | sleep =>
      exact ⟨fun h => hsock (h.imp id nofun), nofun, hstarted, id⟩
    | stop hrun =>
      exact ⟨fun h => hsock (h.imp id nofun), fun _ _ h => absurd (hrun.symm.trans h) nofun,
        hstarted, id⟩
    | setSock => exact ⟨nofun, nofun, hstarted, id⟩
    | setReader => exact ⟨fun _ => hsock (.inr rfl), nofun, hstarted, id⟩
    | setConnected => exact ⟨fun _ => hsock (.inr rfl), fun _ _ _ => rfl, hstarted, id⟩
    | refused => exact ⟨fun _ => hsock (.inr rfl), nofun, hstarted, id⟩
    | setReconnecting => exact ⟨fun h => (by rcases h with h | h <;> cases h), nofun, hstarted, id⟩
  | handle m hm =>
    rcases handleIncoming_cases hm with ⟨rfl, rfl | rfl⟩ | ⟨id, -, -, -, rfl, rfl⟩
    · exact ⟨fun h => hsock (h.imp id nofun), nofun, hstarted, id⟩
    · exact ⟨fun h => hsock (h.imp id nofun), nofun, nofun, id⟩
    · exact ⟨fun h => hsock (h.imp (fun x => x) nofun), nofun, hstarted, fun h => h⟩
  | setReconnecting => exact ⟨fun h => (by rcases h with h | h <;> cases h), nofun, hstarted, id⟩
  | reconnectRaises => exact ⟨fun h => (by rcases h with h | h <;> cases h), nofun, nofun, id⟩
  | request hreq =>
    rw [requestStep_frame hreq]
    exact ⟨fun h => hsock (h.imp id nofun), nofun, hstarted, id⟩
  | readerless | receiveOther | overflows | handleRaises | unpackNone =>
    exact ⟨fun h => hsock (h.imp id nofun), nofun, nofun, id⟩
  | _ => exact ⟨fun h => hsock (h.imp (fun x => x) nofun), nofun, hstarted, fun h => h⟩

omit [DecidableEq U] in
/-- The listener changes nothing of the count but to reset it. -/
theorem unanswered_listener (s : Client U K) (n : ℕ) (a : ClientAct K) :
    s.unanswered n (.listener, a) = n ∨ s.unanswered n (.listener, a) = 0 := by
  simp only [Client.unanswered]
  split
  · exact .inr rfl
  · exact .inr rfl
  · exact .inl rfl

theorem pingMachine_step {q q' : Client U K × ℕ} {x : Thread U × ClientAct K} :
    (pingMachine U K).step q x = some q' ↔
      clientStep q.1 x = some q'.1 ∧ q'.2 = q.1.unanswered q.2 x :=
  Machine.withHistory_step

/-- Nobody raises `_running` again. -/
theorem userStep_running {pc pc' : UserPc K} (hs : userStep conn pc a = some (conn', pc'))
    (hrun : conn.running = false) : conn'.running = false := by
  by_cases hpc : pc = .close
  · rw [hpc] at hs
    cases userStep_moves hs with
    | close => rfl
  · exact (userStep_link hpc hs).1.trans hrun

/-- A thread that is on its way through `close` has lowered `_running`. -/
theorem closing_step {user : U → UserPc K} {u : U} {pc : UserPc K}
    (hclosing : ∀ v, (user v).closing = true → conn.running = false)
    (hs : userStep conn (user u) a = some (conn', pc)) (v : U)
    (hv : (Function.update user u pc v).closing = true) : conn'.running = false := by
  by_cases hvu : v = u
  · rw [hvu, Function.update_self] at hv
    exact (userStep_frame (hclosing u) hs).1 hv
  · rw [Function.update_of_ne hvu] at hv
    exact userStep_running hs (hclosing v hv)

theorem PingInv.user {n : ℕ} {u : U} {pc : UserPc K} (hi : PingInv s n)
    (hs : userStep s.conn (s.user u) a = some (conn', pc))
    (hlock : conn'.sendLock = true → ∃ t, Client.holdsLock
      { s with conn := conn', user := Function.update s.user u pc } t = true) :
    PingInv { s with conn := conn', user := Function.update s.user u pc } n := by
  obtain ⟨-, hstarted, hstate, hrun⟩ := userStep_frame (hi.closing u) hs
  have hsock := (userStep_closes hs).1
  refine ⟨closing_step hi.closing hs, fun h => ?_, fun h => ?_, fun again h hr => ?_, fun h => ?_,
    fun h => ?_, fun h => ?_, hlock⟩
  · exact (hrun h).2.1.trans (hi.closed (hrun h).1)
  · exact fun hnone => hi.sock (h.imp hstate id) (hsock.symm.trans hnone)
  · exact (hrun hr).2.2.trans (hi.done again h (hrun hr).1)
  · exact hstarted.trans (hi.started h)
  · exact hi.beats (hrun h).1
  · exact hi.fresh (hstarted.symm.trans h)

omit [DecidableEq U] in
theorem PingInv.listener {n n' : ℕ} {pc : ListenerPc K} (hi : PingInv s n) (hn : n' = n ∨ n' = 0)
    (hs : listenerStep s.conn s.listener a = some (conn', pc))
    (hlock : conn'.sendLock = true → ∃ t, Client.holdsLock
      { s with conn := conn', listener := pc } t = true) :
    PingInv { s with conn := conn', listener := pc } n' := by
  obtain ⟨hsock, hdone, hstarted, hmono⟩ := listenerStep_upholds hs hi.sock hi.done hi.started
  have hrun := listenerStep_running hs
  refine ⟨fun v hv => hrun.trans (hi.closing v hv), fun h => ?_, hsock, hdone, hstarted,
    fun h => hi.beats (hrun.symm.trans h), fun h => ?_, hlock⟩
  · exact (listenerStep_closed hs).trans (hi.closed (hrun.symm.trans h))
  · have hfresh : s.conn.started = false := by
      cases hst : s.conn.started with
      | false => rfl
      | true => exact absurd ((hmono hst).symm.trans h) nofun
    obtain ⟨h1, h2⟩ := hi.fresh hfresh
    exact ⟨h1, by omega⟩

omit [DecidableEq U] in
theorem PingInv.beat {n n' : ℕ} {pc : BeatPc K} (hi : PingInv s n)
    (hs : beatStep s.conn s.beat a = some (conn', pc))
    (hlock : conn'.sendLock = true → ∃ t, Client.holdsLock { s with conn := conn', beat := pc } t = true) :
    PingInv { s with conn := conn', beat := pc } n' := by
  obtain ⟨hstarted, hstate⟩ := beatStep_state hs
  obtain ⟨hrun, hsock, -⟩ := beatStep_link hs
  refine ⟨fun v hv => hrun.trans (hi.closing v hv), fun h => ?_, fun h => ?_, fun again h hr => ?_,
    fun h => hstarted.trans (hi.started h), fun h => ?_, fun h => ?_, hlock⟩
  · exact (beatStep_closed hs).trans (hi.closed (hrun.symm.trans h))
  · exact fun hnone => hi.sock (h.imp hstate.symm.trans id) (hsock.symm.trans hnone)
  · exact hstate.trans (hi.done again h (hrun.symm.trans hr))
  · by_contra halive
    have hstop := beat_ends hs (eq_false_of_ne_true halive)
    exact absurd (hstop.symm.trans (hrun.symm.trans h)) nofun
  · -- before `start` has returned, the heartbeat has not begun
    have hst : s.conn.started = false := hstarted.symm.trans h
    rw [(hi.fresh hst).1] at hs
    exact absurd ((beat_begins hs).symm.trans hst) nofun

theorem pingInv_of_reachable {p : Client U K × ℕ} (hr : (pingMachine U K).Reachable p) :
    PingInv p.1 p.2 := by
  refine hr.invariant (fun p => PingInv p.1 p.2) ?_ ?_
  · rintro ⟨s, n⟩ ⟨hs, hn⟩
    simp only at hs hn ⊢
    subst hs hn
    exact ⟨nofun, fun _ => rfl, fun h => (by rcases h with h | h <;> cases h), nofun, nofun,
      fun _ => rfl, fun _ => ⟨rfl, rfl⟩, nofun⟩
  · rintro ⟨s, n⟩ ⟨t, a⟩ ⟨s', n'⟩ - hi hs
    obtain ⟨hc, hn⟩ := pingMachine_step.1 hs
    simp only at hc hn hi ⊢
    subst hn
    have hlock := lock_step hc hi.lock
    rcases clientStep_cases hc with ⟨u, conn', pc, h, hstep, rfl⟩ | ⟨conn', pc, h, hstep, rfl⟩ |
      ⟨conn', pc, h, hstep, rfl⟩
    · cases h
      exact hi.user hstep hlock
    · cases h
      exact hi.listener (unanswered_listener s n a) hstep hlock
    · cases h
      exact hi.beat hstep hlock

/-! ## Without a connection -/

theorem SilentReach.step {p q : Client U K × ℕ} (hr : SilentReach p q) {t : Thread U}
    (hsilent : q.1.silent (t, a) = true) (hs : clientStep q.1 (t, a) = some s') :
    SilentReach p (s', q.1.unanswered q.2 (t, a)) :=
  Machine.Reach.step hr hsilent (pingMachine_step.2 ⟨hs, rfl⟩)

/-- The invariant rule of silent runs, with a case for each kind of thread. -/
theorem SilentReach.invariant {p q : Client U K × ℕ} (hr : SilentReach p q)
    (I : Client U K → ℕ → Prop) (h0 : I p.1 p.2)
    (huser : ∀ s n u a conn' pc, I s n → userStep s.conn (s.user u) a = some (conn', pc) →
      I { s with conn := conn', user := Function.update s.user u pc } n)
    (hlistener : ∀ s n a conn' pc, I s n → (∀ k, a ≠ .connect k) →
      listenerStep s.conn s.listener a = some (conn', pc) →
      ∀ n', n' = n ∨ n' = 0 → I { s with conn := conn', listener := pc } n')
    (hbeat : ∀ s n a conn' pc, I s n → beatStep s.conn s.beat a = some (conn', pc) →
      I { s with conn := conn', beat := pc } (s.unanswered n (.beat, a))) : I q.1 q.2 := by
  refine Machine.Reach.invariant hr (fun q => I q.1 q.2) ?_ ?_
  · rintro q rfl
    exact h0
  rintro ⟨s, n⟩ ⟨t, a⟩ ⟨s', n'⟩ - hi hsilent hs
  obtain ⟨hc, hn⟩ := pingMachine_step.1 hs
  simp only at hc hn hi ⊢
  subst hn
  rcases clientStep_cases hc with ⟨u, conn', pc, h, hstep, rfl⟩ | ⟨conn', pc, h, hstep, rfl⟩ |
    ⟨conn', pc, h, hstep, rfl⟩
  · cases h
    exact huser s n u a conn' pc hi hstep
  · cases h
    refine hlistener s n a conn' pc hi ?_ hstep _ (unanswered_listener s n a)
    rintro k rfl
    cases hsilent
  · cases h
    exact hbeat s n a conn' pc hi hstep

/-- The PINGs that the heartbeat may still send once `_running` is lowered. -/
def BeatPc.due : BeatPc K → ℕ
  | .sleep | .check | .next | .send _ _ => 1
  | _ => 0

omit [DecidableEq U] in
theorem unanswered_beat (s : Client U K) (n : ℕ) (a : ClientAct K) :
    s.unanswered n (.beat, a) = n ∨
      s.unanswered n (.beat, a) = n + 1 ∧ ∃ id k, s.beat = .send id (.sendall k) ∧ a = .go := by
  simp only [Client.unanswered]
  split
  · rename_i id k hpc
    split_ifs
    · exact .inr ⟨rfl, id, k, hpc, rfl⟩
    · exact .inl rfl
  · exact .inl rfl

omit [DecidableEq U] in
/-- A heartbeat that has been told to stop sends one more PING at most. -/
theorem pingDue_step {n : ℕ} {pc : BeatPc K} (hrun : s.conn.running = false)
    (hs : beatStep s.conn s.beat a = some (conn', pc)) :
    s.unanswered n (.beat, a) + pc.due ≤ n + s.beat.due := by
  rcases unanswered_beat s n a with h | ⟨h, id, k, hpc, rfl⟩
  · rw [h]
    generalize s.beat = pc₀ at hs
    cases beatStep_moves hs with
    | loop hgo => exact absurd (hrun.symm.trans hgo) nofun
    | @send id pc pc' _ ok hsend => cases pc' <;> simp [BeatPc.ofSend, BeatPc.due]
    | _ => simp [BeatPc.due]
  · rw [h]
    rw [hpc] at hs ⊢
    obtain ⟨⟨conn₁, pc₁⟩, hraw, heq⟩ := Option.map_eq_some_iff.1 hs
    cases heq
    cases rawSend_cases hraw with
    | sent => simp [BeatPc.ofSend, BeatPc.due]

theorem userStep_started {pc pc' : UserPc K} (hs : userStep conn pc a = some (conn', pc')) :
    conn'.started = conn.started := by
  cases userStep_moves hs with
  | request logout hreq => rw [requestStep_frame hreq]
  | _ => rfl

theorem closed_bounded {p q : Client U K × ℕ} (hr : SilentReach p q)
    (hrun : p.1.conn.running = false) :
    q.1.conn.running = false ∧ q.2 + q.1.beat.due ≤ p.2 + p.1.beat.due := by
  refine hr.invariant (fun s n => s.conn.running = false ∧ n + s.beat.due ≤ p.2 + p.1.beat.due)
    ⟨hrun, Nat.le_refl _⟩ ?_ ?_ ?_
  · rintro s n u a conn' pc ⟨hrun, hle⟩ hs
    exact ⟨userStep_running hs hrun, hle⟩
  · rintro s n a conn' pc ⟨hrun, hle⟩ - hs n' hn'
    refine ⟨(listenerStep_running hs).trans hrun, ?_⟩
    simp only
    omega
  · rintro s n a conn' pc ⟨hrun, hle⟩ hs
    exact ⟨(beatStep_link hs).1.trans hrun, Nat.le_trans (pingDue_step hrun hs) hle⟩

/-- The listener has a new socket, and has not set the state yet. -/
def ListenerPc.opened : ListenerPc K → Bool
  | .connect (.setSock _) _ | .connect (.setReader _) _ | .connect .setConnected _ => true
  | _ => false

omit [DecidableEq K] in
theorem not_opened {pc : ListenerPc K} (h : pc.establishing = false) : pc.opened = false := by
  cases pc with
  | connect pc again =>
    cases pc with
    | setSock | setReader | setConnected => cases h
    | _ => rfl
  | _ => rfl

/-- Without an attempt that succeeds, the listener does not come to set CONNECTED. -/
theorem opened_step {pc pc' : ListenerPc K} (hs : listenerStep conn pc a = some (conn', pc'))
    (ha : ∀ k, a ≠ .connect k) (hpc : pc.opened = false) :
    pc'.opened = false ∧ (conn'.state = .connected → conn.state = .connected) := by
  cases listenerStep_moves hs with
  | connectedRaises => cases hpc
  | retryRaises | setReconnecting | reconnectRaises => exact ⟨rfl, nofun⟩
  | connect again hc =>
    cases connectStep_moves hc with
    | attempt k => exact absurd rfl (ha k)
    | setSock | setReader | setConnected | refused => cases hpc
    | setReconnecting => exact ⟨rfl, nofun⟩
    | check | stop | fail | sleep => exact ⟨rfl, fun h => h⟩
  | handle m hm =>
    rcases handleIncoming_cases hm with ⟨rfl, rfl | rfl⟩ | ⟨id, -, -, -, rfl, rfl⟩ <;>
      exact ⟨rfl, fun h => h⟩
  | request hreq =>
    rw [requestStep_frame hreq]
    exact ⟨rfl, fun h => h⟩
  | _ => exact ⟨rfl, fun h => h⟩

/-- A `start` that has no socket does not return, unless the connection is closed. -/
theorem establishing_step {pc pc' : ListenerPc K} (hs : listenerStep conn pc a = some (conn', pc'))
    (ha : ∀ k, a ≠ .connect k) (hrun : conn.running = true) (hpc : pc.establishing = false) :
    pc'.establishing = false ∧ conn'.started = conn.started := by
  cases listenerStep_moves hs with
  | started | reconnected | connectedRaises => cases hpc
  | connect again hc =>
    cases connectStep_moves hc with
    | attempt k => exact absurd rfl (ha k)
    | setSock | setReader | setConnected | refused => cases hpc
    | stop hstop => exact absurd (hstop.symm.trans hrun) nofun
    | check | fail | setReconnecting | sleep => exact ⟨rfl, rfl⟩
  | handle m hm =>
    rcases handleIncoming_cases hm with ⟨rfl, rfl | rfl⟩ | ⟨id, -, -, -, rfl, rfl⟩ <;> exact ⟨rfl, rfl⟩
  | request hreq =>
    rw [requestStep_frame hreq]
    exact ⟨rfl, rfl⟩
  | _ => exact ⟨rfl, rfl⟩

theorem unconnected_silent {p q : Client U K × ℕ} (hp : PingInv p.1 p.2) (hr : SilentReach p q)
    (hstate : p.1.conn.state ≠ .connected) (hpc : p.1.listener.opened = false) :
    q.1.conn.state ≠ .connected := by
  refine (hr.invariant (fun s _ => (∀ u, (s.user u).closing = true → s.conn.running = false) ∧
    s.conn.state ≠ .connected ∧ s.listener.opened = false) ⟨hp.closing, hstate, hpc⟩ ?_ ?_ ?_).2.1
  · rintro s n u a conn' pc ⟨hclosing, hstate, hpc⟩ hs
    obtain ⟨-, -, h2, -⟩ := userStep_frame (hclosing u) hs
    exact ⟨closing_step hclosing hs, fun h => hstate (h2 h), hpc⟩
  · rintro s n a conn' pc ⟨hclosing, hstate, hpc⟩ ha hs - -
    obtain ⟨h1, h2⟩ := opened_step hs ha hpc
    exact ⟨fun u hu => (listenerStep_running hs).trans (hclosing u hu), fun h => hstate (h2 h), h1⟩
  · rintro s n a conn' pc ⟨hclosing, hstate, hpc⟩ hs
    refine ⟨fun u hu => (beatStep_link hs).1.trans (hclosing u hu), ?_, hpc⟩
    rw [(beatStep_state hs).2]
    exact hstate

theorem unstarted_silent {p q : Client U K × ℕ} (hp : PingInv p.1 p.2) (hr : SilentReach p q)
    (hstarted : p.1.conn.started = false) (hpc : p.1.listener.establishing = false) : q.2 = 0 := by
  obtain ⟨hoff, hzero⟩ := hp.fresh hstarted
  refine (hr.invariant (fun s n => n = 0 ∧ s.beat.due = 0 ∧ (s.conn.running = true →
    s.conn.started = false ∧ s.beat = .off ∧ s.listener.establishing = false))
    ⟨hzero, by rw [hoff]; rfl, fun _ => ⟨hstarted, hoff, hpc⟩⟩ ?_ ?_ ?_).1
  · rintro s n u a conn' pc ⟨hn, hdue, hgo⟩ hs
    refine ⟨hn, hdue, fun h => ?_⟩
    have hrun : s.conn.running = true := by
      by_contra hstop
      exact absurd ((userStep_running hs (eq_false_of_ne_true hstop)).symm.trans h) nofun
    rw [(userStep_started hs)]
    exact hgo hrun
  · rintro s n a conn' pc ⟨hn, hdue, hgo⟩ ha hs n' hn'
    refine ⟨by omega, hdue, fun h => ?_⟩
    have hrun : s.conn.running = true := (listenerStep_running hs).symm.trans h
    obtain ⟨h1, h2, h3⟩ := hgo hrun
    obtain ⟨h4, h5⟩ := establishing_step hs ha hrun h3
    exact ⟨h5.trans h1, h2, h4⟩
  · rintro s n a conn' pc ⟨rfl, hdue, hgo⟩ hs
    by_cases hrun : s.conn.running = true
    · -- it waits for `start`
      obtain ⟨h1, h2, -⟩ := hgo hrun
      rw [h2] at hs
      exact absurd ((beat_begins hs).symm.trans h1) nofun
    · have hrun : s.conn.running = false := eq_false_of_ne_true hrun
      have hle := pingDue_step (n := 0) hrun hs
      rw [hdue] at hle
      refine ⟨?_, ?_, fun h => ?_⟩
      · omega
      · simp only
        omega
      · exact absurd (((beatStep_link hs).1.trans hrun).symm.trans h) nofun

/-- Without an established connection, the PINGs stay bounded. -/
theorem bounded_of_not_established {p : Client U K × ℕ} (hp : PingInv p.1 p.2)
    (he : p.1.established = false) :
    ∃ B, ∀ q, SilentReach p q → q.1.conn.state = .connected → q.2 ≤ B := by
  refine ⟨p.2 + p.1.beat.due, fun q hq hstate => ?_⟩
  by_cases hrun : p.1.conn.running = true
  · simp only [Client.established, hrun, Bool.true_and, Bool.or_eq_false_iff, Bool.and_eq_false_iff,
      decide_eq_false_iff_not] at he
    obtain ⟨hpc, hno⟩ := he
    by_cases hstarted : p.1.conn.started = true
    · have hstate' : p.1.conn.state ≠ .connected := by
        rcases hno with hno | hno
        · exact absurd (hstarted.symm.trans hno) nofun
        · exact hno
      exact absurd hstate (unconnected_silent hp hq hstate' (not_opened hpc))
    · rw [unstarted_silent hp hq (eq_false_of_ne_true hstarted) hpc]
      exact Nat.zero_le _
  · have := (closed_bounded hq (eq_false_of_ne_true hrun)).2
    omega

/-! ## With a connection -/

/-- A connection whose heartbeat is about to send the next PING on the socket `k`. -/
structure Beating (k : K) (s : Client U K) : Prop where
  running : s.conn.running = true
  started : s.conn.started = true
  connected : s.conn.state = .connected
  sock : s.conn.sock = some k
  closed : s.conn.closed = []
  beats : s.beat.alive = true
  lock : s.conn.sendLock = false ∨ s.beat.holdsLock = true

/-- The number of steps to the next PING that goes out on `k`; what is about to go out on an earlier
socket does not count. -/
def BeatPc.ahead (k : K) : BeatPc K → ℕ
  | .off => 7
  | .loop => 6
  | .sleep => 5
  | .check => 4
  | .next => 3
  | .send _ .lock => 2
  | .send _ .pick => 1
  | .send _ (.sendall k') => if k' = k then 0 else 7
  | _ => 0

omit [DecidableEq U] in
/-- **A step of the heartbeat** brings it nearer to the next PING, or sends it. -/
theorem Beating.goes {k : K} (hb : Beating k s) (n : ℕ) :
    ∃ conn' pc, beatStep s.conn s.beat .go = some (conn', pc) ∧
      Beating k { s with conn := conn', beat := pc } ∧
      (s.unanswered n (.beat, .go) = n ∧ pc.ahead k < s.beat.ahead k ∨
        s.unanswered n (.beat, .go) = n + 1) := by
  obtain ⟨conn, user, listener, beat⟩ := s
  obtain ⟨hrun, hstarted, hstate, hsock, hclosed, halive, hlock⟩ := hb
  simp only at hrun hstarted hstate hsock hclosed halive hlock ⊢
  have next : ∀ pc : BeatPc K, pc.alive = true → beat.holdsLock = false →
      Beating k (⟨conn, user, listener, pc⟩ : Client U K) := fun pc hpc hno =>
    ⟨hrun, hstarted, hstate, hsock, hclosed, hpc, .inl (hlock.resolve_right fun h =>
      absurd (h.symm.trans hno) nofun)⟩
  cases beat with
  | ended => cases halive
  | off =>
    refine ⟨conn, .loop, by rw [beatStep, if_pos hstarted], next _ rfl rfl, .inl ⟨rfl, ?_⟩⟩
    simp [BeatPc.ahead]
  | loop =>
    refine ⟨conn, .sleep, by rw [beatStep, if_pos hrun], next _ rfl rfl, .inl ⟨rfl, ?_⟩⟩
    simp [BeatPc.ahead]
  | sleep =>
    refine ⟨conn, .check, rfl, next _ rfl rfl, .inl ⟨rfl, ?_⟩⟩
    simp [BeatPc.ahead]
  | check =>
    refine ⟨conn, .next, by rw [beatStep, if_pos hstate], next _ rfl rfl, .inl ⟨rfl, ?_⟩⟩
    simp [BeatPc.ahead]
  | next =>
    obtain ⟨-, -, -, -, -, -, hfree⟩ := next .loop rfl rfl
    refine ⟨_, _, rfl, ⟨hrun, hstarted, hstate, hsock, hclosed, rfl, .inl ?_⟩, .inl ⟨rfl, ?_⟩⟩
    · exact hfree.resolve_right nofun
    · simp [BeatPc.ahead]
  | send id pc =>
    cases pc with
    | sent | raised => cases halive
    | lock =>
      have hfree : conn.sendLock = false := hlock.resolve_right nofun
      refine ⟨{ conn with sendLock := true }, .send id .pick, ?_,
        ⟨hrun, hstarted, hstate, hsock, hclosed, rfl, .inr rfl⟩, .inl ⟨rfl, ?_⟩⟩
      · simp [beatStep, beatStep.ping, rawSend, hfree, BeatPc.ofSend]
      · simp [BeatPc.ahead]
    | pick =>
      refine ⟨conn, .send id (.sendall k), ?_, ⟨hrun, hstarted, hstate, hsock, hclosed, rfl, .inr rfl⟩,
        .inl ⟨rfl, ?_⟩⟩
      · simp [beatStep, beatStep.ping, rawSend, hsock, BeatPc.ofSend]
      · simp [BeatPc.ahead]
    | sendall k' =>
      refine ⟨{ conn.transmit k' ⟨id, actionPing, []⟩ with sendLock := false }, .loop, ?_,
        ⟨hrun, hstarted, hstate, hsock, hclosed, rfl, .inl rfl⟩, ?_⟩
      · simp [beatStep, beatStep.ping, rawSend, hclosed, BeatPc.ofSend]
      · by_cases hk : k' = k
        · exact .inr (by simp [Client.unanswered, hsock, hk])
        · exact .inl (by simp [Client.unanswered, hsock, BeatPc.ahead, hk, Ne.symm hk])

/-- The next PING goes out, with the server as silent as before. -/
theorem Beating.pings {p q : Client U K × ℕ} {k : K} (hr : SilentReach p q) (hb : Beating k q.1) :
    ∃ q', SilentReach p q' ∧ Beating k q'.1 ∧ q.2 < q'.2 := by
  refine Machine.Reach.leads (fun q' => Beating k q'.1 ∧ q.2 ≤ q'.2)
    (fun q' => Beating k q'.1 ∧ q.2 < q'.2) (fun q' => q'.1.beat.ahead k) ?_ hr ⟨hb, Nat.le_refl _⟩
  rintro ⟨s, n⟩ - ⟨hb, hle⟩
  simp only at hb hle ⊢
  obtain ⟨conn', pc, hs, hb', hn⟩ := hb.goes n
  refine ⟨(.beat, .go), ({ s with conn := conn', beat := pc }, s.unanswered n (.beat, .go)), rfl,
    pingMachine_step.2 ⟨by rw [clientStep, hs]; rfl, rfl⟩, ?_⟩
  rcases hn with ⟨hn, hlt⟩ | hn
  · exact .inr ⟨⟨hb', by omega⟩, hlt⟩
  · exact .inl ⟨hb', by simp only; omega⟩

/-- The connection is up, and its heartbeat has been started. -/
structure Up (s : Client U K) : Prop where
  running : s.conn.running = true
  started : s.conn.started = true
  connected : s.conn.state = .connected

/-- The steps to the end of `_connect_with_retry`, for a listener that has a socket. -/
def ListenerPc.untilUp : ListenerPc K → ℕ
  | .connect (.setSock _) _ => 3
  | .connect (.setReader _) _ => 2
  | .connect .setConnected _ => 1
  | _ => 0

omit [DecidableEq U] in
/-- A listener with a socket goes on, to CONNECTED and out of `start`. -/
theorem establishing_goes {n : ℕ} (hi : PingInv s n) (hrun : s.conn.running = true)
    (hpc : s.listener.establishing = true) :
    ∃ conn' pc, listenerStep s.conn s.listener .go = some (conn', pc) ∧
      (Up { s with conn := conn', listener := pc } ∨
        conn'.running = true ∧ pc.establishing = true ∧ pc.untilUp < s.listener.untilUp) := by
  obtain ⟨conn, user, listener, beat⟩ := s
  have hdone := hi.done
  have hstarted := hi.started
  simp only at hrun hpc hdone hstarted ⊢
  cases listener with
  | connect pc again =>
    cases pc with
    | check | attempt | setReconnecting | sleep => cases hpc
    | setSock k => exact ⟨_, _, rfl, .inr ⟨hrun, rfl, by simp [ListenerPc.untilUp]⟩⟩
    | setReader k => exact ⟨_, _, rfl, .inr ⟨hrun, rfl, by simp [ListenerPc.untilUp]⟩⟩
    | setConnected => exact ⟨_, _, rfl, .inr ⟨hrun, rfl, by simp [ListenerPc.untilUp]⟩⟩
    | done =>
      have hstate := hdone again rfl hrun
      cases again with
      | false => exact ⟨_, _, rfl, .inl ⟨hrun, rfl, hstate⟩⟩
      | true => exact ⟨_, _, rfl, .inl ⟨hrun, hstarted rfl, hstate⟩⟩
  | _ => cases hpc

theorem reaches_up {p : Client U K × ℕ} (hr : (pingMachine U K).Reachable p)
    (he : p.1.established = true) : ∃ q, SilentReach p q ∧ Up q.1 := by
  simp only [Client.established, Bool.and_eq_true, Bool.or_eq_true, decide_eq_true_eq] at he
  obtain ⟨hrun, hpc | ⟨hstarted, hstate⟩⟩ := he
  · refine Machine.Reach.leads
      (fun q : Client U K × ℕ => q.1.conn.running = true ∧ q.1.listener.establishing = true)
      (fun q => Up q.1) (fun q => q.1.listener.untilUp) ?_ (.init rfl) ⟨hrun, hpc⟩
    rintro ⟨s, n⟩ hq ⟨hrun, hpc⟩
    simp only at hrun hpc ⊢
    obtain ⟨conn', pc, hs, hnext⟩ := establishing_goes (pingInv_of_reachable (hr.trans hq)) hrun hpc
    refine ⟨(.listener, .go), ({ s with conn := conn', listener := pc }, s.unanswered n (.listener, .go)),
      rfl, pingMachine_step.2 ⟨by rw [clientStep, hs]; rfl, rfl⟩, ?_⟩
    exact hnext.imp id fun h => ⟨⟨h.1, h.2.1⟩, h.2.2⟩
  · exact ⟨p, .init rfl, hrun, hstarted, hstate⟩

/-- Whoever holds the send lock goes on in `_raw_send`: to `sendall`, and out of it. -/
theorem rawSend_goes {k : K} (r : Request) {pc : SendPc K} (hpc : pc.holdsLock = true)
    (hsock : conn.sock = some k) (hclosed : conn.closed = []) :
    ∃ conn' pc', rawSend r conn pc true = some (conn', pc') ∧
      (conn'.sendLock = false ∨ pc'.holdsLock = true ∧ pc.picked = none ∧ pc'.picked ≠ none) := by
  cases pc with
  | lock | sent | raised => cases hpc
  | pick => exact ⟨conn, .sendall k, by rw [rawSend, hsock], .inr ⟨rfl, rfl, nofun⟩⟩
  | sendall k' =>
    exact ⟨{ conn.transmit k' r with sendLock := false }, .sent, by simp [rawSend, hclosed], .inl rfl⟩

theorem requestStep_goes {k : K} {c : RequestCall K} (hc : c.holdsLock = true)
    (hsock : conn.sock = some k) (hclosed : conn.closed = []) :
    ∃ conn' c', requestStep conn c .go = some (conn', c') ∧ (∀ id reply, c.pc ≠ .done id reply) ∧
      (conn'.sendLock = false ∨ c'.holdsLock = true ∧ c.picked = none ∧ c'.picked ≠ none) := by
  obtain ⟨action, params, pc⟩ := c
  cases pc with
  | send id pc =>
    obtain ⟨conn', pc', hs, hnext⟩ := rawSend_goes ⟨id, action, params⟩ hc hsock hclosed
    refine ⟨conn', ⟨action, params, .ofSend id pc'⟩, ?_, nofun, hnext.imp (fun h => h) ?_⟩
    · simp only [requestStep, requestStep.send, hs, Option.map_some]
    · rintro ⟨h1, h2, h3⟩
      cases pc' with
      | pick | sendall => exact ⟨rfl, h2, h3⟩
      | lock | sent | raised => cases h1
  | _ => cases hc

omit [DecidableEq U] [DecidableEq K] in
theorem Up.frame (hup : Up s) {user : U → UserPc K} {listener : ListenerPc K} {beat : BeatPc K}
    (h : conn'.running = s.conn.running ∧ conn'.started = s.conn.started ∧ conn'.state = s.conn.state) :
    Up (⟨conn', user, listener, beat⟩ : Client U K) :=
  ⟨h.1.trans hup.running, h.2.1.trans hup.started, h.2.2.trans hup.connected⟩

theorem requestStep_up {c c' : RequestCall K} (hs : requestStep conn c a = some (conn', c')) :
    conn'.running = conn.running ∧ conn'.started = conn.started ∧ conn'.state = conn.state := by
  rw [requestStep_frame hs]
  exact ⟨rfl, rfl, rfl⟩

/-- A thread with the send lock, other than the heartbeat, goes on. -/
theorem holder_goes {t : Thread U} {k : K} (ht : s.holdsLock t = true) (hbeat : t ≠ .beat) (hup : Up s)
    (hsock : s.conn.sock = some k) (hclosed : s.conn.closed = []) :
    ∃ s', clientStep s (t, .go) = some s' ∧ Up s' ∧
      (s'.conn.sendLock = false ∨ s'.holdsLock t = true ∧ s.picked t = none ∧ s'.picked t ≠ none) := by
  cases t with
  | beat => exact absurd rfl hbeat
  | user u =>
    simp only [Client.holdsLock, Client.call?] at ht
    simp only [clientStep, Client.holdsLock, Client.picked, Client.call?]
    cases hpc : s.user u with
    | request c logout =>
      rw [hpc] at ht
      obtain ⟨conn', c', hs, hdone, hnext⟩ := requestStep_goes ht hsock hclosed
      have huser : userStep s.conn (.request c logout) .go = some (conn', .request c' logout) := by
        rw [userStep, hs]
        · rfl
        · rintro action params id reply - rfl
          exact absurd rfl (hdone id reply)
      rw [huser]
      refine ⟨_, rfl, hup.frame (requestStep_up hs), ?_⟩
      simp only [Function.update_self]
      exact hnext
    | _ =>
      rw [hpc] at ht
      cases ht
  | listener =>
    simp only [Client.holdsLock, Client.call?] at ht
    simp only [clientStep, Client.holdsLock, Client.picked, Client.call?]
    cases hpc : s.listener with
    | relogin c =>
      rw [hpc] at ht
      obtain ⟨conn', c', hs, hdone, hnext⟩ := requestStep_goes ht hsock hclosed
      have hlistener : listenerStep s.conn (.relogin c) .go = some (conn', .relogin c') := by
        rw [listenerStep, hs]
        · rfl
        · rintro action params id reply - rfl
          exact absurd rfl (hdone id reply)
      rw [hlistener]
      exact ⟨_, rfl, hup.frame (requestStep_up hs), hnext⟩
    | _ =>
      rw [hpc] at ht
      cases ht

/-- The heartbeat gets the send lock. -/
theorem reaches_beating {p : Client U K × ℕ} (hr : (pingMachine U K).Reachable p)
    (he : p.1.established = true) : ∃ q k, SilentReach p q ∧ Beating k q.1 := by
  obtain ⟨q, hq, hup⟩ := reaches_up hr he
  -- what the invariant says of a connection that is up
  have beating : ∀ q : Client U K × ℕ, SilentReach p q → Up q.1 →
      ∃ k, q.1.conn.sock = some k ∧ q.1.conn.closed = [] ∧
        (q.1.conn.sendLock = false ∨ q.1.beat.holdsLock = true → Beating k q.1) := by
    intro q hq hup
    have hi := pingInv_of_reachable (hr.trans hq)
    obtain ⟨k, hk⟩ := Option.ne_none_iff_exists'.1 (hi.sock (.inl hup.connected))
    have hclosed := hi.closed hup.running
    exact ⟨k, hk, hclosed, fun hlock => ⟨hup.running, hup.started, hup.connected, hk, hclosed,
      hi.beats hup.running, hlock⟩⟩
  by_cases hlock : q.1.conn.sendLock = false ∨ q.1.beat.holdsLock = true
  · obtain ⟨k, -, -, hb⟩ := beating q hq hup
    exact ⟨q, k, hq, hb hlock⟩
  · obtain ⟨hlocked, hbeat⟩ := not_or.1 hlock
    obtain ⟨t, ht⟩ := (pingInv_of_reachable (hr.trans hq)).lock (eq_true_of_ne_false hlocked)
    have hne : t ≠ .beat := by
      rintro rfl
      exact hbeat ht
    obtain ⟨q', hq', hup', hfree⟩ := Machine.Reach.leads
      (fun q : Client U K × ℕ => Up q.1 ∧ q.1.holdsLock t = true)
      (fun q => Up q.1 ∧ q.1.conn.sendLock = false)
      (fun q => if q.1.picked t = none then 1 else 0) (by
        rintro ⟨s, n⟩ hs ⟨hup, ht⟩
        obtain ⟨k, hk, hclosed, -⟩ := beating _ hs hup
        obtain ⟨s', hstep, hup', hnext⟩ := holder_goes ht hne hup hk hclosed
        refine ⟨(t, .go), (s', s.unanswered n (t, .go)), rfl, pingMachine_step.2 ⟨hstep, rfl⟩, ?_⟩
        refine hnext.imp (fun h => ⟨hup', h⟩) fun ⟨h1, h2, h3⟩ => ⟨⟨hup', h1⟩, ?_⟩
        simp only [if_neg h3, if_pos h2]
        exact Nat.one_pos) hq ⟨hup, ht⟩
    obtain ⟨k, -, -, hb⟩ := beating q' hq' hup'
    exact ⟨q', k, hq', hb (.inl hfree)⟩

/-- An established connection sends PINGs without end. -/
theorem unbounded_of_established {p : Client U K × ℕ} (hr : (pingMachine U K).Reachable p)
    (he : p.1.established = true) (n : ℕ) :
    ∃ q, SilentReach p q ∧ q.1.conn.state = .connected ∧ n ≤ q.2 := by
  obtain ⟨q, k, hq, hb⟩ := reaches_beating hr he
  have hall : ∃ q, SilentReach p q ∧ Beating k q.1 ∧ n ≤ q.2 := by
    induction n with
    | zero => exact ⟨q, hq, hb, Nat.zero_le _⟩
    | succ n ih =>
      obtain ⟨q, hq, hb, hle⟩ := ih
      obtain ⟨q', hq', hb', hlt⟩ := hb.pings hq
      exact ⟨q', hq', hb', by omega⟩
  obtain ⟨q, hq, hb, hle⟩ := hall
  exact ⟨q, hq, hb.connected, hle⟩

/-- **The heartbeat and a silent server.**  From a point at which the server falls silent, the number
of PINGs without an answer stays bounded in the states CONNECTED exactly if the connection is not
established there: the heartbeat sends, and nobody misses the answers. -/
theorem silence_detected_iff {p : Client U K × ℕ} (hr : (pingMachine U K).Reachable p) :
    (∃ B, ∀ q, SilentReach p q → q.1.conn.state = .connected → q.2 ≤ B) ↔ p.1.established = false := by
  constructor
  · rintro ⟨B, hB⟩
    by_contra he
    obtain ⟨q, hq, hstate, hle⟩ := unbounded_of_established hr (eq_true_of_ne_false he) (B + 1)
    have := hB q hq hstate
    omega
  · exact bounded_of_not_established (pingInv_of_reachable hr)

/-- `start` connects, and another thread closes the connection. -/
def closedRun : List (Thread Unit × ClientAct ℕ) :=
  startOn 0 ++ [(.user (), .call .close), (.user (), .go), (.user (), .go), (.user (), .go)]

theorem closedRun_bounded :
    ∃ p, (pingMachine Unit ℕ).run ({}, 0) closedRun = some p ∧
      ∃ B, ∀ q, SilentReach p q → q.1.conn.state = .connected → q.2 ≤ B := by
  have h0 : (pingMachine Unit ℕ).Reachable ({}, 0) := .init ⟨rfl, rfl⟩
  have hrun : ∃ p, (pingMachine Unit ℕ).run ({}, 0) closedRun = some p ∧ p.1.established = false :=
    ⟨_, rfl, rfl⟩
  obtain ⟨p, hp, he⟩ := hrun
  exact ⟨p, hp, (silence_detected_iff (h0.run hp)).2 he⟩

/-- `start` has connected, and then the server falls silent. -/
theorem startOn_keeps_pinging :
    ∃ p, (pingMachine Unit ℕ).run ({}, 0) (startOn 0) = some p ∧
      ¬∃ B, ∀ q, SilentReach p q → q.1.conn.state = .connected → q.2 ≤ B := by
  have h0 : (pingMachine Unit ℕ).Reachable ({}, 0) := .init ⟨rfl, rfl⟩
  have hrun : ∃ p, (pingMachine Unit ℕ).run ({}, 0) (startOn 0) = some p ∧ p.1.established = true :=
    ⟨_, rfl, rfl⟩
  obtain ⟨p, hp, he⟩ := hrun
  refine ⟨p, hp, ?_⟩
  rintro ⟨B, hB⟩
  obtain ⟨q, hq, hstate, hle⟩ := unbounded_of_established (h0.run hp) he (B + 1)
  have := hB q hq hstate
  omega

end Heartbeat

end DistRes
