import DistRes.Reconnection
import DistRes.Recovery

/-!
# Requests in flight when the connection is lost

`_reconnect` fails every request in flight in one sweep, and replaces the socket later on; `request`
sends on whatever socket there is.

* `Client.strands` — the steps that leave a request behind on a connection that is lost;
* `FlightInv` — but for these, a request in flight is on the connection that the listener reads, or
  the sweep is still to come;
* `in_flight_on_link` — whoever waits for something sent elsewhere has been told.
-/

namespace DistRes

open Lib

section InFlight

variable {U K : Type} [DecidableEq U] [DecidableEq K] {conn conn' : ServerConnection K}
  {pc pc' : ListenerPc K} {a : ClientAct K} {s s' : Client U K} {h : ClientHistory U}

/-! ## The steps that leave a request behind -/

/-- The sweep of `_reconnect` is still to come, or not over. -/
def ListenerPc.sweepDue : ListenerPc K → Bool
  | .recover | .reconnect | .setReconnecting | .lockPending | .sweep _ | .sweepWake _ _ => true
  | _ => false

/-- The listener is about to read, or reads. -/
def ListenerPc.toRead : ListenerPc K → Bool
  | .read | .reading _ => true
  | _ => false

/-- The listener will not read again: it is gone, or it finds the client closed before. -/
def Client.deaf (s : Client U K) : Bool :=
  s.listener.gone || !s.conn.running && !s.listener.toRead

/-- What goes out in a step of `_raw_send`, and on which socket. -/
def SendPc.transmits (r : Request) : SendPc K → ClientAct K → Option (K × Request)
  | .sendall k, .go => some (k, r)
  | _, _ => none

def RequestCall.transmits (c : RequestCall K) (a : ClientAct K) : Option (K × Request) :=
  match c.pc with
  | .send id pc => pc.transmits ⟨id, c.action, c.params⟩ a
  | _ => none

def BeatPc.transmits : BeatPc K → ClientAct K → Option (K × Request)
  | .send id pc, a => pc.transmits ⟨id, actionPing, []⟩ a
  | _, _ => none

/-- What goes out in a step. -/
def Client.transmits (s : Client U K) : Thread U × ClientAct K → Option (K × Request)
  | (.beat, a) => s.beat.transmits a
  | (t, a) => (s.call? t).bind (·.transmits a)

/-- The socket that `_raw_send` has taken. -/
def SendPc.picked : SendPc K → Option K
  | .sendall k => some k
  | _ => none

def RequestCall.picked (c : RequestCall K) : Option K :=
  match c.pc with
  | .send _ pc => pc.picked
  | _ => none

def BeatPc.picked : BeatPc K → Option K
  | .send _ pc => pc.picked
  | _ => none

/-- The socket on which a thread is about to send. -/
def Client.picked (s : Client U K) : Thread U → Option K
  | .beat => s.beat.picked
  | t => (s.call? t).bind RequestCall.picked

/-- A request in flight has been sent on `k`. -/
def ServerConnection.inFlight (conn : ServerConnection K) (k : K) : Bool :=
  (conn.sent k).any fun r => r.id ∈ conn.pending

/-- **In this step, a request in flight is left behind**: it goes out on another socket than the
listener's, and the sweep is over; or an error of the callback makes `_connect_once` give the socket up
on which it has gone out. -/
def Client.strands (s : Client U K) (x : Thread U × ClientAct K) : Bool :=
  (match s.transmits x with
    | some (k, r) => r.id ∈ s.conn.pending && s.link ≠ some k && !s.listener.sweepDue && !s.deaf
    | none => false) ||
  match x, s.listener with
  | (.listener, .fail), .connect .setConnected _ => s.link.any s.conn.inFlight && !s.deaf
  | _, _ => false

/-! ## What is in flight -/

/-- **The invariant.**  A request in flight is on the socket of the listener, or a sweep is to come. -/
def FlightInv (s : Client U K) : Prop :=
  s.deaf = true ∨ s.listener.sweepDue = true ∨
    ∀ k, ∀ r ∈ s.conn.sent k, r.id ∈ s.conn.pending → s.link = some k

/-- **What a step puts on the sockets.** -/
inductive Transmits (conn conn' : ServerConnection K) : Option (K × Request) → Prop
  | nothing : conn'.sent = conn.sent → Transmits conn conn' none
  | message (k : K) (r : Request) :
      conn'.sent = Function.update conn.sent k (conn.sent k ++ [r]) → Transmits conn conn' (some (k, r))

theorem SendStep.transmits {r : Request} {pc pc' : SendPc K} {ok : Bool}
    (hs : SendStep r conn pc ok conn' pc') :
    Transmits conn conn' (pc.transmits r (if ok then .go else .fail)) := by
  cases hs with
  | sent k => exact .message k r rfl
  | lock | pick | unconnected | raises => exact .nothing rfl

theorem requestStep_transmits {c c' : RequestCall K} (hs : requestStep conn c a = some (conn', c')) :
    Transmits conn conn' (c.transmits a) := by
  obtain ⟨pc', rfl, hstep⟩ := requestStep_cases hs
  obtain ⟨action, params, pc⟩ := c
  cases hstep with
  | send id ok hsend => exact hsend.transmits
  | next | insert | unavailable | wakes | expires | timedOut | fetch => exact .nothing rfl

theorem userStep_transmits {pc pc' : UserPc K} (hs : userStep conn pc a = some (conn', pc')) :
    Transmits conn conn' (pc.call?.bind (·.transmits a)) := by
  cases userStep_cases hs with
  | request logout hreq => exact requestStep_transmits hreq
  | outside _ _ _ _ hcall =>
    rw [hcall]
    exact .nothing rfl
  | call | login | returns => exact .nothing rfl

theorem listenerStep_transmits (hs : listenerStep conn pc a = some (conn', pc')) :
    Transmits conn conn' (pc.call?.bind (·.transmits a)) := by
  cases listenerStep_cases hs with
  | connect again hc =>
    apply Transmits.nothing
    rw [connectStep_frame hc]
  | handle m hm => exact .nothing (handleIncoming_sent hm).1
  | request hreq => exact requestStep_transmits hreq
  | outside _ _ hb =>
    rw [call?_of_bare hb]
    exact .nothing rfl
  | read | receive | crash | resolve | wake | lock | sweep | sweepWake | swept | relogin | returns =>
    exact .nothing rfl

theorem beatStep_transmits {pc pc' : BeatPc K} (hs : beatStep conn pc a = some (conn', pc')) :
    Transmits conn conn' (pc.transmits a) := by
  cases pc with
  | send id pc =>
    have hraw : ∀ ok, beatStep.ping conn id pc ok = some (conn', pc') →
        Transmits conn conn' (pc.transmits ⟨id, actionPing, []⟩ (if ok then .go else .fail)) := by
      intro ok hs
      obtain ⟨r, hr, heq⟩ := Option.map_eq_some_iff.1 hs
      cases heq
      exact (rawSend_cases hr).transmits
    cases a with
    | go => exact hraw true hs
    | fail => exact hraw false hs
    | _ => cases hs
  | _ =>
    cases beatStep_cases hs
    all_goals exact .nothing rfl

theorem clientStep_transmits {x : Thread U × ClientAct K} (hs : clientStep s x = some s') :
    Transmits s.conn s'.conn (s.transmits x) := by
  obtain ⟨t, a⟩ := x
  rcases clientStep_cases hs with ⟨u, conn', pc, rfl, hstep, rfl⟩ | ⟨conn', pc, rfl, hstep, rfl⟩ |
    ⟨conn', pc, rfl, hstep, rfl⟩
  · exact userStep_transmits hstep
  · exact listenerStep_transmits hstep
  · exact beatStep_transmits hstep

omit [DecidableEq U] [DecidableEq K] in
/-- A thread that sends something has it to send, and has taken the socket. -/
theorem of_transmits {x : Thread U × ClientAct K} {k : K} {r : Request}
    (hx : s.transmits x = some (k, r)) : s.unsent x.1 = some r ∧ s.picked x.1 = some k := by
  have send : ∀ {pc : SendPc K} {r' : Request} {a : ClientAct K}, pc.transmits r' a = some (k, r) →
      r' = r ∧ pc.picked = some k := by
    intro pc r' a ht
    unfold SendPc.transmits at ht
    split at ht <;> cases ht
    exact ⟨rfl, rfl⟩
  have call : ∀ {c : RequestCall K} {a : ClientAct K}, c.transmits a = some (k, r) →
      c.unsent = some r ∧ c.picked = some k := by
    intro c a ht
    obtain ⟨action, params, pc⟩ := c
    cases pc with
    | send id pc => exact ⟨congrArg some (send ht).1, (send ht).2⟩
    | _ => cases ht
  obtain ⟨t, a⟩ := x
  cases t with
  | user u | listener =>
    obtain ⟨c, hc, ht⟩ := Option.bind_eq_some_iff.1 hx
    exact ⟨Option.bind_eq_some_iff.2 ⟨c, hc, (call ht).1⟩,
      Option.bind_eq_some_iff.2 ⟨c, hc, (call ht).2⟩⟩
  | beat =>
    have hx : s.beat.transmits a = some (k, r) := hx
    cases hb : s.beat with
    | send id pc =>
      rw [hb] at hx
      simp only [Client.unsent, Client.picked, hb, BeatPc.unsent, BeatPc.picked, (send hx).1, (send hx).2,
        and_self]
    | _ =>
      rw [hb] at hx
      cases hx

omit [DecidableEq U] [DecidableEq K] in
/-- A request that is not registered yet is not sent. -/
theorem transmits_of_issued {x : Thread U × ClientAct K} {t : Thread U} {id : ℕ} {q : Text × Message}
    (ht : s.table.phase t = .issued id q) :
    (∃ r, s.unsent t = some r ∧ r.id = id) ∧ (x.1 = t → s.transmits x = none) := by
  have ht : phaseOf (s.call? t) = .issued id q := ht
  cases hc : s.call? t with
  | none =>
    rw [hc] at ht
    cases ht
  | some c =>
    obtain ⟨action, params, pc⟩ := c
    rw [hc] at ht
    cases pc with
    | insert i =>
      cases ht
      obtain ⟨v, a⟩ := x
      cases t with
      | user u =>
        refine ⟨⟨_, Option.bind_eq_some_iff.2 ⟨_, hc, rfl⟩, rfl⟩, ?_⟩
        rintro rfl
        simp only [Client.transmits, hc]
        rfl
      | listener =>
        refine ⟨⟨_, Option.bind_eq_some_iff.2 ⟨_, hc, rfl⟩, rfl⟩, ?_⟩
        rintro rfl
        simp only [Client.transmits, hc]
        rfl
      | beat => cases hc
    | _ => cases ht

/-- What is in flight has been in flight, or goes out in this step. -/
theorem in_flight_step {x : Thread U × ClientAct K} (hr : (clientMachine U K).Reachable (s, h))
    (hs : clientStep s x = some s') {k : K} {r : Request} (hsent : r ∈ s'.conn.sent k)
    (hp : r.id ∈ s'.conn.pending) :
    r.id ∈ s.conn.pending ∧ (r ∈ s.conn.sent k ∨ s.transmits x = some (k, r)) := by
  have hsend : r ∈ s.conn.sent k ∨ s.transmits x = some (k, r) := by
    have htrans := clientStep_transmits hs
    generalize hout : s.transmits x = out at htrans
    cases htrans with
    | nothing heq => exact .inl (heq ▸ hsent)
    | message k' r' heq =>
      rw [heq] at hsent
      by_cases hk : k = k'
      · subst hk
        rw [Function.update_self] at hsent
        rcases List.mem_append.1 hsent with hm | hm
        · exact .inl hm
        · rw [List.mem_singleton.1 hm]
          exact .inr rfl
      · rw [Function.update_of_ne hk] at hsent
        exact .inl hsent
  refine ⟨?_, hsend⟩
  have hsentInv := sentInv_of_reachable hr
  rcases clientStep_seen (h := h) hs with heq | ⟨b, hb⟩
  · have htable : s'.table = s.table := congrArg Prod.fst heq
    have hp : r.id ∈ s'.table.pending := hp
    rwa [htable] at hp
  · rcases mem_pending_of_step (Machine.withHistory_step.1 hb).1 hp with hm | ⟨t, q, ht⟩
    · exact hm
    · -- it has just been registered, and has not been sent
      obtain ⟨⟨r', hr', hid⟩, hnone⟩ := transmits_of_issued (x := x) ht
      exfalso
      rcases hsend with hm | hout
      · exact hsentInv.fresh t r' hr' k r hm hid.symm
      · rw [hnone (hsentInv.alone _ _ r r' (of_transmits hout).1 hr' hid.symm)] at hout
        cases hout

/-! ## Every run -/

theorem listenerStep_running (hs : listenerStep conn pc a = some (conn', pc')) :
    conn'.running = conn.running := by
  cases listenerStep_cases hs with
  | connect again hc => rw [connectStep_frame hc]
  | handle m hm =>
    rcases handleIncoming_cases hm with ⟨rfl, -⟩ | ⟨id, -, -, -, rfl, -⟩ <;> rfl
  | request hreq => exact (requestStep_link hreq).1
  | read | receive | crash | resolve | wake | lock | sweep | sweepWake | swept | relogin | returns
  | outside => rfl

/-- A client is closed for good. -/
theorem closed_step {x : Thread U × ClientAct K} (hs : clientStep s x = some s')
    (hrun : s.conn.running = false) : s'.conn.running = false := by
  obtain ⟨t, a⟩ := x
  rcases clientStep_cases hs with ⟨u, conn', pc, rfl, hstep, rfl⟩ | ⟨conn', pc, rfl, hstep, rfl⟩ |
    ⟨conn', pc, rfl, hstep, rfl⟩
  · by_cases hpc : s.user u = .close
    · rw [hpc] at hstep
      cases a with
      | go =>
        cases hstep
        rfl
      | _ => cases hstep
    · exact (userStep_link hpc hstep).1.trans hrun
  · exact (listenerStep_running hstep).trans hrun
  · exact (beatStep_link hstep).1.trans hrun

/-- The listener comes to `read_message` out of its loop. -/
theorem toRead_step (hs : listenerStep conn pc a = some (conn', pc')) (hpc : pc'.toRead = true) :
    pc.toRead = true ∨ conn.running = true := by
  cases listenerStep_moves hs with
  | loop hrun => exact .inr hrun
  | read => exact .inl rfl
  | handle m hm =>
    rcases handleIncoming_cases hm with ⟨-, rfl | rfl⟩ | ⟨id, -, -, -, -, rfl⟩ <;> cases hpc
  | _ => cases hpc

omit [DecidableEq U] in
theorem deaf_listener (hd : s.deaf = true)
    (hs : listenerStep s.conn s.listener a = some (conn', pc')) :
    ({ s with conn := conn', listener := pc' } : Client U K).deaf = true := by
  have hrun' := listenerStep_running hs
  simp only [Client.deaf, Bool.or_eq_true, Bool.and_eq_true, Bool.not_eq_true'] at hd ⊢
  rcases hd with hgone | ⟨hrun, hpc⟩
  · cases hl : s.listener with
    | ended | died =>
      rw [hl] at hs
      cases hs
    | _ =>
      rw [hl] at hgone
      cases hgone
  · refine .inr ⟨hrun'.trans hrun, eq_false_of_ne_true fun h => ?_⟩
    rcases toRead_step hs h with h | h
    · exact absurd (h.symm.trans hpc) nofun
    · exact absurd (h.symm.trans hrun) nofun

/-- The sweep comes, if the client is not closed before. -/
theorem sweepDue_step (hdue : pc.sweepDue = true)
    (hs : listenerStep conn pc a = some (conn', pc')) :
    pc'.sweepDue = true ∨ conn'.pending = [] ∨ pc'.gone = true ∨ conn'.running = false ∧ pc' = .loop := by
  cases listenerStep_moves hs with
  | recover | reconnect | setReconnecting | lock | sweep | sweepWake => exact .inl rfl
  | swept => exact .inr (.inl rfl)
  | reconnectRaises => exact .inr (.inr (.inl rfl))
  | recoverStopped hrun | reconnectStopped hrun => exact .inr (.inr (.inr ⟨hrun, rfl⟩))
  | _ => cases hdue

omit [DecidableEq K] in
theorem inFlight_of_mem {k : K} {r : Request} (hm : r ∈ conn.sent k) (hp : r.id ∈ conn.pending) :
    conn.inFlight k = true :=
  List.any_eq_true.2 ⟨r, hm, decide_eq_true hp⟩

omit [DecidableEq U] in
/-- What goes out in a step that strands nothing. -/
theorem link_of_transmits {x : Thread U × ClientAct K} (hok : s.strands x = false) {k : K} {r : Request}
    (hout : s.transmits x = some (k, r)) (hp : r.id ∈ s.conn.pending) (hdue : s.listener.sweepDue = false)
    (hdeaf : s.deaf = false) : s.link = some k := by
  by_contra hlink
  simp [Client.strands, hout, hp, hdue, hdeaf, hlink] at hok

theorem FlightInv.step {x : Thread U × ClientAct K} (hi : FlightInv s)
    (hr : (clientMachine U K).Reachable (s, h)) (hok : s.strands x = false)
    (hs : clientStep s x = some s') : FlightInv s' := by
  have hclosed := closed_step hs
  -- what is in flight afterwards is on the old link, if there is neither a sweep to come nor an end
  have onLink : s.deaf = false → s.listener.sweepDue = false →
      ∀ k, ∀ r ∈ s'.conn.sent k, r.id ∈ s'.conn.pending → s.link = some k ∧
        (r ∈ s.conn.sent k ∨ s.transmits x = some (k, r)) ∧ r.id ∈ s.conn.pending := by
    intro hdeaf hdue k r hm hp
    obtain ⟨hp, hor⟩ := in_flight_step hr hs hm hp
    refine ⟨?_, hor, hp⟩
    rcases hor with hm | hout
    · rcases hi with h | h | h
      · rw [hdeaf] at h
        cases h
      · rw [hdue] at h
        cases h
      · exact h k r hm hp
    · exact link_of_transmits hok hout hp hdue hdeaf
  -- a step of another thread
  have other : s'.listener = s.listener → s'.conn.reader = s.conn.reader → FlightInv s' := by
    intro hl hreader
    cases hdeaf : s.deaf with
    | true =>
      left
      simp only [Client.deaf, Bool.or_eq_true, Bool.and_eq_true, Bool.not_eq_true'] at hdeaf ⊢
      rw [hl]
      exact hdeaf.imp_right fun hd => ⟨hclosed hd.1, hd.2⟩
    | false =>
      cases hdue : s.listener.sweepDue with
      | true => exact .inr (.inl (hl ▸ hdue))
      | false =>
        refine .inr (.inr fun k r hm hp => ?_)
        rw [← (onLink hdeaf hdue k r hm hp).1]
        simp only [Client.link, ListenerPc.link, hl, hreader]
  obtain ⟨t, a⟩ := x
  rcases clientStep_cases hs with ⟨u, conn', pc, rfl, hstep, rfl⟩ | ⟨conn', pc, rfl, hstep, rfl⟩ |
    ⟨conn', pc, rfl, hstep, rfl⟩
  · exact other rfl (userStep_reader hstep)
  · cases hdeaf : s.deaf with
    | true => exact .inl (deaf_listener hdeaf hstep)
    | false =>
      cases hdue : s.listener.sweepDue with
      | true =>
        rcases sweepDue_step hdue hstep with h | h | h | ⟨hrun, rfl⟩
        · exact .inr (.inl h)
        · refine .inr (.inr fun k r _ hp => ?_)
          have hp : r.id ∈ conn'.pending := hp
          rw [h] at hp
          cases hp
        · left
          simp only [Client.deaf, h, Bool.true_or]
        · left
          simp only [Client.deaf, hrun]
          rfl
      | false =>
        have hlink := onLink hdeaf hdue
        rcases listenerStep_link hstep with h | h | h | ⟨rfl, -⟩ | ⟨rfl, again, hpc⟩
        · exact .inr (.inr fun k r hm hp => h.trans (hlink k r hm hp).1)
        · exact .inr (.inr fun k r hm hp => absurd (h.symm.trans (hlink k r hm hp).1) nofun)
        · left
          simp only [Client.deaf, h, Bool.true_or]
        · exact .inr (.inl rfl)
        · -- the socket is given up, with nothing in flight on it
          refine .inr (.inr fun k r hm hp => ?_)
          obtain ⟨hk, hor, hp'⟩ := hlink k r hm hp
          have hin : s.conn.inFlight k = true := by
            refine inFlight_of_mem (hor.resolve_right fun hout => ?_) hp'
            simp only [Client.transmits, Client.call?, ListenerPc.call?, hpc] at hout
            cases hout
          simp only [Client.strands, hpc, hk, Option.any_some, hin, hdeaf, Bool.not_false, Bool.and_true,
            Bool.or_true] at hok
          cases hok
  · exact other rfl (beatStep_reader hstep)

/-- **Nobody is left waiting on a dead connection**, in a run without a step that strands a request.
While the listener reads from `g`, what is in flight has been sent on `g`; and whoever waits for
something that has been sent on another socket has been told, by the RESPONSE or by the sweep. -/
theorem in_flight_on_link {g : K}
    (hr : (clientMachine U K).Reach (fun p x => p.1.strands x = false) (s, h))
    (hg : s.listener = .reading g) :
    (∀ k, ∀ r ∈ s.conn.sent k, r.id ∈ s.conn.pending → k = g) ∧
    ∀ t c id, s.call? t = some c → c.pc = .wait id → ∀ k, ∀ r ∈ s.conn.sent k, r.id = id → k ≠ g →
      (s.conn.slots id).event = true ∧ ∃ m, (s.conn.slots id).response = some m ∧
        (m = connectionLost ∨ (id, m) ∈ h.matched) := by
  have hi : FlightInv s := by
    refine hr.invariant (fun p => FlightInv p.1) ?_ ?_
    · rintro ⟨s, h⟩ ⟨hs, -⟩
      have hs : s = {} := hs
      subst hs
      exact .inr (.inr nofun)
    · rintro ⟨s, h⟩ x ⟨s', h'⟩ hr hi hok hs
      exact hi.step hr.reachable hok (Machine.withHistory_step.1 hs).1
  have hreader : ReaderInv s := by
    refine hr.invariant (fun p => ReaderInv p.1) ?_ ?_
    · rintro ⟨s, h⟩ ⟨hs, -⟩
      have hs : s = {} := hs
      subst hs
      exact nofun
    · rintro ⟨s, h⟩ ⟨t, a⟩ ⟨s', h'⟩ - hi - hs
      exact hi.step (Machine.withHistory_step.1 hs).1
  have honly : ∀ k, ∀ r ∈ s.conn.sent k, r.id ∈ s.conn.pending → k = g := by
    intro k r hm hp
    rcases hi with h | h | h
    · simp only [Client.deaf, hg, ListenerPc.gone, ListenerPc.toRead, Bool.not_true, Bool.and_false,
        Bool.or_self] at h
      cases h
    · rw [hg] at h
      cases h
    · have hlink := h k r hm hp
      simp only [Client.link, hg, ListenerPc.link] at hlink
      exact Option.some.inj (hlink.symm.trans (hreader g hg))
  refine ⟨honly, ?_⟩
  rintro t ⟨action, params, pc⟩ id hc rfl k r hm rfl hk
  have hcor := correlated_of_client hr.reachable
  have hphase : s.table.phase t = .waiting r.id (action, params) := by
    show phaseOf (s.call? t) = _
    rw [hc]
    rfl
  have hev : (s.conn.slots r.id).event = true := by
    rcases (attended_of_reachable (client_refines hr.reachable)).waiting t _ _ hphase with h | h | h
    · exact absurd (honly k r hm h) hk
    · have hjob : s.table.job = .idle := by
        show s.listener.job = _
        rw [hg]
        rfl
      rw [hjob] at h
      cases h
    · exact h
  refine ⟨hev, ?_⟩
  obtain ⟨m, hm⟩ := Option.ne_none_iff_exists'.1 (hcor.filled r.id hev)
  exact ⟨m, hm, hcor.valid r.id m hm⟩

end InFlight

/-! ### Runs -/

/-- The connection drops; `u` sends a READ after the sweep, and before the socket is replaced. -/
def slippedRun {U K : Type} (u : U) (k k' : K) : List (Thread U × ClientAct K) :=
  startOn k ++ (.listener, .unreadable) :: List.replicate 5 (.listener, .go) ++ sendRead u ++
    (.listener, .go) :: (.listener, .connect k') :: List.replicate 8 (.listener, .go)

/-- The listener reads the new socket, and the READ is in flight on the old one. -/
theorem slippedRun_stranded :
    ¬ ∀ p, (clientMachine (Fin 1) (Fin 2)).Reachable p → ∀ g, p.1.listener = .reading g →
      ∀ k, ∀ r ∈ p.1.conn.sent k, r.id ∈ p.1.conn.pending → k = g := by
  intro hall
  have hs : ∃ p, (clientMachine (Fin 1) (Fin 2)).run ({}, {}) (slippedRun 0 0 1) = some p ∧
      p.1.listener = .reading 1 ∧ p.1.conn.sent 0 = [⟨1, actionRead, []⟩] ∧ p.1.conn.pending = [1] :=
    ⟨_, rfl, rfl, rfl, rfl⟩
  obtain ⟨p, hrun, hg, hsent, hp⟩ := hs
  have h01 := hall p (Machine.Reachable.run (s := ({}, {})) (.init ⟨rfl, rfl⟩) hrun) 1 hg 0
    ⟨1, actionRead, []⟩ (by rw [hsent]; exact List.mem_singleton_self _)
    (by rw [hp]; exact List.mem_singleton_self _)
  cases h01

/-- `u` sends a READ, and the connection drops. -/
def droppedReadRun {U K : Type} (u : U) (k k' : K) : List (Thread U × ClientAct K) :=
  startOn k ++ sendRead u ++ (.listener, .unreadable) :: List.replicate 8 (.listener, .go) ++
    (.listener, .connect k') :: List.replicate 8 (.listener, .go)

/-- The sweep has told `u`. -/
theorem droppedReadRun_told :
    ∃ s h, (clientMachine (Fin 1) (Fin 2)).runIf (fun p x => p.1.strands x = false) ({}, {})
        (droppedReadRun 0 0 1) = some (s, h) ∧ s.listener = .reading 1 ∧
      (∀ k, ∀ r ∈ s.conn.sent k, r.id ∈ s.conn.pending → k = 1) ∧ (s.conn.slots 1).event = true := by
  have hs : ∃ s h, (clientMachine (Fin 1) (Fin 2)).runIf (fun p x => p.1.strands x = false) ({}, {})
      (droppedReadRun 0 0 1) = some (s, h) ∧ s.listener = .reading 1 ∧
        s.call? (.user 0) = some ⟨actionRead, [], .wait 1⟩ ∧
        s.conn.sent 0 = [⟨1, actionRead, []⟩] := ⟨_, _, rfl, rfl, rfl, rfl⟩
  obtain ⟨s, h, hrun, hg, hcall, hsent⟩ := hs
  have hr : (clientMachine (Fin 1) (Fin 2)).Reach (fun p x => p.1.strands x = false) (s, h) :=
    Machine.Reach.runIf (s := ({}, {})) (.init ⟨rfl, rfl⟩) hrun
  obtain ⟨honly, htold⟩ := in_flight_on_link hr hg
  refine ⟨s, h, hrun, hg, honly, ?_⟩
  exact (htold _ _ 1 hcall rfl 0 ⟨1, actionRead, []⟩
    (by rw [hsent]; exact List.mem_singleton_self _) rfl (by decide)).1

end DistRes
