import DistRes.InFlight

/-!
# Closing a connection

`close` lowers `_running`, sets the state and closes the socket, with nothing to keep the listener from
acting on a test of `_running` that it has made before.

* `FineClient` — the client with every access of `_set_state` and `close` as a step of its own;
* `CloseHistory` — who has set `_state` last, and what is reported after a `close` has returned;
* `ListenerPc.committed` — where the listener acts on an earlier test of `_running`;
* `close_final_iff` — a `close` is final exactly if the listener is not there when it returns, and has
  not been the last to set `_state`.
-/

namespace DistRes

open Lib

/-! ## The accesses of `_set_state` and `close` -/

/-- Where a thread is in `_set_state`, or in the last statement of `close`. -/
inductive AccessPc
  /-- about to compare `_state`, or to test `_sock` -/
  | test
  /-- about to assign `_state`, or to close `_sock` -/
  | act
  /-- about to call the callback -/
  | notify
  deriving DecidableEq

/-- A client with the accesses of its threads. -/
structure FineClient (U K : Type) where
  client : Client U K := {}
  access : Thread U → AccessPc := fun _ => .test

section Fine

variable {U K : Type} [DecidableEq U] [DecidableEq K]

/-- The state that the thread is setting. -/
def ListenerPc.setting : ListenerPc K → Option ConnectionState
  | .connect .setConnected _ => some .connected
  | .connect .setReconnecting _ | .setReconnecting => some .reconnecting
  | _ => none

def UserPc.setting : UserPc K → Option ConnectionState
  | .closeState => some .disconnected
  | _ => none

def Client.setting (s : Client U K) : Thread U → Option ConnectionState
  | .user u => (s.user u).setting
  | .listener => s.listener.setting
  | .beat => none

/-- The thread is in the last statement of `close`. -/
def Client.closesSock (s : Client U K) : Thread U → Bool
  | .user u => match s.user u with
    | .closeSock => true
    | _ => false
  | _ => false

/-- The thread goes on to `access`. -/
def FineClient.goto (s : FineClient U K) (t : Thread U) (access : AccessPc) : FineClient U K :=
  { s with access := Function.update s.access t access }

/-- The thread takes its step of the client; it has set `_state` already, if it sets it at all. -/
def FineClient.leave (s : FineClient U K) (t : Thread U) (a : ClientAct K) : Option (FineClient U K) :=
  (clientStep s.client (t, a)).map fun c =>
    FineClient.goto ⟨{ c with conn := c.conn.setState s.client.conn.state }, s.access⟩ t .test

/-- `self._state = state`. -/
def FineClient.assign (s : FineClient U K) (t : Thread U) (state : ConnectionState) : FineClient U K :=
  FineClient.goto { s with client.conn := s.client.conn.setState state } t .notify

def fineStep (s : FineClient U K) : Thread U × ClientAct K → Option (FineClient U K)
  | (t, a) =>
    match s.client.setting t with
    | some state =>
      match s.access t, a with
      | .test, .go => if s.client.conn.state = state then s.leave t .go else some (s.goto t .act)
      | .act, .go => some (s.assign t state)
      | .notify, a => s.leave t a
      | _, _ => none
    | none =>
      match s.client.closesSock t, s.access t, a with
      | true, .test, .go => if s.client.conn.sock.isSome then some (s.goto t .act) else s.leave t .go
      | _, _, a => s.leave t a

/-! ### Histories -/

/-- What has happened on the way to the end of a connection. -/
structure CloseHistory (U : Type) where
  /-- the thread that has been the last to set `_state`, or to find it set -/
  last : Option (Thread U) := none
  /-- a call of `close` has returned -/
  finished : Bool := false
  /-- what the callback has been called with since then -/
  late : List ConnectionState := []

/-- A `close` returns in the step of the thread. -/
def FineClient.returns (s : FineClient U K) (t : Thread U) : Bool :=
  s.client.closesSock t && (s.access t = .act || s.client.conn.sock.isNone)

/-- The history after a step of the thread. -/
def CloseHistory.next (H : CloseHistory U) (s : FineClient U K) (t : Thread U) : CloseHistory U :=
  match s.client.setting t with
  | some state =>
    match s.access t with
    | .test => if s.client.conn.state = state then { H with last := some t } else H
    | .act => { H with last := some t }
    | .notify => if H.finished then { H with late := H.late ++ [state] } else H
  | none => if s.returns t then { H with finished := true } else H

/-- The client with its accesses, and what happens on the way to its end. -/
def closingClient (U K : Type) [DecidableEq U] [DecidableEq K] :
    Machine (FineClient U K × CloseHistory U) (Thread U × ClientAct K) :=
  (⟨fun s => s = {}, fineStep⟩ : Machine (FineClient U K) (Thread U × ClientAct K)).withHistory
    ({} : CloseHistory U) fun H s x _ => H.next s x.1

/-- The listener has tested `_running`, and has an assignment of `_state` or `_sock` or a callback
ahead. -/
def ListenerPc.committed : ListenerPc K → Bool
  | .connect .attempt _ | .connect (.setSock _) _ | .connect (.setReader _) _
  | .connect .setConnected _ | .connect .setReconnecting _ | .setReconnecting => true
  | _ => false

/-- A `close` returns with the listener past its acts: it is not about to act on an earlier test of
`_running`, and has not been the last to set `_state`. -/
def ClosesCleanly (p : FineClient U K × CloseHistory U) (x : Thread U × ClientAct K) : Prop :=
  p.1.returns x.1 = true → p.1.client.listener.committed = false ∧ p.2.last ≠ some .listener

instance (p : FineClient U K × CloseHistory U) (x : Thread U × ClientAct K) :
    Decidable (ClosesCleanly p x) :=
  inferInstanceAs (Decidable (_ → _))

/-- **The end of a connection**: the state is DISCONNECTED, nothing else is reported any more, and the
socket is closed. -/
structure Final (p : FineClient U K × CloseHistory U) : Prop where
  state : p.1.client.conn.state = .disconnected
  late : ∀ st ∈ p.2.late, st = .disconnected
  sock : ∀ k, p.1.client.conn.sock = some k → k ∈ p.1.client.conn.closed

variable {conn conn' : ServerConnection K} {pc pc' : ListenerPc K} {a : ClientAct K}
  {s s' : FineClient U K} {c c' : Client U K} {H H' : CloseHistory U} {t : Thread U}

/-! ## What a step does -/

/-- Every step is one of the client, or an access before one. -/
inductive FineStep (s : FineClient U K) (H : CloseHistory U) (t : Thread U) (a : ClientAct K) :
    FineClient U K → CloseHistory U → Prop
  | notify (state : ConnectionState) (c : Client U K) : s.client.setting t = some state →
      s.access t = .notify → clientStep s.client (t, a) = some c →
      FineStep s H t a
        (FineClient.goto ⟨{ c with conn := c.conn.setState s.client.conn.state }, s.access⟩ t .test)
        (if H.finished then { H with late := H.late ++ [state] } else H)
  | confirm (c : Client U K) : s.client.setting t = some s.client.conn.state →
      clientStep s.client (t, a) = some c → FineStep s H t a
        (FineClient.goto ⟨{ c with conn := c.conn.setState s.client.conn.state }, s.access⟩ t .test)
        { H with last := some t }
  | assign (state : ConnectionState) : s.client.setting t = some state → s.access t = .act →
      FineStep s H t a (s.assign t state) { H with last := some t }
  | pause : s.client.setting t ≠ none ∨ s.client.closesSock t = true → FineStep s H t a (s.goto t .act) H
  | leave (c : Client U K) : s.client.setting t = none → clientStep s.client (t, a) = some c →
      FineStep s H t a
        (FineClient.goto ⟨{ c with conn := c.conn.setState s.client.conn.state }, s.access⟩ t .test) H
  | returns (c : Client U K) : s.client.setting t = none → s.returns t = true →
      clientStep s.client (t, a) = some c → FineStep s H t a
        (FineClient.goto ⟨{ c with conn := c.conn.setState s.client.conn.state }, s.access⟩ t .test)
        { H with finished := true }

theorem fineStep_cases (H : CloseHistory U) (hs : fineStep s (t, a) = some s') :
    FineStep s H t a s' (H.next s t) := by
  simp only [fineStep] at hs
  unfold CloseHistory.next
  cases hset : s.client.setting t with
  | some state =>
    simp only [hset] at hs ⊢
    cases hacc : s.access t with
    | test =>
      simp only [hacc] at hs ⊢
      cases a with
      | go =>
        by_cases hst : s.client.conn.state = state
        · subst hst
          rw [if_pos rfl] at hs ⊢
          obtain ⟨c, hc, rfl⟩ := Option.map_eq_some_iff.1 hs
          exact .confirm c hset hc
        · rw [if_neg hst] at hs ⊢
          cases hs
          exact .pause (.inl (by rw [hset]; nofun))
      | _ => cases hs
    | act =>
      simp only [hacc] at hs ⊢
      cases a with
      | go =>
        cases hs
        exact .assign state hset hacc
      | _ => cases hs
    | notify =>
      simp only [hacc] at hs ⊢
      obtain ⟨c, hc, rfl⟩ := Option.map_eq_some_iff.1 hs
      exact .notify state c hset hacc hc
  | none =>
    simp only [hset] at hs ⊢
    have hleave : s.leave t a = some s' →
        FineStep s H t a s' (if s.returns t = true then { H with finished := true } else H) := by
      intro hs
      obtain ⟨c, hc, rfl⟩ := Option.map_eq_some_iff.1 hs
      split
      · rename_i hret
        exact .returns c hset hret hc
      · exact .leave c hset hc
    split at hs
    · rename_i hcl hacc
      split at hs
      · rename_i hsock
        cases hs
        have hret : s.returns t = false := by
          simp [FineClient.returns, hacc, hsock]
        rw [hret]
        exact .pause (.inr hcl)
      · exact hleave hs
    · exact hleave hs

/-! ### Steps of the client -/

omit [DecidableEq K] in
theorem committed_of_setting {state : ConnectionState} (h : pc.setting = some state) :
    pc.committed = true := by
  unfold ListenerPc.setting at h
  split at h
  case h_4 => cases h
  all_goals rfl

omit [DecidableEq U] [DecidableEq K] in
/-- The thread in the last statement of `close` is one that calls methods. -/
theorem user_of_closesSock (h : c.closesSock t = true) : ∃ u, t = .user u ∧ c.user u = .closeSock := by
  cases t with
  | user u =>
    refine ⟨u, rfl, ?_⟩
    simp only [Client.closesSock] at h
    split at h
    · assumption
    · cases h
  | listener | beat => cases h

omit [DecidableEq U] [DecidableEq K] in
/-- Only `close` sets DISCONNECTED. -/
theorem disconnected_iff {state : ConnectionState} (h : c.setting t = some state) :
    state = .disconnected ↔ t ≠ .listener := by
  cases t with
  | user u =>
    have h : (c.user u).setting = some state := h
    unfold UserPc.setting at h
    split at h <;> cases h
    exact iff_of_true rfl nofun
  | listener =>
    have h : c.listener.setting = some state := h
    unfold ListenerPc.setting at h
    split at h <;> cases h
    all_goals exact iff_of_false nofun fun h => h rfl
  | beat => cases h

/-- **A closed client's listener that has come to a test of `_running` goes to its end.** -/
theorem committed_step (hrun : conn.running = false) (hpc : pc.committed = false)
    (hs : listenerStep conn pc a = some (conn', pc')) :
    pc'.committed = false ∧ conn'.sock = conn.sock := by
  cases listenerStep_moves hs with
  | connect again hc =>
    cases connectStep_moves hc with
    | check hgo => cases hrun.symm.trans hgo
    | stop | sleep => exact ⟨rfl, rfl⟩
    | _ => cases hpc
  | reconnect hgo => cases hrun.symm.trans hgo
  | handle m hm =>
    rcases handleIncoming_cases hm with ⟨rfl, rfl | rfl⟩ | ⟨id, -, -, -, rfl, rfl⟩ <;> exact ⟨rfl, rfl⟩
  | request hreq => exact ⟨rfl, (requestStep_link hreq).2.1⟩
  | _ => exact ⟨rfl, rfl⟩

theorem requestStep_closed {c c' : RequestCall K} (hs : requestStep conn c a = some (conn', c')) :
    conn'.closed = conn.closed := by
  rw [requestStep_frame hs]

/-- What a thread does on its way through `close`. -/
theorem userStep_closes {pc pc' : UserPc K} (hs : userStep conn pc a = some (conn', pc')) :
    conn'.sock = conn.sock ∧ (∀ k ∈ conn.closed, k ∈ conn'.closed) ∧
      (pc' = .closeState → conn'.running = false) ∧ (pc' = .closeSock → pc.setting ≠ none) ∧
      (pc = .closeSock → ∀ k, conn.sock = some k → k ∈ conn'.closed) := by
  cases userStep_moves hs with
  | call m => refine ⟨rfl, fun _ => id, fun h => ?_, fun h => ?_, nofun⟩ <;> cases m <;> cases h
  | request logout hreq =>
    refine ⟨(requestStep_link hreq).2.1, fun k hk => ?_, nofun, nofun, nofun⟩
    rwa [requestStep_closed hreq]
  | close => exact ⟨rfl, fun _ => id, fun _ => rfl, nofun, nofun⟩
  | closeState => exact ⟨rfl, fun _ => id, nofun, fun _ => nofun, nofun⟩
  | closeSock =>
    refine ⟨rfl, fun k hk => List.mem_append_right _ hk, nofun, nofun, fun _ k hk => ?_⟩
    apply List.mem_append_left
    rw [hk]
    exact List.mem_singleton_self k
  | login | returns | loggedOut | forget | closeRaises =>
    exact ⟨rfl, fun _ => id, nofun, nofun, nofun⟩

theorem listenerStep_closed (hs : listenerStep conn pc a = some (conn', pc')) :
    conn'.closed = conn.closed := by
  cases listenerStep_cases hs with
  | connect again hc => rw [connectStep_frame hc]
  | handle m hm => rcases handleIncoming_cases hm with ⟨rfl, -⟩ | ⟨id, -, -, -, rfl, -⟩ <;> rfl
  | request hreq => exact requestStep_closed hreq
  | read | receive | crash | resolve | wake | lock | sweep | sweepWake | swept | relogin | returns
  | outside => rfl

theorem beatStep_closed {pc pc' : BeatPc K} (hs : beatStep conn pc a = some (conn', pc')) :
    conn'.closed = conn.closed := by
  rw [beatStep_frame hs]

/-! ## Every run -/

/-- The thread is in `close`, after the first statement. -/
def UserPc.closing : UserPc K → Bool
  | .closeState | .closeSock => true
  | _ => false

/-- What holds of every client. -/
structure FineInv (s : FineClient U K) (H : CloseHistory U) : Prop where
  access : ∀ t, s.client.setting t = none → s.client.closesSock t = false → s.access t = .test
  running : ∀ u, (s.client.user u).closing = true → s.client.conn.running = false
  last : ∀ t, H.last = some t → (s.client.conn.state = .disconnected ↔ t ≠ .listener)
  set : ∀ u, s.client.closesSock (.user u) = true ∨
    s.client.setting (.user u) ≠ none ∧ s.access (.user u) = .notify → H.last ≠ none
  late : H.finished = false → H.late = []

/-- What holds after a `close` has returned as it should. -/
structure ClosedInv (s : FineClient U K) (H : CloseHistory U) : Prop where
  running : s.client.conn.running = false
  committed : s.client.listener.committed = false
  set : ∃ t, H.last = some t ∧ t ≠ .listener
  late : ∀ st ∈ H.late, st = .disconnected
  sock : ∀ k, s.client.conn.sock = some k → k ∈ s.client.conn.closed

/-- The thread `t` takes a step of the client. -/
theorem setting_of_step (hs : clientStep c (t, a) = some c') {v : Thread U} (hv : v ≠ t) :
    c'.setting v = c.setting v ∧ c'.closesSock v = c.closesSock v := by
  rcases clientStep_cases hs with ⟨u, conn', pc, rfl, hstep, rfl⟩ | ⟨conn', pc, rfl, hstep, rfl⟩ |
    ⟨conn', pc, rfl, hstep, rfl⟩
  · cases v with
    | user w =>
      have hw : w ≠ u := fun h => hv (by rw [h])
      simp only [Client.setting, Client.closesSock, Function.update_of_ne hw, and_self]
    | listener | beat => exact ⟨rfl, rfl⟩
  · cases v with
    | listener => exact absurd rfl hv
    | user w | beat => exact ⟨rfl, rfl⟩
  · exact ⟨rfl, rfl⟩

/-- A client with its state kept, after a step of `t`. -/
abbrev FineClient.after (s : FineClient U K) (t : Thread U) (c : Client U K) : FineClient U K :=
  FineClient.goto ⟨{ c with conn := c.conn.setState s.client.conn.state }, s.access⟩ t .test

omit [DecidableEq K] in
theorem setting_after (v : Thread U) :
    (s.after t c).client.setting v = c.setting v ∧
      (s.after t c).client.closesSock v = c.closesSock v := by
  cases v <;> exact ⟨rfl, rfl⟩

/-- Where a thread has come to in `close`. -/
theorem closes_of_step (hs : clientStep c (t, a) = some c') {u : U} :
    (c'.closesSock (.user u) = true → .user u = t → c.setting t ≠ none) ∧
      ((c'.user u).closing = true → c'.conn.running = false ∨ (c.user u).closing = true) := by
  rcases clientStep_cases hs with ⟨v, conn', pc, rfl, hstep, rfl⟩ | ⟨conn', pc, rfl, hstep, rfl⟩ |
    ⟨conn', pc, rfl, hstep, rfl⟩
  · obtain ⟨-, -, hrun, hsetting, -⟩ := userStep_closes hstep
    constructor
    · intro hcl heq
      cases heq
      simp only [Client.closesSock, Function.update_self] at hcl
      cases pc with
      | closeSock => exact hsetting rfl
      | _ => cases hcl
    · intro hcl
      by_cases hu : u = v
      · subst hu
        simp only [Function.update_self] at hcl
        cases pc with
        | closeState => exact .inl (hrun rfl)
        | closeSock =>
          right
          have h := hsetting rfl
          cases hpc : c.user u with
          | closeState => rfl
          | _ =>
            rw [hpc] at h
            exact absurd rfl h
        | _ => cases hcl
      · simp only [Function.update_of_ne hu] at hcl
        exact .inr hcl
  · exact ⟨fun _ h => (nomatch h), fun h => .inr h⟩
  · exact ⟨fun _ h => (nomatch h), fun h => .inr h⟩

/-- `t` takes a step of the client. -/
theorem FineInv.leaves (hi : FineInv s H) (hc : clientStep s.client (t, a) = some c)
    (hlast : H'.last = H.last ∨ H'.last = some t ∧ s.client.setting t = some s.client.conn.state)
    (hset : ∀ u, .user u = t → s.client.setting t ≠ none → H'.last ≠ none)
    (hlate : H'.finished = false → H'.late = []) :
    FineInv (s.after t c) H' := by
  refine ⟨fun v h1 h2 => ?_, fun u hu => ?_, fun v hv => ?_, fun u hu => ?_, hlate⟩
  · by_cases hv : v = t
    · rw [hv]
      exact Function.update_self ..
    · obtain ⟨h3, h4⟩ := setting_of_step hc hv
      rw [(setting_after v).1] at h1
      rw [(setting_after v).2] at h2
      show Function.update s.access t .test v = .test
      rw [Function.update_of_ne hv]
      exact hi.access v (h3 ▸ h1) (h4 ▸ h2)
  · rcases (closes_of_step hc).2 hu with h | h
    · exact h
    · have hclosed : c.conn.running = false := closed_step hc (hi.running u h)
      exact hclosed
  · rcases hlast with h | ⟨h, hsetting⟩
    · exact hi.last v (h ▸ hv)
    · obtain rfl : t = v := Option.some.inj (h.symm.trans hv)
      exact disconnected_iff hsetting
  · rw [(setting_after _).1, (setting_after _).2] at hu
    by_cases ht : .user u = t
    · rcases hu with hu | ⟨-, hacc⟩
      · exact hset u ht ((closes_of_step hc).1 hu ht)
      · have hacc : Function.update s.access t .test (.user u) = .notify := hacc
        rw [ht, Function.update_self] at hacc
        cases hacc
    · obtain ⟨h3, h4⟩ := setting_of_step hc ht
      have hold : H.last ≠ none := by
        refine hi.set u ?_
        rw [h3, h4] at hu
        refine hu.imp_right fun h => ⟨h.1, ?_⟩
        have hacc : Function.update s.access t .test (.user u) = .notify := h.2
        rwa [Function.update_of_ne ht] at hacc
      rcases hlast with h | ⟨h, -⟩
      · rwa [h]
      · rw [h]
        nofun

theorem FineInv.step (hi : FineInv s H) (hs : fineStep s (t, a) = some s') :
    FineInv s' (H.next s t) := by
  have hmove := fineStep_cases H hs
  generalize H.next s t = H' at hmove
  cases hmove with
  | notify state c hset hacc hc =>
    refine hi.leaves hc ?_ ?_ fun h => ?_
    · left
      split <;> rfl
    · rintro u rfl h
      have := hi.set u (.inr ⟨h, hacc⟩)
      split <;> exact this
    · split at h
      · rename_i hfin
        exact absurd (hfin.symm.trans h) nofun
      · rename_i hfin
        rw [if_neg hfin]
        exact hi.late h
  | confirm c hset hc => exact hi.leaves hc (.inr ⟨rfl, hset⟩) (fun _ _ _ => nofun) hi.late
  | assign state hset hacc =>
    have hsame : ∀ v, (s.assign t state).client.setting v = s.client.setting v ∧
        (s.assign t state).client.closesSock v = s.client.closesSock v := by
      intro v
      cases v <;> exact ⟨rfl, rfl⟩
    refine ⟨fun v h1 h2 => ?_, hi.running, fun v hv => ?_, fun _ _ => nofun, hi.late⟩
    · rw [(hsame v).1] at h1
      rw [(hsame v).2] at h2
      have hv : v ≠ t := by
        rintro rfl
        rw [hset] at h1
        cases h1
      show Function.update s.access t .notify v = .test
      rw [Function.update_of_ne hv]
      exact hi.access v h1 h2
    · obtain rfl : t = v := Option.some.inj hv
      exact disconnected_iff hset
  | pause hor =>
    refine ⟨fun v h1 h2 => ?_, hi.running, hi.last,
      fun u hu => hi.set u (hu.imp_right fun h => ?_), hi.late⟩
    · have hv : v ≠ t := by
        rintro rfl
        rcases hor with h | h
        · exact h h1
        · exact absurd (h.symm.trans h2) nofun
      show Function.update s.access t .act v = .test
      rw [Function.update_of_ne hv]
      exact hi.access v h1 h2
    · refine ⟨h.1, ?_⟩
      have hacc : Function.update s.access t .act (.user u) = .notify := h.2
      by_cases ht : .user u = t
      · rw [ht, Function.update_self] at hacc
        cases hacc
      · rwa [Function.update_of_ne ht] at hacc
  | leave c hset hc => exact hi.leaves hc (.inl rfl) (fun _ _ h => absurd hset h) hi.late
  | returns c hset hret hc => exact hi.leaves hc (.inl rfl) (fun _ _ h => absurd hset h) nofun

/-- A step of a client that is closed, with its listener past the last test of `_running`. -/
theorem closed_of_step (hs : clientStep c (t, a) = some c') (hrun : c.conn.running = false)
    (hpc : c.listener.committed = false) :
    c'.listener.committed = false ∧ c'.conn.sock = c.conn.sock ∧
      ∀ k ∈ c.conn.closed, k ∈ c'.conn.closed := by
  rcases clientStep_cases hs with ⟨u, conn', pc, rfl, hstep, rfl⟩ | ⟨conn', pc, rfl, hstep, rfl⟩ |
    ⟨conn', pc, rfl, hstep, rfl⟩
  · obtain ⟨hsock, hclosed, -⟩ := userStep_closes hstep
    exact ⟨hpc, hsock, hclosed⟩
  · obtain ⟨hpc', hsock⟩ := committed_step hrun hpc hstep
    refine ⟨hpc', hsock, fun k hk => ?_⟩
    rwa [listenerStep_closed hstep]
  · refine ⟨hpc, (beatStep_link hstep).2.1, fun k hk => ?_⟩
    rwa [beatStep_closed hstep]

theorem ClosedInv.leaves (hi : ClosedInv s H) (hc : clientStep s.client (t, a) = some c)
    (hset : ∃ t, H'.last = some t ∧ t ≠ .listener) (hlate : ∀ st ∈ H'.late, st = .disconnected) :
    ClosedInv (s.after t c) H' := by
  obtain ⟨hpc, hsock, hclosed⟩ := closed_of_step hc hi.running hi.committed
  have hrun : c.conn.running = false := closed_step hc hi.running
  exact ⟨hrun, hpc, hset, hlate, fun k hk => hclosed k (hi.sock k (hsock.symm.trans hk))⟩

omit [DecidableEq U] [DecidableEq K] in
/-- The listener sets nothing any more. -/
theorem ClosedInv.not_listener (hi : ClosedInv s H) {state : ConnectionState}
    (hset : s.client.setting t = some state) : t ≠ .listener := by
  rintro rfl
  have hpc : s.client.listener.committed = true := committed_of_setting hset
  rw [hi.committed] at hpc
  cases hpc

theorem ClosedInv.step (hi : ClosedInv s H) (hs : fineStep s (t, a) = some s') :
    ClosedInv s' (H.next s t) := by
  have hmove := fineStep_cases H hs
  generalize H.next s t = H' at hmove
  cases hmove with
  | notify state c hset hacc hc =>
    have hstate : state = .disconnected := (disconnected_iff hset).2 (hi.not_listener hset)
    split
    · refine hi.leaves hc hi.set fun st hst => ?_
      rcases List.mem_append.1 hst with hst | hst
      · exact hi.late st hst
      · exact (List.mem_singleton.1 hst).trans hstate
    · exact hi.leaves hc hi.set hi.late
  | confirm c hset hc => exact hi.leaves hc ⟨t, rfl, hi.not_listener hset⟩ hi.late
  | assign state hset hacc =>
    exact ⟨hi.running, hi.committed, ⟨t, rfl, hi.not_listener hset⟩, hi.late, hi.sock⟩
  | pause => exact ⟨hi.running, hi.committed, hi.set, hi.late, hi.sock⟩
  | leave c hset hc => exact hi.leaves hc hi.set hi.late
  | returns c hset hret hc => exact hi.leaves hc hi.set hi.late

/-- A `close` returns as it should. -/
theorem closedInv_of_returns (hi : FineInv s H) (hold : H.finished = true → ClosedInv s H)
    (hret : s.returns t = true) (hpc : s.client.listener.committed = false)
    (hlast : H.last ≠ some .listener) (hc : clientStep s.client (t, a) = some c) :
    ClosedInv (s.after t c) { H with finished := true } := by
  have hcl := (Bool.and_eq_true_iff.1 hret).1
  obtain ⟨u, rfl, hu⟩ := user_of_closesSock hcl
  have hrun := hi.running u (by rw [hu]; rfl)
  have hlate : ∀ st ∈ H.late, st = .disconnected := by
    cases hfin : H.finished with
    | true => exact (hold hfin).late
    | false =>
      rw [hi.late hfin]
      exact nofun
  obtain ⟨v, hv⟩ := Option.ne_none_iff_exists'.1 (hi.set u (.inl hcl))
  obtain ⟨hpc', hsock, -⟩ := closed_of_step hc hrun hpc
  have hrun' : c.conn.running = false := closed_step hc hrun
  refine ⟨hrun', hpc', ⟨v, hv, fun h => hlast (h ▸ hv)⟩, hlate, fun k hk => ?_⟩
  obtain ⟨⟨conn', pc⟩, hstep, rfl⟩ := Option.map_eq_some_iff.1 hc
  exact (userStep_closes hstep).2.2.2.2 hu k (hsock.symm.trans hk)

variable {p q : FineClient U K × CloseHistory U}

theorem fineInv_of_reachable (hr : (closingClient U K).Reachable p) : FineInv p.1 p.2 := by
  refine hr.invariant (fun p => FineInv p.1 p.2) ?_ ?_
  · rintro ⟨s, H⟩ ⟨hs, hH⟩
    have hs : s = {} := hs
    simp only at hH
    subst hs hH
    refine ⟨fun _ _ _ => rfl, nofun, nofun, fun u hu => ?_, fun _ => rfl⟩
    rcases hu with h | ⟨h, -⟩
    · cases h
    · exact absurd rfl h
  · rintro p ⟨t, a⟩ q - hi hs
    obtain ⟨hs, hH⟩ := Machine.withHistory_step.1 hs
    rw [hH]
    exact hi.step hs

theorem closedInv_of_reach (hr : (closingClient U K).Reach ClosesCleanly p)
    (hfin : p.2.finished = true) : ClosedInv p.1 p.2 := by
  refine hr.invariant (fun p => p.2.finished = true → ClosedInv p.1 p.2) ?_ ?_ hfin
  · rintro ⟨s, H⟩ ⟨-, hH⟩ hfin
    simp only at hH hfin
    rw [hH] at hfin
    cases hfin
  · rintro ⟨s, H⟩ ⟨t, a⟩ ⟨s', H'⟩ hr hi hok hs hfin
    have hstep : fineStep s (t, a) = some s' := (Machine.withHistory_step.1 hs).1
    have hH : H' = H.next s t := (Machine.withHistory_step.1 hs).2
    subst hH
    cases hold : H.finished with
    | true => exact (hi hold).step hstep
    | false =>
      -- only a return of `close` finishes it
      have hmove := fineStep_cases H hstep
      have hfin : (H.next s t).finished = true := hfin
      generalize H.next s t = H' at hmove hfin
      cases hmove with
      | returns c hset hret hc =>
        obtain ⟨hpc, hlast⟩ := hok hret
        exact closedInv_of_returns (fineInv_of_reachable hr.reachable) hi hret hpc hlast hc
      | notify state c hset hacc hc =>
        rw [hold, if_neg nofun] at hfin
        exact absurd (hold.symm.trans hfin) nofun
      | confirm | assign | pause | leave => exact absurd (hold.symm.trans hfin) nofun

omit [DecidableEq U] [DecidableEq K] in
theorem ClosedInv.final (hi : ClosedInv p.1 p.2) (hfine : FineInv p.1 p.2) : Final p := by
  obtain ⟨t, hlast, ht⟩ := hi.set
  exact ⟨(hfine.last t hlast).2 ht, hi.late, hi.sock⟩

/-! ## A close that returns too early -/

/-- From here, a state is reached in which the end is not final. -/
def Breaks (p : FineClient U K × CloseHistory U) : Prop :=
  ∃ q, ((closingClient U K).startingAt p).Reachable q ∧ ¬ Final q

theorem Breaks.of_not_final (h : ¬ Final p) : Breaks p :=
  ⟨p, .init rfl, h⟩

theorem Breaks.of_step {x : Thread U × ClientAct K} (hs : (closingClient U K).step p x = some q)
    (h : Breaks q) : Breaks p := by
  obtain ⟨r, hr, hfinal⟩ := h
  have hq : ((closingClient U K).startingAt p).Reachable q :=
    Machine.Reachable.step (.init rfl) hs
  exact ⟨r, hq.trans hr, hfinal⟩

/-- The listener takes the step `a` of the client. -/
theorem Breaks.of_leave {c : Client U K} (hset : s.client.setting .listener = none)
    (hc : clientStep s.client (.listener, a) = some c) (h : Breaks (s.after .listener c, H)) :
    Breaks (s, H) := by
  refine h.of_step (x := (.listener, a)) (Machine.withHistory_step.2 ⟨?_, ?_⟩)
  · show fineStep s (.listener, a) = _
    simp only [fineStep, hset, Client.closesSock, FineClient.leave, hc]
    rfl
  · show H = H.next s .listener
    simp only [CloseHistory.next, hset, FineClient.returns, Client.closesSock, Bool.false_and,
      Bool.false_eq_true, if_false]

/-- The listener is about to set `_state`, or to report what it has set. -/
theorem breaks_of_setting {state : ConnectionState} (hfin : H.finished = true)
    (hset : s.client.setting .listener = some state) : Breaks (s, H) := by
  have hne : state ≠ .disconnected := fun h => (disconnected_iff hset).1 h rfl
  have act : ∀ s : FineClient U K, s.client.setting .listener = some state → s.access .listener = .act →
      Breaks (s, H) := by
    intro s hset hacc
    have hstep : (closingClient U K).step (s, H) (.listener, .go) =
        some (s.assign .listener state, { H with last := some .listener }) := by
      refine Machine.withHistory_step.2 ⟨?_, ?_⟩
      · show fineStep s (.listener, .go) = _
        simp only [fineStep, hset, hacc]
      · show _ = H.next s .listener
        simp only [CloseHistory.next, hset, hacc]
    exact .of_step hstep (.of_not_final fun h => hne h.state)
  cases hacc : s.access .listener with
  | act => exact act s hset hacc
  | test =>
    by_cases hst : s.client.conn.state = .disconnected
    · have hstep : (closingClient U K).step (s, H) (.listener, .go) =
          some (s.goto .listener .act, H) := by
        have hst' : s.client.conn.state ≠ state := fun h => hne (h.symm.trans hst)
        refine Machine.withHistory_step.2 ⟨?_, ?_⟩
        · show fineStep s (.listener, .go) = _
          simp only [fineStep, hset, hacc, if_neg hst']
        · show _ = H.next s .listener
          simp only [CloseHistory.next, hset, hacc, if_neg hst']
      refine .of_step hstep (act _ hset ?_)
      show Function.update s.access .listener .act .listener = .act
      exact Function.update_self ..
    · exact .of_not_final fun h => hst h.state
  | notify =>
    obtain ⟨c, hc⟩ : ∃ c, clientStep s.client (.listener, .go) = some c := by
      have hset : s.client.listener.setting = some state := hset
      unfold ListenerPc.setting at hset
      split at hset
      case h_4 => cases hset
      all_goals
        rename_i hl
        simp only [clientStep, hl]
        exact ⟨_, rfl⟩
    have hstep : (closingClient U K).step (s, H) (.listener, .go) =
        some (s.after .listener c, { H with late := H.late ++ [state] }) := by
      refine Machine.withHistory_step.2 ⟨?_, ?_⟩
      · show fineStep s (.listener, .go) = _
        simp only [fineStep, hset, hacc, FineClient.leave, hc]
        rfl
      · show _ = H.next s .listener
        simp only [CloseHistory.next, hset, hacc, hfin, if_true]
    refine .of_step hstep (.of_not_final fun h => hne (h.late state ?_))
    exact List.mem_append_right _ (List.mem_singleton_self state)

/-- **The listener acts on an earlier test** after `close` has returned. -/
theorem breaks_of_committed (hfin : H.finished = true) (hpc : s.client.listener.committed = true) :
    Breaks (s, H) := by
  have connected : ∀ (s : FineClient U K) (k : K) (again : Bool),
      s.client.listener = .connect (.setReader k) again → Breaks (s, H) := by
    intro s k again hl
    refine .of_leave (a := .go) (by simp only [Client.setting, hl]; rfl)
      (by simp only [clientStep, hl]; rfl) ?_
    exact breaks_of_setting hfin rfl
  cases hl : s.client.listener with
  | setReconnecting => exact breaks_of_setting hfin (by simp only [Client.setting, hl]; rfl)
  | connect pc again =>
    cases pc with
    | attempt =>
      refine .of_leave (a := .fail) (by simp only [Client.setting, hl]; rfl)
        (by simp only [clientStep, hl]; rfl) ?_
      exact breaks_of_setting hfin rfl
    | setSock k =>
      refine .of_leave (a := .go) (by simp only [Client.setting, hl]; rfl)
        (by simp only [clientStep, hl]; rfl) ?_
      exact connected _ k again rfl
    | setReader k => exact connected s k again hl
    | setConnected => exact breaks_of_setting hfin (by simp only [Client.setting, hl]; rfl)
    | setReconnecting => exact breaks_of_setting hfin (by simp only [Client.setting, hl]; rfl)
    | check | sleep | done =>
      rw [hl] at hpc
      cases hpc
  | _ =>
    rw [hl] at hpc
    cases hpc

/-! ## Exactly the clean returns are final -/

/-- The step in which a `close` returns. -/
theorem step_of_returns (hret : s.returns t = true) (hs : fineStep s (t, a) = some s') :
    H.next s t = { H with finished := true } ∧ s'.client.conn.state = s.client.conn.state ∧
      s'.client.listener = s.client.listener := by
  obtain ⟨hcl, hacc⟩ := Bool.and_eq_true_iff.1 hret
  obtain ⟨u, rfl, hu⟩ := user_of_closesSock hcl
  have hset : s.client.setting (.user u) = none := by
    simp only [Client.setting, hu]
    rfl
  have hnext : H.next s (.user u) = { H with finished := true } := by
    simp only [CloseHistory.next, hset, hret, if_true]
  refine ⟨hnext, ?_⟩
  have hleave : s.leave (.user u) a = some s' := by
    simp only [fineStep, hset, hcl] at hs
    cases htest : s.access (.user u) with
    | test =>
      rw [htest] at hs hacc
      have hsock : s.client.conn.sock = none := by simpa using hacc
      cases a <;> simpa [hsock] using hs
    | act | notify => cases a <;> simpa only [htest] using hs
  obtain ⟨c, hc, rfl⟩ := Option.map_eq_some_iff.1 hleave
  refine ⟨rfl, ?_⟩
  obtain ⟨r, -, rfl⟩ := Option.map_eq_some_iff.1 hc
  rfl

/-- **A close is final exactly if it returns cleanly.**  When every call of `close` returns cleanly, the
state is DISCONNECTED from the first return on, nothing else is reported, and the socket stays closed;
and all that follows a return is so only if it is clean. -/
theorem close_final_iff (hr : (closingClient U K).Reach ClosesCleanly p) :
    (p.2.finished = true → Final p) ∧
      ∀ x q, (closingClient U K).step p x = some q → p.1.returns x.1 = true →
        ((∀ q', ((closingClient U K).startingAt q).Reachable q' → Final q') ↔ ClosesCleanly p x) := by
  have hfine := fineInv_of_reachable hr.reachable
  refine ⟨fun hfin => (closedInv_of_reach hr hfin).final hfine, ?_⟩
  rintro ⟨t, a⟩ q hs hret
  obtain ⟨hstep, hH⟩ := Machine.withHistory_step.1 hs
  obtain ⟨hnext, hstate, hlistener⟩ := step_of_returns (H := p.2) hret hstep
  have hfin : q.2.finished = true := by
    rw [hH, hnext]
  constructor
  · -- what is left of an unclean return ends badly
    intro hall _
    by_contra hdirty
    have hq : Final q := hall q (.init rfl)
    cases hpc : p.1.client.listener.committed with
    | true =>
      have hpc' : q.1.client.listener.committed = true := hlistener ▸ hpc
      obtain ⟨q', hq', hnot⟩ := breaks_of_committed hfin hpc'
      exact hnot (hall q' hq')
    | false =>
      refine hdirty ⟨hpc, fun hlast => ?_⟩
      have hdis : p.1.client.conn.state = .disconnected := hstate.symm.trans hq.state
      exact (hfine.last .listener hlast).1 hdis rfl
  · intro hclean q' hq'
    have hq : (closingClient U K).Reach ClosesCleanly q := hr.step hclean hs
    have hinv : ClosedInv q'.1 q'.2 := by
      refine hq'.invariant (fun q => ClosedInv q.1 q.2) ?_ ?_
      · rintro q' rfl
        exact closedInv_of_reach hq hfin
      · rintro q ⟨t, a⟩ q' - hi hs
        have hs : (closingClient U K).step q (t, a) = some q' := hs
        obtain ⟨hs, hH⟩ := Machine.withHistory_step.1 hs
        rw [hH]
        exact hi.step hs
    exact hinv.final (fineInv_of_reachable (hq.reachable.trans hq'))

end Fine

/-! ## Runs -/

/-- The first state of a client, with nothing on the way to its end. -/
def closingStart {U K : Type} : FineClient U K × CloseHistory U := ({}, {})

/-- The listener connects, and waits for a message. -/
def fineStartOn {U K : Type} (k : K) : List (Thread U × ClientAct K) :=
  startOn k ++ List.replicate 2 (.listener, .go)

/-- `u` calls `close`, up to its last access. -/
def fineClose {U K : Type} (u : U) : List (Thread U × ClientAct K) :=
  (.user u, .call .close) :: List.replicate 5 (.user u, .go)

/-- The connection is lost, and `u` calls `close` with the listener about to connect again. -/
def reopenedRun {U K : Type} (u : U) (k : K) : List (Thread U × ClientAct K) :=
  fineStartOn k ++ (.listener, .unreadable) :: List.replicate 8 (.listener, .go) ++ fineClose u

/-- The client is CONNECTED again over an open socket, and says so. -/
theorem reopenedRun_connected :
    ¬ ∀ p, (closingClient (Fin 1) (Fin 2)).Reachable p → p.2.finished = true → Final p := by
  intro hall
  have hs : ∃ p, (closingClient (Fin 1) (Fin 2)).run closingStart
      (reopenedRun 0 0 ++ [(.user 0, .go), (.listener, .connect 1)] ++
        List.replicate 5 (.listener, .go)) = some p ∧
      p.2.finished = true ∧ p.1.client.conn.state = .connected ∧ p.2.late = [.connected] ∧
      p.1.client.conn.sock = some 1 ∧ p.1.client.conn.closed = [0] := ⟨_, rfl, rfl, rfl, rfl, rfl, rfl⟩
  obtain ⟨p, hrun, hfin, hstate, -⟩ := hs
  have hr : (closingClient (Fin 1) (Fin 2)).Reachable p :=
    Machine.Reachable.run (s := closingStart) (.init ⟨rfl, rfl⟩) hrun
  have hdis := (hall p hr hfin).state
  rw [hstate] at hdis
  cases hdis

/-- A `close` with the listener in `read_message` is final; and the return that is not clean is the
step after which the end is not. -/
theorem fineClose_final :
    (∃ p, (closingClient (Fin 1) (Fin 2)).runIf ClosesCleanly closingStart
        (fineStartOn 0 ++ fineClose 0 ++ (.user 0, .go) :: (.listener, .unreadable) ::
          List.replicate 2 (.listener, .go)) = some p ∧
      p.2.finished = true ∧ Final p) ∧
    ∃ p q, (closingClient (Fin 1) (Fin 2)).runIf ClosesCleanly closingStart (reopenedRun 0 0) = some p ∧
      (closingClient (Fin 1) (Fin 2)).step p (.user 0, .go) = some q ∧
      ((∀ q', ((closingClient (Fin 1) (Fin 2)).startingAt q).Reachable q' → Final q') ↔
        ClosesCleanly p (.user 0, .go)) := by
  have hp : ∃ p, (closingClient (Fin 1) (Fin 2)).runIf ClosesCleanly closingStart
      (fineStartOn 0 ++ fineClose 0 ++ (.user 0, .go) :: (.listener, .unreadable) ::
        List.replicate 2 (.listener, .go)) = some p ∧ p.2.finished = true := ⟨_, rfl, rfl⟩
  have hq : ∃ p q, (closingClient (Fin 1) (Fin 2)).runIf ClosesCleanly closingStart
      (reopenedRun 0 0) = some p ∧ (closingClient (Fin 1) (Fin 2)).step p (.user 0, .go) = some q ∧
      p.1.returns (.user 0) = true := ⟨_, _, rfl, rfl, rfl⟩
  have reach : ∀ {as p}, (closingClient (Fin 1) (Fin 2)).runIf ClosesCleanly closingStart as = some p →
      (closingClient (Fin 1) (Fin 2)).Reach ClosesCleanly p := fun hrun =>
    Machine.Reach.runIf (s := closingStart) (.init ⟨rfl, rfl⟩) hrun
  obtain ⟨p, hrun, hfin⟩ := hp
  obtain ⟨p', q, hrun', hstep, hret⟩ := hq
  exact ⟨⟨p, hrun, hfin, (close_final_iff (reach hrun)).1 hfin⟩, p', q, hrun', hstep,
    (close_final_iff (reach hrun')).2 _ q hstep hret⟩

end DistRes
