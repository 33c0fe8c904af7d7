import DistRes.Correlation

/-!
# The listener's own request

`_reconnect` runs on the listener and calls `request`, whose slot nobody but the listener fills.

* `RelogInv` — while the listener is in `request`, its slot stays empty;
* `recovery_waits_iff` — the listener waits on itself exactly from where the re-LOGIN is sent, until
  it times out, and no re-LOGIN ever gets its answer.
-/

namespace DistRes

open Lib

section Recovery

variable {U K : Type} [DecidableEq U] [DecidableEq K]

/-! ## Waiting on itself -/

/-- The listener is blocked in `request`: its slot is empty, and it is the listener that fills slots. -/
def SelfWait (s : Client U K) : Prop :=
  ∃ c id, s.listener = .relogin c ∧ c.pc = .wait id ∧ (s.conn.slots id).event = false

/-- In this step, the re-LOGIN of `_reconnect` is sent. -/
def sendsRelogin (s : Client U K) (a : Thread U × ClientAct K) : Bool :=
  match a, s.listener with
  | (.listener, .go), .relogin ⟨_, _, .send _ (.sendall _)⟩ => true
  | _, _ => false

/-! ## The slot of the listener -/

variable {conn conn' : ServerConnection K} {c c' : RequestCall K} {a : ClientAct K}
  {s s' : Client U K} {h : ClientHistory U}

/-- No step of `request` sets an event. -/
theorem requestStep_event (h : requestStep conn c a = some (conn', c')) {i : ℕ}
    (hev : (conn.slots i).event = false) : (conn'.slots i).event = false := by
  obtain ⟨pc', rfl, hstep⟩ := requestStep_cases h
  obtain ⟨action, params, pc⟩ := c
  cases hstep with
  | next =>
    by_cases hi : i = conn.nextId
    · subst hi
      simp [ServerConnection.setSlot]
    · simpa [ServerConnection.setSlot, hi] using hev
  | send id ok hsend =>
    rw [hsend.frame]
    exact hev
  | insert | unavailable | wakes | expires | timedOut | fetch => exact hev

theorem userStep_event {pc pc' : UserPc K} (hs : userStep conn pc a = some (conn', pc')) {i : ℕ}
    (hev : (conn.slots i).event = false) : (conn'.slots i).event = false := by
  cases userStep_cases hs with
  | request logout hreq => exact requestStep_event hreq hev
  | call | login | returns | outside => exact hev

theorem beatStep_slots {pc pc' : BeatPc K} (hs : beatStep conn pc a = some (conn', pc')) :
    conn'.slots = conn.slots := by
  rw [beatStep_frame hs]

/-- What holds of the listener's call of `request`. -/
def RelogInv (conn : ServerConnection K) (c : RequestCall K) : Prop :=
  match c.pc with
  | .next => True
  | .insert id | .send id _ | .failed id | .wait id | .timedOut id => (conn.slots id).event = false
  | .fetch _ => False
  | .done _ reply => reply = some connectionUnavailable ∨ reply = some requestTimedOut

omit [DecidableEq K] in
theorem RelogInv.of_events (hi : RelogInv conn c)
    (hev : ∀ i, (conn.slots i).event = false → (conn'.slots i).event = false) : RelogInv conn' c := by
  obtain ⟨action, params, pc⟩ := c
  cases pc with
  | next => trivial
  | fetch id => exact hi
  | done id reply => exact hi
  | _ => exact hev _ hi

/-- The listener's own steps in `request`. -/
theorem RelogInv.step (hi : RelogInv conn c) (h : requestStep conn c a = some (conn', c')) :
    RelogInv conn' c' := by
  obtain ⟨pc', rfl, hstep⟩ := requestStep_cases h
  obtain ⟨action, params, pc⟩ := c
  cases hstep with
  | next => simp [RelogInv, ServerConnection.setSlot]
  | @send id pc₀ pc₁ _ ok hsend =>
    have hev : (conn'.slots id).event = false := by
      rw [hsend.frame]
      exact hi
    cases pc₁ <;> exact hev
  | unavailable => exact .inl rfl
  | timedOut => exact .inr rfl
  | wakes id hev => exact absurd (hev.symm.trans hi) (by decide)
  | fetch => exact hi.elim
  | insert | expires => exact hi

theorem relogin_cases {pc : ListenerPc K}
    (hs : listenerStep conn pc a = some (conn', .relogin c')) :
    c'.pc = .next ∨ ∃ c, pc = .relogin c ∧ requestStep conn c a = some (conn', c') := by
  cases listenerStep_cases hs with
  | handle m hm => cases (handleIncoming_sent hm).2
  | relogin => exact .inl rfl
  | request hreq => exact .inr ⟨_, rfl, hreq⟩
  | outside _ _ _ hb => cases hb

omit [DecidableEq K] in
theorem relogin_of_call {pc : ListenerPc K} (h : pc.call? = some c) : pc = .relogin c := by
  unfold ListenerPc.call? at h
  split at h
  · rw [Option.some.inj h]
  · cases h

/-- What holds of the listener in `request`, and of its calls that have returned. -/
def ListenerInv (s : Client U K) (h : ClientHistory U) : Prop :=
  (∀ c, s.listener = .relogin c → RelogInv s.conn c) ∧
    ∀ x ∈ h.returns, x.caller = .listener →
      x.reply = some connectionUnavailable ∨ x.reply = some requestTimedOut

omit [DecidableEq U] [DecidableEq K] in
theorem of_returning {t : Thread U} {x : Returned U} (hx : x ∈ c.returning t a) :
    x.caller = t ∧ ∃ id, c.pc = .done id x.reply := by
  unfold RequestCall.returning at hx
  split at hx
  · rename_i hpc
    rw [List.mem_singleton.1 hx]
    exact ⟨rfl, _, hpc⟩
  · cases hx

theorem listenerInv_of_reachable {p : Client U K × ClientHistory U}
    (hr : (clientMachine U K).Reachable p) : ListenerInv p.1 p.2 := by
  refine hr.invariant (fun p => ListenerInv p.1 p.2) ?_ ?_
  · rintro ⟨s, h⟩ ⟨hs, rfl⟩
    have hs : s = {} := hs
    subst hs
    exact ⟨nofun, nofun⟩
  · rintro ⟨s, h⟩ ⟨t, a⟩ ⟨s', h'⟩ hr hi hs
    obtain ⟨hclient, hh⟩ := Machine.withHistory_step.1 hs
    simp only at hh hclient hi
    subst hh
    rcases clientStep_cases hclient with ⟨u, conn', pc, rfl, hstep, rfl⟩ |
      ⟨conn', pc, rfl, hstep, rfl⟩ | ⟨conn', pc, rfl, hstep, rfl⟩
    · refine ⟨fun c hc => (hi.1 c hc).of_events fun i => userStep_event hstep, fun x hx hcall => ?_⟩
      rcases List.mem_append.1 hx with hx | hx
      · exact hi.2 x hx hcall
      · obtain ⟨c, -, hx⟩ := List.mem_flatMap.1 hx
        exact absurd ((of_returning hx).1.symm.trans hcall) nofun
    · refine ⟨fun c' hc => ?_, fun x hx hcall => ?_⟩
      · have hc : pc = .relogin c' := hc
        subst hc
        rcases relogin_cases hstep with hpc | ⟨c, hpc, hreq⟩
        · simp only [RelogInv, hpc]
        · exact (hi.1 c hpc).step hreq
      · rcases List.mem_append.1 hx with hx | hx
        · exact hi.2 x hx hcall
        · -- what returns is the reply of the call that the listener is in
          obtain ⟨c, hc, hx⟩ := List.mem_flatMap.1 hx
          have hlistener : s.listener = .relogin c := by
            have hc := Option.mem_toList.1 hc
            simp only [Client.call?] at hc
            unfold ListenerPc.call? at hc
            split at hc
            · rename_i hpc
              rw [hpc, Option.some.inj hc]
            · cases hc
          obtain ⟨-, id, hpc⟩ := of_returning hx
          have hrelog := hi.1 c hlistener
          unfold RelogInv at hrelog
          rw [hpc] at hrelog
          exact hrelog
    · refine ⟨fun c hc => (hi.1 c hc).of_events fun i hev => ?_, fun x hx hcall => ?_⟩
      · rw [beatStep_slots hstep]
        exact hev
      · rcases List.mem_append.1 hx with hx | hx
        · exact hi.2 x hx hcall
        · cases hx

/-! ## When the listener waits on itself -/

/-- `request` waits from where it has sent its message. -/
theorem wait_of_step {id : ℕ} (h : requestStep conn c a = some (conn', c')) (hw : c'.pc = .wait id) :
    a = .go ∧ ∃ k, c.pc = .send id (.sendall k) := by
  obtain ⟨pc', rfl, hstep⟩ := requestStep_cases h
  obtain ⟨action, params, pc⟩ := c
  cases hstep with
  | send id' ok hsend =>
    cases hsend with
    | sent k =>
      cases hw
      exact ⟨rfl, k, rfl⟩
    | lock | pick | unconnected | raises => cases hw
  | next | insert | unavailable | wakes | expires | timedOut | fetch => cases hw

/-- The listener is not past the send of a re-LOGIN. -/
def NotWaiting (s : Client U K) : Prop :=
  ∀ c id, s.listener = .relogin c → c.pc ≠ .wait id

theorem NotWaiting.step (hi : NotWaiting s) {a : Thread U × ClientAct K} (hok : sendsRelogin s a = false)
    (hs : clientStep s a = some s') : NotWaiting s' := by
  obtain ⟨t, a⟩ := a
  rcases clientStep_cases hs with ⟨u, conn', pc, rfl, hstep, rfl⟩ | ⟨conn', pc, rfl, hstep, rfl⟩ |
    ⟨conn', pc, rfl, hstep, rfl⟩
  · exact hi
  · intro c' id hc hw
    have hc : pc = .relogin c' := hc
    subst hc
    rcases relogin_cases hstep with hpc | ⟨c, hpc, hreq⟩
    · rw [hpc] at hw
      cases hw
    · obtain ⟨ha, k, hsend⟩ := wait_of_step hreq hw
      obtain ⟨action, params, pc⟩ := c
      subst ha hsend
      simp only [sendsRelogin, hpc] at hok
      cases hok
  · exact hi

/-- **The listener waits on itself exactly from where a re-LOGIN is sent.**  Without such a step it
never does; after one it does, until it times out; and no re-LOGIN ever gets its answer. -/
theorem recovery_waits_iff {s : Client U K} {h : ClientHistory U} :
    ((clientMachine U K).Reach (fun p a => sendsRelogin p.1 a = false) (s, h) → ¬ SelfWait s) ∧
    ((clientMachine U K).Reachable (s, h) →
      (∀ a s', clientStep s a = some s' → sendsRelogin s a = true → SelfWait s') ∧
      (SelfWait s → ∀ a s', clientStep s a = some s' → SelfWait s' ∨ a = (.listener, .timeout)) ∧
      ∀ x ∈ h.returns, x.caller = .listener →
        x.reply = some connectionUnavailable ∨ x.reply = some requestTimedOut) := by
  refine ⟨fun hr => ?_, fun hr => ⟨fun a s' hs hsend => ?_, ?_, (listenerInv_of_reachable hr).2⟩⟩
  · have hn : NotWaiting s := by
      refine hr.invariant (fun p => NotWaiting p.1) ?_ ?_
      · rintro ⟨s, h⟩ ⟨hs, -⟩
        have hs : s = {} := hs
        subst hs
        exact nofun
      · rintro ⟨s, h⟩ a ⟨s', h'⟩ - hi hok hs
        exact hi.step hok (Machine.withHistory_step.1 hs).1
    rintro ⟨c, id, hc, hpc, -⟩
    exact hn c id hc hpc
  · obtain ⟨t, a⟩ := a
    unfold sendsRelogin at hsend
    split at hsend
    · rename_i action params id k ht hl
      cases ht
      have hrelog := (listenerInv_of_reachable hr).1 _ hl
      simp only [clientStep, hl] at hs
      obtain ⟨⟨conn', pc⟩, hstep, rfl⟩ := Option.map_eq_some_iff.1 hs
      simp only [listenerStep, requestStep, requestStep.send, rawSend] at hstep
      split at hstep <;> cases hstep
      exact ⟨_, id, rfl, rfl, hrelog⟩
    · cases hsend
  · rintro ⟨c, id, hl, hpc, hev⟩ ⟨t, a⟩ s' hs
    rcases clientStep_cases hs with ⟨u, conn', pc, rfl, hstep, rfl⟩ | ⟨conn', pc, rfl, hstep, rfl⟩ |
      ⟨conn', pc, rfl, hstep, rfl⟩
    · exact .inl ⟨c, id, hl, hpc, userStep_event hstep hev⟩
    · obtain ⟨action, params, pc₀⟩ := c
      subst hpc
      rw [hl] at hstep
      cases a with
      | go => simp [listenerStep, requestStep, hev] at hstep
      | timeout => exact .inr rfl
      | _ => cases hstep
    · exact .inl ⟨c, id, hl, hpc, by rw [beatStep_slots hstep]; exact hev⟩

end Recovery

/-! ### Runs -/

/-- From `read_message`, the connection drops, and `_reconnect` connects again over `k`, up to the
check of the credentials. -/
def reconnectOn {U K : Type} (k : K) : List (Thread U × ClientAct K) :=
  (.listener, .unreadable) :: List.replicate 6 (.listener, .go) ++ (.listener, .connect k) ::
    List.replicate 5 (.listener, .go)

/-- A client logs in, and the connection drops. -/
def reloginRun {U K : Type} (u : U) (k k' : K) : List (Thread U × ClientAct K) :=
  startOn k ++ (.user u, .call (.login (lit "ENG001") (lit "Alice"))) :: List.replicate 6 (.user u, .go) ++
    (.listener, .receive (.obj (responseTo 1))) :: List.replicate 5 (.listener, .go) ++ reconnectOn k' ++
    List.replicate 7 (.listener, .go)

/-- The id that the listener waits for in its own `request`. -/
def ListenerPc.awaited {K : Type} : ListenerPc K → Option ℕ
  | .relogin ⟨_, _, .wait id⟩ => some id
  | _ => none

theorem relogin_of_awaited {K : Type} {pc : ListenerPc K} {id : ℕ} (h : pc.awaited = some id) :
    ∃ c, pc = .relogin c ∧ c.pc = .wait id := by
  unfold ListenerPc.awaited at h
  split at h
  · cases h
    exact ⟨_, rfl, rfl⟩
  · cases h

/-- The re-LOGIN is on the new socket, and the listener waits on itself; its call ends without a
RESPONSE. -/
theorem reloginRun_waits :
    ∃ s h, (clientMachine (Fin 1) (Fin 2)).Reachable (s, h) ∧ SelfWait s ∧
      (s.conn.sent 1).map Request.action = [actionLogin] ∧
      ∃ s' h', (clientMachine (Fin 1) (Fin 2)).run (s, h)
          [(.listener, .timeout), (.listener, .go), (.listener, .go)] = some (s', h') ∧
        ∃ x ∈ h'.returns, x.caller = .listener ∧ x.reply.map isResponse = some false := by
  have hs : ((clientMachine (Fin 1) (Fin 2)).run ({}, {}) (reloginRun 0 0 1)).map (fun p =>
      (p.1.listener.awaited.map fun id => (p.1.conn.slots id).event,
      (p.1.conn.sent 1).map Request.action)) = some (some false, [actionLogin]) := by decide
  obtain ⟨⟨s, h⟩, hrun, hval⟩ := Option.map_eq_some_iff.1 hs
  obtain ⟨hwait, hsent⟩ := Prod.mk.inj hval
  have hs' : (((clientMachine (Fin 1) (Fin 2)).run ({}, {}) (reloginRun 0 0 1)).bind fun p =>
      (clientMachine (Fin 1) (Fin 2)).run p
        [(.listener, .timeout), (.listener, .go), (.listener, .go)]).map (fun p =>
      p.2.returns.map fun x => (x.caller, x.reply.map isResponse)) =
      some [(.listener, some false)] := by decide
  rw [hrun, Option.bind_some] at hs'
  obtain ⟨⟨s', h'⟩, hrun', hret⟩ := Option.map_eq_some_iff.1 hs'
  obtain ⟨x, hx, hxval⟩ := List.mem_map.1
    (hret ▸ List.mem_singleton_self (Thread.listener, some false) :
      (Thread.listener, some false) ∈ h'.returns.map _)
  refine ⟨s, h, Machine.Reachable.run (s := ({}, {})) (.init ⟨rfl, rfl⟩) hrun, ?_, hsent, s', h', hrun',
    x, hx, (Prod.mk.inj hxval).1, (Prod.mk.inj hxval).2⟩
  obtain ⟨id, hid, hev⟩ := Option.map_eq_some_iff.1 hwait
  obtain ⟨c, hl, hpc⟩ := relogin_of_awaited hid
  exact ⟨c, id, hl, hpc, hev⟩

/-- Nobody is logged in when the connection drops. -/
def anonymousRun {U K : Type} (k k' : K) : List (Thread U × ClientAct K) :=
  startOn k ++ reconnectOn k' ++ List.replicate 2 (.listener, .go)

theorem anonymousRun_listens :
    ∃ s h, (clientMachine (Fin 1) (Fin 2)).runIf (fun p a => sendsRelogin p.1 a = false) ({}, {})
        (anonymousRun 0 1) = some (s, h) ∧ s.conn.reader = some 1 ∧ ¬ SelfWait s := by
  have hs : ((clientMachine (Fin 1) (Fin 2)).runIf (fun p a => sendsRelogin p.1 a = false) ({}, {})
      (anonymousRun 0 1)).map (fun p => p.1.conn.reader) = some (some 1) := by decide
  obtain ⟨⟨s, h⟩, hrun, hreader⟩ := Option.map_eq_some_iff.1 hs
  have hr : (clientMachine (Fin 1) (Fin 2)).Reach (fun p a => sendsRelogin p.1 a = false) (s, h) :=
    Machine.Reach.runIf (s := ({}, {})) (.init ⟨rfl, rfl⟩) hrun
  exact ⟨s, h, hrun, hreader, recovery_waits_iff.1 hr⟩

end DistRes
