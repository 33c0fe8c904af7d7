import DistRes.InFlight
import DistRes.Credentials
import DistRes.Survival

/-!
# Sessions that `_reconnect` restores

`_reconnect` publishes the new socket first and sends its re-LOGIN afterwards, and `read` and `write`
send on whatever socket there is.

* `Restoration` — the sockets that `_reconnect` has opened for a client that is logged in, and the
  re-LOGINs that have gone out;
* `Client.overtakes` — the steps in which a READ or WRITE goes out before the re-LOGIN;
* `restored_before_use` — but for these, the re-LOGIN comes first.
-/

namespace DistRes

open Lib

/-! ## The history -/

structure Restoration (K : Type) where
  /-- the sockets that have been `_sock` -/
  assigned : List K := []
  /-- those of them that `_reconnect` has opened for a client that was logged in -/
  opened : K → Bool := fun _ => false
  /-- those on which the re-LOGIN has not gone out, and will not -/
  failed : K → Bool := fun _ => false
  /-- the ids of the re-LOGINs that have gone out -/
  relogins : List ℕ := []

section Restoration

variable {U K : Type} [DecidableEq U] [DecidableEq K]

/-- The history after a step of the client, which has been answered OK or not. -/
def Restoration.next (R : Restoration K) (s : Client U K) (answered : Bool)
    (x : Thread U × ClientAct K) : Restoration K :=
  match x, s.listener with
  | (.listener, .go), .connect (.setSock k) again =>
    { R with assigned := k :: R.assigned, opened := Function.update R.opened k (again && answered) }
  | (.listener, .fail), .connect .setConnected true | (.listener, .crash), .connect .setConnected true =>
    { R with failed := fun k => R.failed k || s.conn.sock = some k }
  | (.listener, .fail), .relogin ⟨_, _, .send _ (.sendall k)⟩ =>
    { R with failed := Function.update R.failed k true }
  | (.listener, .go), .relogin ⟨_, _, .send id (.sendall _)⟩ =>
    { R with relogins := R.relogins ++ [id] }
  | _, _ => R

/-- The client with the sessions that are restored. -/
def restoringClient (U K : Type) [DecidableEq U] [DecidableEq K] :=
  (replayingClient U K).withHistory ({} : Restoration K) fun R p x _ =>
    R.next p.1.1 p.2.answered.isSome x

/-- Nobody logs out, and nobody closes the connection. -/
def staysLoggedIn : Thread U × ClientAct K → Bool
  | (_, .call .logout) | (_, .call .close) => false
  | _ => true

/-- A connection attempt gives a new socket. -/
def Restoration.isNew (R : Restoration K) : Thread U × ClientAct K → Bool
  | (_, .connect k) => k ∉ R.assigned
  | _ => true

def isResource (r : Request) : Bool := r.action = actionRead || r.action = actionWrite

/-- The listener is in `_reconnect`, has assigned `_sock`, and has not sent its re-LOGIN. -/
def ListenerPc.entering : ListenerPc K → Bool
  | .connect (.setReader _) again | .connect .setConnected again | .connect .done again => again
  | .checkRunning | .checkCredentials | .unpack => true
  | .relogin c => c.pc.starting
  | _ => false

/-- The listener has to send its re-LOGIN on `k`. -/
def Client.enters (s : Client U K) (k : K) : Bool := s.conn.sock = some k && s.listener.entering

/-- **In this step, a READ or WRITE goes out on a new socket ahead of the re-LOGIN**: the listener has
assigned the socket and has yet to send the re-LOGIN, or has not been able to. -/
def Client.overtakes (s : Client U K) (R : Restoration K) (x : Thread U × ClientAct K) : Bool :=
  match s.transmits x with
  | some (k, r) => isResource r && R.opened k && (s.enters k || R.failed k)
  | none => false

/-- The message comes after a re-LOGIN, or needs none. -/
def AfterRelogin (R : Restoration K) (before : List Request) (r : Request) : Prop :=
  isResource r = true → ∃ r' ∈ before, r'.id ∈ R.relogins ∧ r'.action = actionLogin

variable {conn conn' : ServerConnection K} {pc pc' : ListenerPc K} {a : ClientAct K} {s s' : Client U K}
  {h : ClientHistory U} {L L' : LoginHistory U} {R R' : Restoration K} {k : K}

/-! ## A client that stays logged in -/

/-- A thread that neither logs out nor closes. -/
def UserPc.staysLoggedIn : UserPc K → Bool
  | .request _ logout => !logout
  | .forget | .close | .closeState | .closeSock => false
  | _ => true

omit [DecidableEq U] in
theorem staysLoggedIn_step {pc pc' : UserPc K} {u : U} (hx : staysLoggedIn (Thread.user u, a) = true)
    (hpc : pc.staysLoggedIn = true) (hs : userStep conn pc a = some (conn', pc')) :
    pc'.staysLoggedIn = true := by
  cases userStep_moves hs with
  | call m =>
    cases m with
    | logout | close => cases hx
    | _ => rfl
  | request => exact hpc
  | login | returns => rfl
  | loggedOut | forget | close | closeState | closeRaises | closeSock => cases hpc

/-- No `login` has come to remember its credentials. -/
structure LoginHistory.Unused (L : LoginHistory U) : Prop where
  calling : ∀ u, L.calling u = none
  logins : L.logins = []
  answered : L.answered = none

structure LoggedInv (s : Client U K) (L : LoginHistory U) : Prop where
  stays : ∀ u, (s.user u).staysLoggedIn = true
  unused : s.conn.credentials = none → L.Unused

theorem userStep_forgets {pc pc' : UserPc K} (hpc : pc.staysLoggedIn = true)
    (hs : userStep conn pc a = some (conn', pc')) (hnone : conn'.credentials = none) :
    conn.credentials = none ∧ ∀ u n, pc = .login u n → a ≠ .go := by
  cases userStep_moves hs with
  | login => cases hnone
  | request logout hreq => exact ⟨(requestStep_credentials hreq).symm.trans hnone, nofun⟩
  | call | returns => exact ⟨hnone, nofun⟩
  | loggedOut | forget | close | closeState | closeRaises | closeSock => cases hpc

omit [DecidableEq K] in
theorem LoginHistory.Unused.user {u : U} {pc : UserPc K} (hL : L.Unused)
    (hlogin : ∀ u n, pc = .login u n → a ≠ .go) : (L.user u conn pc a).Unused := by
  unfold LoginHistory.user
  split
  · exact absurd rfl (hlogin _ _ rfl)
  · refine ⟨hL.calling, ?_, hL.answered⟩
    simp only [hL.calling, hL.logins, Option.toList_none, List.map_nil, List.append_nil]
  · refine ⟨?_, hL.logins, hL.answered⟩
    exact (Function.forall_update_iff L.calling fun _ c => c = none).2 ⟨rfl, fun v _ => hL.calling v⟩
  · exact ⟨hL.calling, hL.logins, rfl⟩
  · exact hL

omit [DecidableEq U] [DecidableEq K] in
theorem LoginHistory.Unused.listener (hL : L.Unused) : (L.listener conn pc a).Unused := by
  have hanswers : ∀ xs : List (ℕ × Message), xs.foldl LoginHistory.answer L = L := by
    intro xs
    induction xs with
    | nil => rfl
    | cons x xs ih =>
      have hx : L.answer x = L := by simp only [LoginHistory.answer, hL.logins, List.find?_nil]
      rw [List.foldl_cons, hx, ih]
  unfold LoginHistory.listener
  split
  · exact ⟨hL.calling, hL.logins, hL.answered⟩
  · exact ⟨hL.calling, hL.logins, hL.answered⟩
  · rw [hanswers]
    exact hL

theorem LoggedInv.step {x : Thread U × ClientAct K} (hi : LoggedInv s L) (hx : staysLoggedIn x = true)
    (hs : clientStep s x = some s') : LoggedInv s' (L.next s x) := by
  obtain ⟨t, a⟩ := x
  rcases clientStep_cases hs with ⟨u, conn', pc, rfl, hstep, rfl⟩ | ⟨conn', pc, rfl, hstep, rfl⟩ |
    ⟨conn', pc, rfl, hstep, rfl⟩
  · refine ⟨?_, fun hnone => ?_⟩
    · exact (Function.forall_update_iff s.user fun _ pc => pc.staysLoggedIn = true).2
        ⟨staysLoggedIn_step hx (hi.stays u) hstep, fun v _ => hi.stays v⟩
    · obtain ⟨hcred, hlogin⟩ := userStep_forgets (hi.stays u) hstep hnone
      exact (hi.unused hcred).user hlogin
  · exact ⟨hi.stays, fun hnone =>
      (hi.unused ((listenerStep_credentials hstep).symm.trans hnone)).listener⟩
  · exact ⟨hi.stays, fun hnone => hi.unused ((beatStep_credentials hstep).symm.trans hnone)⟩

/-! ## The sockets -/

theorem SendStep.picked {r : Request} {pc pc' : SendPc K} {ok : Bool}
    (hs : SendStep r conn pc ok conn' pc') (hk : pc'.picked = some k) : conn.sock = some k := by
  cases hs with
  | pick k' hsock =>
    cases hk
    exact hsock
  | lock | unconnected | sent | raises => cases hk

theorem requestStep_picked {c c' : RequestCall K} (hs : requestStep conn c a = some (conn', c'))
    (hk : c'.picked = some k) : conn.sock = some k := by
  obtain ⟨pc', rfl, hstep⟩ := requestStep_cases hs
  obtain ⟨action, params, pc⟩ := c
  cases hstep with
  | @send id pc₀ pc₁ _ ok hsend =>
    cases hpc : pc₁ with
    | sendall k' =>
      rw [hpc] at hk hsend
      exact hsend.picked hk
    | _ =>
      rw [hpc] at hk
      cases hk
  | next | insert | unavailable | wakes | expires | timedOut | fetch => cases hk

theorem beatStep_picked {pc pc' : BeatPc K} (hs : beatStep conn pc a = some (conn', pc'))
    (hk : pc'.picked = some k) : conn.sock = some k := by
  cases beatStep_cases hs with
  | @send id pc₀ pc₁ _ ok hsend =>
    cases hpc : pc₁ with
    | sendall k' =>
      rw [hpc] at hk hsend
      exact hsend.picked hk
    | _ =>
      rw [hpc] at hk
      cases hk
  | next => cases hk
  | outside hne =>
    cases pc' with
    | send id pc => exact absurd rfl (hne id pc)
    | _ => cases hk

/-- What a thread takes is `_sock`. -/
theorem clientStep_picked {x : Thread U × ClientAct K} (hs : clientStep s x = some s') {t : Thread U}
    (hk : s'.picked t = some k) : s.picked t = some k ∨ s.conn.sock = some k := by
  obtain ⟨t', a⟩ := x
  rcases clientStep_cases hs with ⟨u, conn', pc, rfl, hstep, rfl⟩ | ⟨conn', pc, rfl, hstep, rfl⟩ |
    ⟨conn', pc, rfl, hstep, rfl⟩
  · cases t with
    | user v =>
      by_cases hv : v = u
      · subst hv
        simp only [Client.picked, Client.call?, Function.update_self] at hk
        obtain ⟨c, hc, hk⟩ := Option.bind_eq_some_iff.1 hk
        generalize s.user v = pc₀ at hstep
        cases userStep_cases hstep with
        | call m => cases m <;> cases hc <;> cases hk
        | login =>
          cases hc
          cases hk
        | request logout hreq =>
          cases hc
          exact .inr (requestStep_picked hreq hk)
        | returns _ _ _ _ logout => cases logout <;> cases hc
        | outside _ _ _ _ _ hcall =>
          rw [hcall] at hc
          cases hc
      · simp only [Client.picked, Client.call?, Function.update_of_ne hv] at hk
        exact .inl hk
    | listener | beat => exact .inl hk
  · cases t with
    | listener =>
      obtain ⟨c, hc, hk⟩ := Option.bind_eq_some_iff.1 hk
      have hc : pc.call? = some c := hc
      generalize s.listener = pc₀ at hstep
      cases listenerStep_cases hstep with
      | handle m hm =>
        rw [(handleIncoming_sent hm).2] at hc
        cases hc
      | relogin =>
        cases hc
        cases hk
      | request hreq =>
        cases hc
        exact .inr (requestStep_picked hreq hk)
      | outside _ _ _ hb =>
        cases hc.symm.trans (call?_of_bare hb)
      | connect | read | receive | crash | resolve | wake | lock | sweep | sweepWake | swept | returns =>
        cases hc
    | user v | beat => exact .inl hk
  · cases t with
    | beat => exact .inr (beatStep_picked hstep hk)
    | user v | listener => exact .inl hk

/-- **The sockets of the history.**  What has been sent, and what is about to be sent, is on sockets
that have been `_sock`. -/
structure AssignedInv (s : Client U K) (R : Restoration K) : Prop where
  sock : ∀ k, s.conn.sock = some k → k ∈ R.assigned
  picked : ∀ t k, s.picked t = some k → k ∈ R.assigned
  sent : ∀ k, s.conn.sent k ≠ [] → k ∈ R.assigned
  fresh : ∀ k again, s.listener = .connect (.setSock k) again → k ∉ R.assigned
  opened : ∀ k, R.opened k = true → k ∈ R.assigned
  failed : ∀ k, R.failed k = true → k ∈ R.assigned

/-- **A step of the listener in its recovery**, of a client that is logged in. -/
inductive RestoreStep (s : Client U K) (R : Restoration K) (answered : Bool) (a : ClientAct K)
    (conn' : ServerConnection K) : ListenerPc K → Restoration K → Prop
  | assign (k : K) (again : Bool) : s.listener = .connect (.setSock k) again →
      conn' = { s.conn with sock := some k } → RestoreStep s R answered a conn' (.connect (.setReader k) again)
        { R with assigned := k :: R.assigned, opened := Function.update R.opened k (again && answered) }
  | abandon {pc' : ListenerPc K} : s.listener.entering = true → pc'.entering = false →
      conn'.sock = s.conn.sock → conn'.sent = s.conn.sent → RestoreStep s R answered a conn' pc'
        { R with failed := fun k => R.failed k || s.conn.sock = some k }
  | raises (k : K) {pc' : ListenerPc K} : s.listener.entering = true → s.picked .listener = some k →
      pc'.entering = false → conn'.sock = s.conn.sock → conn'.sent = s.conn.sent →
      RestoreStep s R answered a conn' pc' { R with failed := Function.update R.failed k true }
  | sent (k : K) (r : Request) {pc' : ListenerPc K} : s.listener.entering = true →
      s.transmits (.listener, a) = some (k, r) → r.action = actionLogin → pc'.entering = false →
      conn'.sock = s.conn.sock → RestoreStep s R answered a conn' pc'
        { R with relogins := R.relogins ++ [r.id] }
  | ends {pc' : ListenerPc K} : s.conn.credentials = none ∨ s.conn.sock = none → pc'.entering = false →
      conn'.sock = s.conn.sock → conn'.sent = s.conn.sent → RestoreStep s R answered a conn' pc' R
  | other {pc' : ListenerPc K} : pc'.entering = s.listener.entering → conn'.sock = s.conn.sock →
      conn'.sent = s.conn.sent → RestoreStep s R answered a conn' pc' R

section

omit [DecidableEq U]

theorem restoreStep_connect {answered again : Bool} {pc pc' : ConnectPc K} (hi : RecoveryInv s)
    (hl : s.listener = .connect pc again) (hs : connectStep s.conn pc a = some (conn', pc')) :
    RestoreStep s R answered a conn' (.connect pc' again) (R.next s answered (.listener, a)) := by
  unfold Restoration.next
  rw [hl]
  cases connectStep_moves hs with
  | stop hstop => cases hi.running.symm.trans hstop
  | setSock k => exact .assign k again hl rfl
  | refused =>
    cases again with
    | true => exact .abandon (by rw [hl]; rfl) rfl rfl rfl
    | false => exact .other (by rw [hl]; rfl) rfl rfl
  | check | attempt | fail | setReader | setConnected | setReconnecting | sleep =>
    exact .other (by rw [hl]; rfl) rfl rfl

theorem restoreStep_relogin {answered : Bool} {c c' : RequestCall K} (hi : RecoveryInv s)
    (hl : s.listener = .relogin c) (hs : requestStep s.conn c a = some (conn', c')) :
    RestoreStep s R answered a conn' (.relogin c') (R.next s answered (.listener, a)) := by
  unfold Restoration.next
  have hlogin := (hi.relogin c hl).1
  obtain ⟨pc', rfl, hstep⟩ := requestStep_cases hs
  obtain ⟨action, params, pc⟩ := c
  have hentering : s.listener.entering = pc.starting := by rw [hl]; rfl
  rw [hl]
  cases hstep with
  | @send id pc₀ pc₁ _ ok hsend =>
    cases hsend with
    | lock hlock => exact .other hentering.symm rfl rfl
    | pick k hk => exact .other hentering.symm rfl rfl
    | unconnected hnone => exact .ends (.inr hnone) rfl rfl rfl
    | sent k hk =>
      refine .sent k ⟨id, action, params⟩ hentering ?_ hlogin rfl rfl
      simp only [Client.transmits, Client.call?, hl]
      rfl
    | raises k =>
      refine .raises k hentering ?_ rfl rfl rfl
      simp only [Client.picked, Client.call?, hl]
      rfl
  | next | insert | unavailable | wakes | expires | timedOut | fetch =>
    exact .other hentering.symm rfl rfl

theorem restoreStep_cases (R : Restoration K) (answered : Bool) (hi : RecoveryInv s)
    (hs : listenerStep s.conn s.listener a = some (conn', pc')) :
    RestoreStep s R answered a conn' pc' (R.next s answered (.listener, a)) := by
  generalize hl : s.listener = pc at hs
  -- nothing happens to the recovery
  have other : ∀ {conn' : ServerConnection K} {pc' : ListenerPc K}, R.next s answered (.listener, a) = R →
      pc'.entering = pc.entering → conn'.sock = s.conn.sock → conn'.sent = s.conn.sent →
      RestoreStep s R answered a conn' pc' (R.next s answered (.listener, a)) := by
    intro conn' pc' hnext hpc hsock hsent
    rw [hnext]
    exact .other (by rw [hl, hpc]) hsock hsent
  -- the recovery comes to an end with no credentials
  have ends : ∀ {pc' : ListenerPc K}, R.next s answered (.listener, a) = R →
      s.conn.credentials = none → pc'.entering = false →
      RestoreStep s R answered a s.conn pc' (R.next s answered (.listener, a)) := by
    intro pc' hnext hcred hpc
    rw [hnext]
    exact .ends (.inl hcred) hpc rfl rfl
  cases listenerStep_moves hs with
  | connect again hc => exact restoreStep_connect hi hl hc
  | request hreq => exact restoreStep_relogin hi hl hreq
  | connectedRaises again =>
    unfold Restoration.next
    rw [hl]
    cases again with
    | true => exact .abandon (by rw [hl]; rfl) rfl rfl rfl
    | false => exact .other (by rw [hl]; rfl) rfl rfl
  | handle m hm =>
    rcases handleIncoming_cases hm with ⟨rfl, rfl | rfl⟩ | ⟨id, -, -, -, rfl, rfl⟩ <;>
      exact other (by unfold Restoration.next; rw [hl]) rfl rfl rfl
  | stopped hstop => cases hi.running.symm.trans hstop
  | loggedOut hcred => exact ends (by unfold Restoration.next; rw [hl]) hcred rfl
  | unpackNone hcred => exact ends (by unfold Restoration.next; rw [hl]) hcred rfl
  | _ => exact other (by unfold Restoration.next; rw [hl]) rfl rfl rfl

end

/-- A socket to be assigned comes from a connection attempt. -/
theorem setSock_of_step {again : Bool}
    (hs : listenerStep conn pc a = some (conn', .connect (.setSock k) again)) : a = .connect k := by
  cases listenerStep_cases hs with
  | connect again hc =>
    cases connectStep_moves hc with
    | attempt => rfl
  | handle m hm => rcases handleIncoming_cases hm with ⟨-, h | h⟩ | ⟨id, -, -, -, -, h⟩ <;> cases h
  | outside _ _ _ _ hsocket => cases hsocket

omit [DecidableEq U] in
theorem next_of_other {answered : Bool} {t : Thread U} (ht : t ≠ .listener) :
    R.next s answered (t, a) = R := by
  cases t with
  | listener => exact absurd rfl ht
  | user u | beat => rfl

/-- A step of a thread other than the listener. -/
theorem other_step {t : Thread U} (ht : t ≠ .listener) (hstays : ∀ u, (s.user u).staysLoggedIn = true)
    (hs : clientStep s (t, a) = some s') :
    s'.listener = s.listener ∧ s'.conn.sock = s.conn.sock := by
  rcases clientStep_cases hs with ⟨u, conn', pc, rfl, hstep, rfl⟩ | ⟨conn', pc, rfl, hstep, rfl⟩ |
    ⟨conn', pc, rfl, hstep, rfl⟩
  · refine ⟨rfl, (userStep_link ?_ hstep).2.1⟩
    intro hclose
    have := hstays u
    rw [hclose] at this
    cases this
  · exact absurd rfl ht
  · exact ⟨rfl, (beatStep_link hstep).2.1⟩

/-- What has been sent before the step, or goes out in it. -/
theorem sent_step {x : Thread U × ClientAct K} (hs : clientStep s x = some s') (k : K) :
    s'.conn.sent k = s.conn.sent k ∨
      ∃ r, s.transmits x = some (k, r) ∧ s'.conn.sent k = s.conn.sent k ++ [r] := by
  have htrans := clientStep_transmits hs
  generalize hout : s.transmits x = out at htrans
  cases htrans with
  | nothing heq => exact .inl (by rw [heq])
  | message k' r heq =>
    by_cases hk : k = k'
    · subst hk
      exact .inr ⟨r, rfl, by rw [heq, Function.update_self]⟩
    · exact .inl (by rw [heq, Function.update_of_ne hk])

theorem AssignedInv.step {x : Thread U × ClientAct K} {answered : Bool} (hi : AssignedInv s R)
    (hrec : RecoveryInv s) (hstays : ∀ u, (s.user u).staysLoggedIn = true) (hnew : R.isNew x = true)
    (hs : clientStep s x = some s') : AssignedInv s' (R.next s answered x) := by
  -- what is picked and sent stays on sockets that have been assigned
  have hpicked : ∀ t k, s'.picked t = some k → k ∈ R.assigned := by
    intro t k hk
    rcases clientStep_picked hs hk with h | h
    · exact hi.picked t k h
    · exact hi.sock k h
  have hsent : ∀ k, s'.conn.sent k ≠ [] → k ∈ R.assigned := by
    intro k hk
    rcases sent_step hs k with h | ⟨r, hout, -⟩
    · exact hi.sent k (h ▸ hk)
    · exact hi.picked _ k (of_transmits hout).2
  obtain ⟨t, a⟩ := x
  by_cases ht : t = .listener
  · subst ht
    obtain ⟨⟨conn', pc⟩, hstep, rfl⟩ := Option.map_eq_some_iff.1 hs
    have hmove := restoreStep_cases R answered hrec hstep
    generalize hR : R.next s answered (.listener, a) = R' at hmove
    have hfresh : ∀ k again, pc = .connect (.setSock k) again → k ∉ R.assigned := by
      rintro k again rfl
      obtain rfl : a = .connect k := setSock_of_step hstep
      exact of_decide_eq_true hnew
    -- nothing is assigned
    have keep : ∀ R' : Restoration K, R'.assigned = R.assigned → R'.opened = R.opened →
        conn'.sock = s.conn.sock → (∀ k, R'.failed k = true → k ∈ R.assigned) →
        AssignedInv { s with conn := conn', listener := pc } R' := by
      intro R' h1 h2 h3 h4
      refine ⟨fun k hk => ?_, fun t k hk => ?_, fun k hk => ?_, fun k again h => ?_, fun k hk => ?_,
        fun k hk => ?_⟩
      all_goals rw [h1]
      · exact hi.sock k (h3.symm.trans hk)
      · exact hpicked t k hk
      · exact hsent k hk
      · exact hfresh k again h
      · exact hi.opened k (h2 ▸ hk)
      · exact h4 k hk
    cases hmove with
    | assign k again hl hconn =>
      refine ⟨fun k' hk => ?_, fun t k' hk => List.mem_cons_of_mem _ (hpicked t k' hk),
        fun k' hk => List.mem_cons_of_mem _ (hsent k' hk), nofun, fun k' hk => ?_,
        fun k' hk => List.mem_cons_of_mem _ (hi.failed k' hk)⟩
      · have hk : conn'.sock = some k' := hk
        rw [hconn] at hk
        rw [Option.some.inj hk]
        exact List.mem_cons_self
      · by_cases hkk : k' = k
        · rw [hkk]
          exact List.mem_cons_self
        · simp only [Function.update_of_ne hkk] at hk
          exact List.mem_cons_of_mem _ (hi.opened k' hk)
    | abandon hl hpc hsock hsent' =>
      refine keep _ rfl rfl hsock fun k hk => ?_
      rcases (Bool.or_eq_true _ _).mp hk with hk | hk
      · exact hi.failed k hk
      · exact hi.sock k (of_decide_eq_true hk)
    | raises k hl hp hpc hsock hsent' =>
      refine keep _ rfl rfl hsock fun k' hk => ?_
      by_cases hkk : k' = k
      · exact hkk ▸ hi.picked _ k hp
      · simp only [Function.update_of_ne hkk] at hk
        exact hi.failed k' hk
    | sent k r hl hout hact hpc hsock => exact keep _ rfl rfl hsock hi.failed
    | ends hor hpc hsock hsent' => exact keep _ rfl rfl hsock hi.failed
    | other hpc hsock hsent' => exact keep _ rfl rfl hsock hi.failed
  · obtain ⟨hl, hsock⟩ := other_step ht hstays hs
    rw [next_of_other ht]
    exact ⟨fun k hk => hi.sock k (hsock.symm.trans hk), hpicked, hsent,
      fun k again h => hi.fresh k again (hl.symm.trans h), hi.opened, hi.failed⟩

/-! ## The order on a socket -/

/-- **What holds of a socket that `_reconnect` has opened.** -/
structure RestoreAt (s : Client U K) (R : Restoration K) (k : K) : Prop where
  quiet : s.enters k = true ∨ R.failed k = true →
    ∀ r ∈ s.conn.sent k, isResource r = false ∧ r.id ∉ R.relogins
  alone : s.enters k = true → R.failed k = false
  restored : s.enters k = false → R.failed k = false →
    ∃ r ∈ s.conn.sent k, r.id ∈ R.relogins ∧ r.action = actionLogin
  order : InPlace (AfterRelogin R) (s.conn.sent k)

structure RestoreInv (s : Client U K) (R : Restoration K) : Prop where
  relogins : ∀ id ∈ R.relogins, ∃ k, ∃ r ∈ s.conn.sent k, r.id = id
  credentials : ∀ k, R.opened k = true → s.conn.credentials ≠ none
  order : ∀ k, R.opened k = true → RestoreAt s R k

omit [DecidableEq K] in
/-- Messages of which none needs a re-LOGIN. -/
theorem inPlace_of_quiet {log : List Request} (h : ∀ r ∈ log, isResource r = false) :
    InPlace (AfterRelogin R) log := by
  intro before r after hlog hres
  have := h r (by rw [hlog]; exact List.mem_append_right _ List.mem_cons_self)
  rw [hres] at this
  cases this

section

omit [DecidableEq U]

/-- A step that leaves the socket and the re-LOGINs alone. -/
theorem RestoreAt.keep (hi : RestoreAt s R k) (hsent : s'.conn.sent k = s.conn.sent k)
    (henters : s'.enters k = s.enters k) (hfailed : R'.failed k = R.failed k)
    (hsub : ∀ id ∈ R.relogins, id ∈ R'.relogins)
    (hnew : ∀ r ∈ s.conn.sent k, r.id ∉ R.relogins → r.id ∉ R'.relogins) : RestoreAt s' R' k := by
  refine ⟨fun hor r hr => ?_, fun h => ?_, fun h1 h2 => ?_, ?_⟩
  · rw [henters, hfailed] at hor
    rw [hsent] at hr
    exact ⟨(hi.quiet hor r hr).1, hnew r hr (hi.quiet hor r hr).2⟩
  · rw [hfailed]
    exact hi.alone (henters ▸ h)
  · obtain ⟨r, hr, hid, hact⟩ := hi.restored (henters ▸ h1) (hfailed ▸ h2)
    exact ⟨r, hsent ▸ hr, hsub _ hid, hact⟩
  · rw [hsent]
    refine hi.order.mono fun before r h hres => ?_
    obtain ⟨r', hr', hid, hact⟩ := h hres
    exact ⟨r', hr', hsub _ hid, hact⟩

/-- **Another thread sends** on the socket. -/
theorem RestoreAt.send (hi : RestoreAt s R k) {r : Request} (hsent : s'.conn.sent k = s.conn.sent k ++ [r])
    (henters : s'.enters k = s.enters k) (hid : r.id ∉ R.relogins)
    (hok : isResource r = true → s.enters k = false ∧ R.failed k = false) : RestoreAt s' R k := by
  refine ⟨fun hor r' hr => ?_, fun h => hi.alone (henters ▸ h), fun h1 h2 => ?_, ?_⟩
  · rw [henters] at hor
    rw [hsent] at hr
    rcases List.mem_append.1 hr with hr | hr
    · exact hi.quiet hor r' hr
    · rw [List.mem_singleton.1 hr]
      refine ⟨eq_false_of_ne_true fun hres => ?_, hid⟩
      obtain ⟨h1, h2⟩ := hok hres
      rw [h1, h2] at hor
      rcases hor with h | h <;> cases h
  · obtain ⟨r', hr', hid', hact⟩ := hi.restored (henters ▸ h1) h2
    exact ⟨r', hsent ▸ List.mem_append_left _ hr', hid', hact⟩
  · rw [hsent]
    apply hi.order.concat
    intro hres
    exact hi.restored (hok hres).1 (hok hres).2

/-- The listener ends its recovery without having sent its re-LOGIN on the socket. -/
theorem RestoreAt.fail (hi : RestoreAt s R k) (hwas : s.enters k = true)
    (hsent : s'.conn.sent k = s.conn.sent k) (henters : s'.enters k = false)
    (hfailed : R'.failed k = true) (hrelogins : R'.relogins = R.relogins) : RestoreAt s' R' k := by
  have hquiet : ∀ r ∈ s'.conn.sent k, isResource r = false ∧ r.id ∉ R'.relogins := by
    intro r hr
    rw [hrelogins]
    exact hi.quiet (.inl hwas) r (hsent ▸ hr)
  refine ⟨fun _ => hquiet, fun h => ?_, fun _ h => ?_, inPlace_of_quiet fun r hr => (hquiet r hr).1⟩
  · exact absurd (henters.symm.trans h) nofun
  · exact absurd (hfailed.symm.trans h) nofun

/-- **The re-LOGIN goes out** on the socket. -/
theorem RestoreAt.relogin (hi : RestoreAt s R k) {r : Request} (hwas : s.enters k = true)
    (hact : r.action = actionLogin) (hsent : s'.conn.sent k = s.conn.sent k ++ [r])
    (henters : s'.enters k = false) (hfailed : R'.failed k = R.failed k)
    (hrelogins : R'.relogins = R.relogins ++ [r.id]) : RestoreAt s' R' k := by
  have hno := hi.alone hwas
  refine ⟨fun hor => ?_, fun h => absurd (henters.symm.trans h) nofun, fun _ _ => ?_, ?_⟩
  · rw [henters, hfailed, hno] at hor
    rcases hor with h | h <;> cases h
  · refine ⟨r, hsent ▸ List.mem_append_right _ (List.mem_singleton_self r), ?_, hact⟩
    rw [hrelogins]
    exact List.mem_append_right _ (List.mem_singleton_self _)
  · rw [hsent]
    apply inPlace_of_quiet
    intro r' hr'
    rcases List.mem_append.1 hr' with hr' | hr'
    · exact (hi.quiet (.inl hwas) r' hr').1
    · rw [List.mem_singleton.1 hr']
      simp only [isResource, hact]
      decide

/-- The socket has just been opened. -/
theorem restoreAt_of_new (hsent : s.conn.sent k = []) (henters : s.enters k = true)
    (hfailed : R.failed k = false) : RestoreAt s R k := by
  refine ⟨fun _ r hr => ?_, fun _ => hfailed, fun h => absurd (henters.symm.trans h) nofun, ?_⟩
  · rw [hsent] at hr
    cases hr
  · rw [hsent]
    exact inPlace_nil

end

/-! ## Every run -/

theorem clientStep_forgets {x : Thread U × ClientAct K} (hlog : LoggedInv s L)
    (hs : clientStep s x = some s') (hnone : s'.conn.credentials = none) : s.conn.credentials = none := by
  obtain ⟨t, a⟩ := x
  rcases clientStep_cases hs with ⟨u, conn', pc, rfl, hstep, rfl⟩ | ⟨conn', pc, rfl, hstep, rfl⟩ |
    ⟨conn', pc, rfl, hstep, rfl⟩
  · exact (userStep_forgets (hlog.stays u) hstep hnone).1
  · exact (listenerStep_credentials hstep).symm.trans hnone
  · exact (beatStep_credentials hstep).symm.trans hnone

omit [DecidableEq U] [DecidableEq K] in
/-- The re-LOGIN goes to `_sock`. -/
theorem sock_of_picked (hi : RecoveryInv s) (hk : s.picked .listener = some k) :
    s.conn.sock = some k := by
  obtain ⟨c, hc, hk⟩ := Option.bind_eq_some_iff.1 hk
  have hl : s.listener = .relogin c := relogin_of_call hc
  have hsock := hi.connected (by rw [hl]; nofun)
  obtain ⟨action, params, pc⟩ := c
  cases pc with
  | send id pc =>
    cases pc with
    | sendall k' =>
      cases hk
      exact hsock.trans (hi.sending _ id k hl rfl)
    | _ => cases hk
  | _ => cases hk

section

omit [DecidableEq U]

theorem enters_of_sock (h : s.conn.sock = some k) : s.enters k = s.listener.entering := by
  simp only [Client.enters, h, decide_true, Bool.true_and]

theorem not_enters (h : s.conn.sock ≠ some k) : s.enters k = false := by
  simp only [Client.enters, decide_eq_false h, Bool.false_and]

theorem not_overtaken {x : Thread U × ClientAct K} (hok : s.overtakes R x = false) {r : Request}
    (hout : s.transmits x = some (k, r)) (hk : R.opened k = true) (hres : isResource r = true) :
    s.enters k = false ∧ R.failed k = false := by
  simp only [Client.overtakes, hout, hk, hres, Bool.and_true, Bool.true_and] at hok
  exact Bool.or_eq_false_iff.1 hok

end

omit [DecidableEq U] [DecidableEq K] in
/-- A message that is still to be sent is not one of the re-LOGINs that have gone out. -/
theorem unsent_not_relogin (hsent : SentInv s h)
    (hi : ∀ id ∈ R.relogins, ∃ k, ∃ r ∈ s.conn.sent k, r.id = id) {t : Thread U} {r : Request}
    (ht : s.unsent t = some r) : r.id ∉ R.relogins := by
  intro hid
  obtain ⟨k', r', hr', heq⟩ := hi _ hid
  exact hsent.fresh t r ht k' r' hr' heq

/-- **A step of the listener.** -/
theorem RestoreInv.listener (hi : RestoreInv s R) (hsent : SentInv s h) (hrec : RecoveryInv s)
    (hass : AssignedInv s R) (hs : clientStep s (.listener, a) = some s') :
    ∀ k, (R.next s L.answered.isSome (.listener, a)).opened k = true →
      RestoreAt s' (R.next s L.answered.isSome (.listener, a)) k := by
  have htrans := clientStep_transmits hs
  obtain ⟨⟨conn', pc⟩, hstep, rfl⟩ := Option.map_eq_some_iff.1 hs
  have hmove := restoreStep_cases R L.answered.isSome hrec hstep
  generalize R.next s L.answered.isSome (.listener, a) = R' at hmove
  intro k hk
  cases hmove with
  | assign k' again hl hconn =>
    have hwas : ∀ k, s.enters k = false := by
      intro k
      simp only [Client.enters, hl, ListenerPc.entering, Bool.and_false]
    by_cases hkk : k = k'
    · subst hkk
      simp only [Function.update_self, Bool.and_eq_true] at hk
      have hnot : k ∉ R.assigned := hass.fresh k again hl
      refine restoreAt_of_new ?_ ?_ (eq_false_of_ne_true fun h => hnot (hass.failed k h))
      · show conn'.sent k = []
        rw [hconn]
        by_contra hne
        exact hnot (hass.sent k hne)
      · rw [enters_of_sock (by rw [hconn])]
        exact hk.1
    · simp only [Function.update_of_ne hkk] at hk
      refine (hi.order k hk).keep (by simp only [hconn]) ?_ rfl (fun _ h => h) fun _ _ h => h
      rw [hwas k]
      apply not_enters
      simp only [hconn]
      exact fun h => hkk (Option.some.inj h).symm
  | abandon hl hpc hsock hsent' =>
    cases henters : s.enters k with
    | true =>
      refine (hi.order k hk).fail henters (congrFun hsent' k) ?_ ?_ rfl
      · simp only [Client.enters, hpc, Bool.and_false]
      · simp only [Client.enters, Bool.and_eq_true] at henters
        simp only [henters.1, Bool.or_true]
    | false =>
      have hne : s.conn.sock ≠ some k := fun h => by
        rw [enters_of_sock h, hl] at henters
        cases henters
      refine (hi.order k hk).keep (congrFun hsent' k) ?_ ?_ (fun _ h => h) fun _ _ h => h
      · rw [henters]
        exact not_enters (by rw [hsock]; exact hne)
      · simp only [decide_eq_false hne, Bool.or_false]
  | raises k' hl hp hpc hsock hsent' =>
    have hk' := sock_of_picked hrec hp
    by_cases hkk : k = k'
    · subst hkk
      refine (hi.order k hk).fail ((enters_of_sock hk').trans hl) (congrFun hsent' k) ?_ ?_ rfl
      · simp only [Client.enters, hpc, Bool.and_false]
      · simp only [Function.update_self]
    · have hne : s.conn.sock ≠ some k := fun h => hkk (Option.some.inj (h.symm.trans hk'))
      refine (hi.order k hk).keep (congrFun hsent' k) ?_ ?_ (fun _ h => h) fun _ _ h => h
      · rw [not_enters hne]
        exact not_enters (by rw [hsock]; exact hne)
      · simp only [Function.update_of_ne hkk]
  | sent k' r hl hout hact hpc hsock =>
    obtain ⟨hunsent, hp⟩ := of_transmits hout
    have hk' := sock_of_picked hrec hp
    have hafter : Client.enters { s with conn := conn', listener := pc } k = false := by
      simp only [Client.enters, hpc, Bool.and_false]
    rw [hout] at htrans
    cases htrans with
    | message _ _ heq =>
      by_cases hkk : k = k'
      · subst hkk
        exact (hi.order k hk).relogin ((enters_of_sock hk').trans hl) hact
          ((congrFun heq k).trans (Function.update_self ..)) hafter rfl rfl
      · have hne : s.conn.sock ≠ some k := fun h => hkk (Option.some.inj (h.symm.trans hk'))
        refine (hi.order k hk).keep ((congrFun heq k).trans (Function.update_of_ne hkk ..)) ?_ rfl
          (fun _ h => List.mem_append_left _ h) fun r' hr' hnot hid => ?_
        · rw [not_enters hne]
          exact hafter
        · rcases List.mem_append.1 hid with hid | hid
          · exact hnot hid
          · exact hsent.fresh .listener r hunsent k r' hr' (List.mem_singleton.1 hid)
  | ends hor hpc hsock hsent' =>
    refine (hi.order k hk).keep (congrFun hsent' k) ?_ rfl (fun _ h => h) fun _ _ h => h
    rcases hor with hcred | hnone
    · exact absurd hcred (hi.credentials k hk)
    · have hne : s.conn.sock ≠ some k := by rw [hnone]; nofun
      rw [not_enters hne]
      exact not_enters (by rw [hsock]; exact hne)
  | other hpc hsock hsent' =>
    refine (hi.order k hk).keep (congrFun hsent' k) ?_ rfl (fun _ h => h) fun _ _ h => h
    simp only [Client.enters, hsock, hpc]

omit [DecidableEq U] in
/-- What a step of the listener adds to the history. -/
theorem RestoreStep.frame {answered : Bool} (hmove : RestoreStep s R answered a conn' pc' R') :
    (∀ id ∈ R'.relogins, id ∈ R.relogins ∨
      ∃ k r, s.transmits (.listener, a) = some (k, r) ∧ r.id = id) ∧
    ∀ k, R'.opened k = true → R.opened k = true ∨ answered = true := by
  cases hmove with
  | assign k again hl hconn =>
    refine ⟨fun _ => .inl, fun k' hk => ?_⟩
    by_cases hkk : k' = k
    · subst hkk
      simp only [Function.update_self, Bool.and_eq_true] at hk
      exact .inr hk.2
    · simp only [Function.update_of_ne hkk] at hk
      exact .inl hk
  | sent k r hl hout hact hpc hsock =>
    refine ⟨fun id hid => ?_, fun _ => .inl⟩
    rcases List.mem_append.1 hid with hid | hid
    · exact .inl hid
    · exact .inr ⟨k, r, hout, (List.mem_singleton.1 hid).symm⟩
  | abandon | raises | ends | other => exact ⟨fun _ => .inl, fun _ => .inl⟩

theorem RestoreInv.step {x : Thread U × ClientAct K} (hi : RestoreInv s R) (hsent : SentInv s h)
    (hrec : RecoveryInv s) (hlog : LoggedInv s L) (hass : AssignedInv s R)
    (hok : s.overtakes R x = false) (hs : clientStep s x = some s') :
    RestoreInv s' (R.next s L.answered.isSome x) := by
  obtain ⟨t, a⟩ := x
  by_cases ht : t = .listener
  · subst ht
    have hframe := (restoreStep_cases R L.answered.isSome hrec (listener_of_client hs)).frame
    refine ⟨fun id hid => ?_, fun k hk hnone => ?_, hi.listener hsent hrec hass hs⟩
    · rcases hframe.1 id hid with hid | ⟨k, r, hout, heq⟩
      · obtain ⟨k, r, hr, heq⟩ := hi.relogins id hid
        exact ⟨k, r, (clientStep_sent hs k).subset hr, heq⟩
      · have htrans := clientStep_transmits hs
        rw [hout] at htrans
        cases htrans with
        | message _ _ hsent' =>
          refine ⟨k, r, ?_, heq⟩
          rw [hsent', Function.update_self]
          exact List.mem_append_right _ (List.mem_singleton_self r)
    · have hcred := clientStep_forgets hlog hs hnone
      rcases hframe.2 k hk with hk | hans
      · exact hi.credentials k hk hcred
      · rw [(hlog.unused hcred).answered] at hans
        cases hans
  · obtain ⟨hl, hsock⟩ := other_step ht hlog.stays hs
    rw [next_of_other ht]
    refine ⟨fun id hid => ?_, fun k hk hnone => hi.credentials k hk (clientStep_forgets hlog hs hnone),
      fun k hk => ?_⟩
    · obtain ⟨k, r, hr, heq⟩ := hi.relogins id hid
      exact ⟨k, r, (clientStep_sent hs k).subset hr, heq⟩
    · have henters : s'.enters k = s.enters k := by simp only [Client.enters, hl, hsock]
      rcases sent_step hs k with heq | ⟨r, hout, heq⟩
      · exact (hi.order k hk).keep heq henters rfl (fun _ h => h) fun _ _ h => h
      · exact (hi.order k hk).send heq henters (unsent_not_relogin hsent hi.relogins (of_transmits hout).1)
          fun hres => not_overtaken hok hout hk hres

/-- The states of a client with its sessions. -/
abbrev RestoringState (U K : Type) := ((Client U K × ClientHistory U) × LoginHistory U) × Restoration K

/-- The client stays logged in, and new connections are over new sockets. -/
def KeepsSession (p : RestoringState U K) (x : Thread U × ClientAct K) : Prop :=
  staysLoggedIn x = true ∧ p.2.isNew x = true

/-- No READ or WRITE overtakes the re-LOGIN. -/
def Ordered (p : RestoringState U K) (x : Thread U × ClientAct K) : Prop :=
  KeepsSession p x ∧ p.1.1.1.overtakes p.2 x = false

variable {p q : RestoringState U K}

/-- What holds of a client in whose runs no READ or WRITE overtakes the re-LOGIN. -/
structure RestoringInv (p : RestoringState U K) : Prop where
  recovery : RecoveryInv p.1.1.1
  logged : LoggedInv p.1.1.1 p.1.2
  assigned : AssignedInv p.1.1.1 p.2
  order : RestoreInv p.1.1.1 p.2

omit [DecidableEq U] [DecidableEq K] in
theorem unclosed_of_stays (h : ∀ u, (s.user u).staysLoggedIn = true) (u : U) : s.user u ≠ .close := by
  intro hclose
  have := h u
  rw [hclose] at this
  cases this

omit [DecidableEq U] in
theorem restoringInv_initial : RestoringInv (((({}, {}), {}), {}) : RestoringState U K) := by
  refine ⟨⟨rfl, nofun, fun _ => rfl, nofun, nofun⟩, ⟨fun _ => rfl, fun _ => ⟨fun _ => rfl, rfl, rfl⟩⟩,
    ⟨nofun, fun t k hk => ?_, fun k h => absurd rfl h, nofun, nofun, nofun⟩, ⟨nofun, nofun, nofun⟩⟩
  cases t <;> cases hk

theorem restoringClient_step {x : Thread U × ClientAct K} (hs : (restoringClient U K).step p x = some q) :
    clientStep p.1.1.1 x = some q.1.1.1 ∧ q.1.2 = p.1.2.next p.1.1.1 x ∧
      q.2 = p.2.next p.1.1.1 p.1.2.answered.isSome x := by
  obtain ⟨hs, hR⟩ := Machine.withHistory_step.1 hs
  obtain ⟨hs, hL⟩ := Machine.withHistory_step.1 hs
  exact ⟨(Machine.withHistory_step.1 hs).1, hL, hR⟩

theorem sentInv_of_restoring (hr : (restoringClient U K).Reachable p) : SentInv p.1.1.1 p.1.1.2 :=
  sentInv_of_reachable (Machine.Reach.erase (Machine.Reach.erase hr))

theorem restoringInv_of_reach (hr : (restoringClient U K).Reach Ordered p) : RestoringInv p := by
  refine hr.invariant RestoringInv ?_ ?_
  · rintro ⟨⟨⟨s, h⟩, L⟩, R⟩ ⟨⟨⟨hs, hh⟩, hL⟩, hR⟩
    have hs : s = {} := hs
    simp only at hh hL hR
    subst hs hh hL hR
    exact restoringInv_initial
  · rintro p ⟨t, a⟩ q hr hi ⟨⟨hx, hnew⟩, hok⟩ hs
    have hsent := sentInv_of_restoring hr.reachable
    obtain ⟨hclient, hL, hR⟩ := restoringClient_step hs
    refine ⟨hi.recovery.step (unclosed_of_stays hi.logged.stays) hclient, ?_, ?_, ?_⟩
    · rw [hL]
      exact hi.logged.step hx hclient
    · rw [hR]
      exact hi.assigned.step hi.recovery hi.logged.stays hnew hclient
    · rw [hR]
      exact hi.order.step hsent hi.recovery hi.logged hi.assigned hok hclient

omit [DecidableEq U] [DecidableEq K] in
/-- What the listener sends is a LOGIN. -/
theorem login_of_listener (hi : RecoveryInv s) {r : Request}
    (hout : s.transmits (.listener, a) = some (k, r)) : r.action = actionLogin := by
  obtain ⟨c, hc, ht⟩ := Option.bind_eq_some_iff.1 hout
  have hl : s.listener = .relogin c := relogin_of_call hc
  have hact := (hi.relogin c hl).1
  obtain ⟨action, params, pc⟩ := c
  cases pc with
  | send id pc =>
    unfold RequestCall.transmits SendPc.transmits at ht
    simp only at ht
    split at ht <;> cases ht
    exact hact
  | _ => cases ht

/-- **The re-LOGIN comes first.**  In a run without a step that overtakes it, every READ and WRITE on a
socket that `_reconnect` has opened for a client that was logged in comes after the re-LOGIN on that
socket; and a step of such a run breaks this exactly if it overtakes the re-LOGIN. -/
theorem restored_before_use (hr : (restoringClient U K).Reach Ordered p) :
    (∀ k, p.2.opened k = true → InPlace (AfterRelogin p.2) (p.1.1.1.conn.sent k)) ∧
    ∀ x q, KeepsSession p x → (restoringClient U K).step p x = some q →
      ((∀ k, q.2.opened k = true → InPlace (AfterRelogin q.2) (q.1.1.1.conn.sent k)) ↔
        p.1.1.1.overtakes p.2 x = false) := by
  have hinPlace : ∀ {p : RestoringState U K}, (restoringClient U K).Reach Ordered p → ∀ k,
      p.2.opened k = true → InPlace (AfterRelogin p.2) (p.1.1.1.conn.sent k) :=
    fun hr k hk => ((restoringInv_of_reach hr).order.order k hk).order
  refine ⟨hinPlace hr, fun x q hx hs => ⟨fun hall => ?_, fun hok => hinPlace (hr.step ⟨hx, hok⟩ hs)⟩⟩
  have hi := restoringInv_of_reach hr
  obtain ⟨hclient, -, hR⟩ := restoringClient_step hs
  apply eq_false_of_ne_true
  intro hover
  unfold Client.overtakes at hover
  split at hover
  · rename_i k r hout
    simp only [Bool.and_eq_true, Bool.or_eq_true] at hover
    obtain ⟨⟨hres, hk⟩, hor⟩ := hover
    obtain ⟨t, a⟩ := x
    have ht : t ≠ .listener := by
      rintro rfl
      have hact := login_of_listener hi.recovery hout
      simp only [isResource, hact] at hres
      exact absurd hres (by decide)
    rw [next_of_other ht] at hR
    have htrans := clientStep_transmits hclient
    rw [hout] at htrans
    cases htrans with
    | message _ _ hsent =>
      -- none of the messages before it is a re-LOGIN
      obtain ⟨r', hr', hid, -⟩ := hall k (by rw [hR]; exact hk) (p.1.1.1.conn.sent k) r []
        (by rw [hsent, Function.update_self]) hres
      rw [hR] at hid
      exact ((hi.order.order k hk).quiet hor r' hr').2 hid
  · cases hover

end Restoration

/-! ### Runs -/

instance {U K : Type} [DecidableEq U] [DecidableEq K] : DecidableRel (KeepsSession (U := U) (K := K)) :=
  fun _ _ => inferInstanceAs (Decidable (_ ∧ _))

instance {U K : Type} [DecidableEq U] [DecidableEq K] : DecidableRel (Ordered (U := U) (K := K)) :=
  fun _ _ => inferInstanceAs (Decidable (_ ∧ _))

/-- The start of a client. -/
def restoringStart {U K : Type} : RestoringState U K := ((({}, {}), {}), {})

/-- `u` is logged in, the connection drops, `_reconnect` assigns the new socket, and `u` is about to send
a READ. -/
def hastyRun {U K : Type} (u : U) (k k' : K) : List (Thread U × ClientAct K) :=
  loggedInRun u k ++ (.listener, .unreadable) :: List.replicate 6 (.listener, .go) ++
    [(.listener, .connect k'), (.listener, .go)] ++ (sendRead u).dropLast

/-- The READ goes out, and there is no LOGIN on the socket. -/
theorem hastyRun_overtakes :
    ¬ ∀ p, (restoringClient (Fin 1) (Fin 2)).Reach KeepsSession p → ∀ k, p.2.opened k = true →
      InPlace (AfterRelogin p.2) (p.1.1.1.conn.sent k) := by
  intro hall
  have hs : ∃ p, (restoringClient (Fin 1) (Fin 2)).runIf KeepsSession restoringStart
      (hastyRun 0 0 1 ++ [(.user 0, .go)]) = some p ∧ p.2.opened 1 = true ∧
        p.1.1.1.conn.sent 1 = [⟨2, actionRead, []⟩] := ⟨_, rfl, rfl, rfl⟩
  obtain ⟨p, hrun, hk, hsent⟩ := hs
  have hr : (restoringClient (Fin 1) (Fin 2)).Reach KeepsSession p :=
    Machine.Reach.runIf (s := restoringStart) (.init ⟨⟨⟨rfl, rfl⟩, rfl⟩, rfl⟩) hrun
  obtain ⟨r, hr, -⟩ := hall p hr 1 hk [] ⟨2, actionRead, []⟩ [] hsent (by decide)
  cases hr

/-- A READ that waits for the re-LOGIN. -/
def patientRun {U K : Type} (u : U) (k k' : K) : List (Thread U × ClientAct K) :=
  loggedInRun u k ++ reconnectOn k' ++ List.replicate 7 (.listener, .go) ++ sendRead u

/-- It comes second; and the READ of a thread that does not wait is the step that breaks the order. -/
theorem patientRun_ordered :
    (∃ p, (restoringClient (Fin 1) (Fin 2)).runIf Ordered restoringStart (patientRun 0 0 1) = some p ∧
      (p.1.1.1.conn.sent 1).map Request.action = [actionLogin, actionRead] ∧
      InPlace (AfterRelogin p.2) (p.1.1.1.conn.sent 1)) ∧
    ∃ p q, (restoringClient (Fin 1) (Fin 2)).runIf Ordered restoringStart (hastyRun 0 0 1) = some p ∧
      (restoringClient (Fin 1) (Fin 2)).step p (.user 0, .go) = some q ∧
      ((∀ k, q.2.opened k = true → InPlace (AfterRelogin q.2) (q.1.1.1.conn.sent k)) ↔
        p.1.1.1.overtakes p.2 (.user 0, .go) = false) := by
  have hp : ∃ p, (restoringClient (Fin 1) (Fin 2)).runIf Ordered restoringStart (patientRun 0 0 1) =
      some p ∧ p.2.opened 1 = true ∧
        (p.1.1.1.conn.sent 1).map Request.action = [actionLogin, actionRead] := ⟨_, rfl, rfl, rfl⟩
  have hq : ∃ p q, (restoringClient (Fin 1) (Fin 2)).runIf Ordered restoringStart (hastyRun 0 0 1) =
      some p ∧ (restoringClient (Fin 1) (Fin 2)).step p (.user 0, .go) = some q :=
    ⟨_, _, rfl, rfl⟩
  have reach : ∀ {as p}, (restoringClient (Fin 1) (Fin 2)).runIf Ordered restoringStart as = some p →
      (restoringClient (Fin 1) (Fin 2)).Reach Ordered p := fun hrun =>
    Machine.Reach.runIf (s := restoringStart) (.init ⟨⟨⟨rfl, rfl⟩, rfl⟩, rfl⟩) hrun
  obtain ⟨p, hrun, hk, hsent⟩ := hp
  obtain ⟨p', q, hrun', hstep⟩ := hq
  exact ⟨⟨p, hrun, hsent, (restored_before_use (reach hrun)).1 1 hk⟩, p', q, hrun', hstep,
    (restored_before_use (reach hrun')).2 _ q ⟨rfl, rfl⟩ hstep⟩

end DistRes
