import DistRes.Recovery

/-!
# The credentials that are replayed

`login` remembers its credentials before it is answered, `logout` forgets them when it returns, and
`_reconnect` reads them without a lock.

* `LoginHistory` — the `login` calls, the last one of them that was answered OK, and the LOGINs that
  `_reconnect` has sent;
* `CredentialInv` — what is remembered is from the last `login`, and what is sent from there;
* `replays_live_iff` — a replay carries the credentials of the session that the client has, exactly
  if the last `login` before it was answered OK and no `logout` has come in between.
-/

namespace DistRes

open Lib

/-! ## The history -/

/-- A LOGIN that `_reconnect` has sent. -/
structure Replay where
  message : Request
  /-- the credentials of the last `login` answered OK, if no `logout` has returned since -/
  answered : Option (Text × Text)
  /-- the credentials of the last `login` that was called, when `_credentials` was read -/
  last : Option (Text × Text)
  /-- what `answered` was then -/
  before : Option (Text × Text)
  /-- a `logout` has returned since then -/
  loggedOut : Bool

/-- The replay carries the credentials of the last `login` answered OK, and no `logout` has returned
since. -/
def Replay.Right (r : Replay) : Prop :=
  ∃ c, r.answered = some c ∧ r.message.action = actionLogin ∧ r.message.params = loginParams c.1 c.2

/-- When the credentials were read, the last `login` was the one answered OK, and no `logout` has
returned since. -/
def Replay.Live (r : Replay) : Prop := r.loggedOut = false ∧ r.before = r.last

/-- The status of a RESPONSE is OK. -/
def isOk (m : Message) : Bool :=
  match getField m (lit "status") with
  | .str t => t = statusOk
  | _ => false

structure LoginHistory (U : Type) where
  /-- the credentials of the `login` that a thread is in -/
  calling : U → Option (Text × Text) := fun _ => none
  /-- the credentials of the `login` calls, by the ids of their requests -/
  logins : List (ℕ × Text × Text) := []
  last : Option (Text × Text) := none
  answered : Option (Text × Text) := none
  /-- `last` and `answered` when `_reconnect` has read the credentials -/
  read : Option (Text × Text) × Option (Text × Text) := (none, none)
  loggedOut : Bool := false
  replays : List Replay := []

section History

variable {U K : Type} [DecidableEq U] [DecidableEq K]

/-- A RESPONSE is matched with the request of the given id. -/
def LoginHistory.answer (L : LoginHistory U) (x : ℕ × Message) : LoginHistory U :=
  match L.logins.find? fun e => e.1 = x.1 with
  | some e => if isOk x.2 then { L with answered := some e.2 } else L
  | none => L

/-- The history after a step of `u`. -/
def LoginHistory.user (L : LoginHistory U) (u : U) (conn : ServerConnection K) :
    UserPc K → ClientAct K → LoginHistory U
  | .login userId username, .go =>
    { L with
      calling := Function.update L.calling u (some (userId, username))
      last := some (userId, username) }
  | .request ⟨_, _, .next⟩ _, .go =>
    { L with logins := L.logins ++ (L.calling u).toList.map fun c => (conn.nextId, c) }
  | .request ⟨_, _, .done _ _⟩ _, .go => { L with calling := Function.update L.calling u none }
  | .forget, .go => { L with answered := none, loggedOut := true }
  | _, _ => L

/-- The history after a step of the listener. -/
def LoginHistory.listener (L : LoginHistory U) (conn : ServerConnection K) (pc : ListenerPc K)
    (a : ClientAct K) : LoginHistory U :=
  match pc, a with
  | .unpack, .go => { L with read := (L.last, L.answered), loggedOut := false }
  | .relogin ⟨action, params, .send id (.sendall _)⟩, .go =>
    { L with
      replays := L.replays ++ [⟨⟨id, action, params⟩, L.answered, L.read.1, L.read.2, L.loggedOut⟩] }
  | _, _ => (pc.matches conn a).foldl LoginHistory.answer L

/-- The history after a step of the client. -/
def LoginHistory.next (L : LoginHistory U) (s : Client U K) (a : Thread U × ClientAct K) :
    LoginHistory U :=
  match a.1 with
  | .user u => L.user u s.conn (s.user u) a.2
  | .listener => L.listener s.conn s.listener a.2
  | .beat => L

/-- The client with its `login` calls and the replays of `_reconnect`. -/
def replayingClient (U K : Type) [DecidableEq U] [DecidableEq K] :=
  (clientMachine U K).withHistory ({} : LoginHistory U) fun L p a _ => L.next p.1 a

/-! ## The credentials -/

variable {conn conn' : ServerConnection K} {a : ClientAct K} {L : LoginHistory U}
  {s : Client U K}

theorem requestStep_credentials {c c' : RequestCall K} (h : requestStep conn c a = some (conn', c')) :
    conn'.credentials = conn.credentials := by
  rw [requestStep_frame h]

/-- What a thread does to the credentials: `login` remembers them, and `logout` forgets them. -/
theorem userStep_credentials {pc pc' : UserPc K} (hs : userStep conn pc a = some (conn', pc')) :
    conn'.credentials = conn.credentials ∨
    (∃ u n, pc = .login u n ∧ a = .go ∧ conn'.credentials = some (u, n)) ∨
    conn'.credentials = none := by
  cases userStep_moves hs with
  | login u n => exact .inr (.inl ⟨u, n, rfl, rfl, rfl⟩)
  | request logout hreq => exact .inl (requestStep_credentials hreq)
  | forget => exact .inr (.inr rfl)
  | call | returns | loggedOut | close | closeState | closeRaises | closeSock => exact .inl rfl

theorem listenerStep_credentials {pc pc' : ListenerPc K}
    (hs : listenerStep conn pc a = some (conn', pc')) : conn'.credentials = conn.credentials := by
  cases listenerStep_cases hs with
  | connect again hc => rw [connectStep_frame hc]
  | handle m hm => rcases handleIncoming_cases hm with ⟨rfl, -⟩ | ⟨id, -, -, -, rfl, -⟩ <;> rfl
  | request hreq => exact requestStep_credentials hreq
  | _ => rfl

theorem beatStep_credentials {pc pc' : BeatPc K} (hs : beatStep conn pc a = some (conn', pc')) :
    conn'.credentials = conn.credentials := by
  rw [beatStep_frame hs]

/-- **The invariant of the credentials.** -/
structure CredentialInv (s : Client U K) (L : LoginHistory U) : Prop where
  remembered : ∀ c, s.conn.credentials = some c → L.last = some c
  replaying : ∀ call, s.listener = .relogin call → ∃ c, L.read.1 = some c ∧
    call.action = actionLogin ∧ call.params = loginParams c.1 c.2 ∧
      L.answered = if L.loggedOut then none else L.read.2
  right : ∀ r ∈ L.replays, r.Right ↔ r.Live

omit [DecidableEq K] in
/-- What a step of a thread does to the history. -/
theorem user_cases (L : LoginHistory U) (u : U) (conn : ServerConnection K) (pc : UserPc K)
    (a : ClientAct K) :
    (L.user u conn pc a).read = L.read ∧ (L.user u conn pc a).replays = L.replays ∧
    ((L.user u conn pc a).answered = L.answered ∧ (L.user u conn pc a).loggedOut = L.loggedOut ∨
      (L.user u conn pc a).answered = none ∧ (L.user u conn pc a).loggedOut = true) ∧
    ((L.user u conn pc a).last = L.last ∨
      ∃ userId username, pc = .login userId username ∧ a = .go ∧
        (L.user u conn pc a).last = some (userId, username)) := by
  unfold LoginHistory.user
  split
  · exact ⟨rfl, rfl, .inl ⟨rfl, rfl⟩, .inr ⟨_, _, rfl, rfl, rfl⟩⟩
  · exact ⟨rfl, rfl, .inl ⟨rfl, rfl⟩, .inl rfl⟩
  · exact ⟨rfl, rfl, .inl ⟨rfl, rfl⟩, .inl rfl⟩
  · exact ⟨rfl, rfl, .inr ⟨rfl, rfl⟩, .inl rfl⟩
  · exact ⟨rfl, rfl, .inl ⟨rfl, rfl⟩, .inl rfl⟩

theorem CredentialInv.user {u : U} {pc : UserPc K} (hi : CredentialInv s L)
    (hs : userStep s.conn (s.user u) a = some (conn', pc)) :
    CredentialInv { s with conn := conn', user := Function.update s.user u pc }
      (L.user u s.conn (s.user u) a) := by
  obtain ⟨hread, hreplays, hanswered, hlast⟩ := user_cases L u s.conn (s.user u) a
  refine ⟨fun c hc => ?_, fun call hcall => ?_, fun r hr => hi.right r (hreplays ▸ hr)⟩
  · rcases userStep_credentials hs with he | ⟨x, n, hpc, ha, he⟩ | he
    · rcases hlast with hl | ⟨x, n, hpc, rfl, -⟩
      · rw [hl]
        exact hi.remembered c (he.symm.trans hc)
      · -- this step remembers its credentials
        rw [hpc] at hs
        cases hs
        rw [hpc]
        exact hc
    · subst ha
      rw [hpc]
      exact he.symm.trans hc
    · cases he.symm.trans hc
  · obtain ⟨c, hc, hact, hpar, hans⟩ := hi.replaying call hcall
    refine ⟨c, by rw [hread]; exact hc, hact, hpar, ?_⟩
    rw [hread]
    rcases hanswered with ⟨h1, h2⟩ | ⟨h1, h2⟩
    · rw [h1, h2]
      exact hans
    · rw [h1, h2]
      rfl

omit [DecidableEq U] in
theorem answer_frame (L : LoginHistory U) (xs : List (ℕ × Message)) :
    (xs.foldl LoginHistory.answer L).last = L.last ∧
      (xs.foldl LoginHistory.answer L).replays = L.replays := by
  induction xs generalizing L with
  | nil => exact ⟨rfl, rfl⟩
  | cons x xs ih =>
    obtain ⟨h1, h2⟩ := ih (L.answer x)
    have hx : (L.answer x).last = L.last ∧ (L.answer x).replays = L.replays := by
      unfold LoginHistory.answer
      repeat' split
      all_goals exact ⟨rfl, rfl⟩
    exact ⟨h1.trans hx.1, h2.trans hx.2⟩

omit [DecidableEq K] [DecidableEq U] in
/-- What a step of the listener does to the history. -/
theorem listener_cases (L : LoginHistory U) (conn : ServerConnection K) (pc : ListenerPc K)
    (a : ClientAct K) :
    (L.listener conn pc a).last = L.last ∧
    ((L.listener conn pc a).replays = L.replays ∨ ∃ action params id k,
      pc = .relogin ⟨action, params, .send id (.sendall k)⟩ ∧ a = .go ∧ (L.listener conn pc a).replays =
        L.replays ++ [⟨⟨id, action, params⟩, L.answered, L.read.1, L.read.2, L.loggedOut⟩]) ∧
    (∀ call, pc = .relogin call → (L.listener conn pc a).read = L.read ∧
      (L.listener conn pc a).answered = L.answered ∧
      (L.listener conn pc a).loggedOut = L.loggedOut) := by
  unfold LoginHistory.listener
  split
  · exact ⟨rfl, .inl rfl, fun _ h => by cases h⟩
  · exact ⟨rfl, .inr ⟨_, _, _, _, rfl, rfl, rfl⟩, fun _ _ => ⟨rfl, rfl, rfl⟩⟩
  · obtain ⟨h1, h2⟩ := answer_frame L (pc.matches conn a)
    refine ⟨h1, .inl h2, fun call h => ?_⟩
    subst h
    exact ⟨rfl, rfl, rfl⟩

theorem loginParams_injective {u n u' n' : Text} (h : loginParams u n = loginParams u' n') :
    (u, n) = (u', n') := by
  simp only [loginParams, List.cons.injEq, Prod.mk.injEq, Json.str.injEq, true_and, and_true] at h
  rw [h.1, h.2]

/-- A replay is right exactly if it is live. -/
theorem right_iff_live {c : Text × Text} {id : ℕ} {action : Text} {params : List (Text × Json)}
    {before : Option (Text × Text)} {out : Bool} (hact : action = actionLogin)
    (hpar : params = loginParams c.1 c.2) :
    (Replay.mk ⟨id, action, params⟩ (if out then none else before) (some c) before out).Right ↔
      (Replay.mk ⟨id, action, params⟩ (if out then none else before) (some c) before out).Live := by
  subst hact hpar
  cases out with
  | true =>
    refine iff_of_false ?_ ?_
    · rintro ⟨d, hd, -⟩
      cases hd
    · rintro ⟨h, -⟩
      cases h
  | false =>
    constructor
    · rintro ⟨d, hd, -, hp⟩
      refine ⟨rfl, ?_⟩
      have hcd : c = d := loginParams_injective hp
      rw [hcd]
      exact hd
    · rintro ⟨-, h⟩
      exact ⟨c, h, rfl, rfl⟩

omit [DecidableEq U] in
theorem CredentialInv.listener {pc : ListenerPc K} (hi : CredentialInv s L)
    (hs : listenerStep s.conn s.listener a = some (conn', pc)) :
    CredentialInv { s with conn := conn', listener := pc } (L.listener s.conn s.listener a) := by
  obtain ⟨hlast, hreplays, hsame⟩ := listener_cases L s.conn s.listener a
  refine ⟨fun c hc => ?_, fun call hcall => ?_, fun r hr => ?_⟩
  · rw [hlast]
    exact hi.remembered c ((listenerStep_credentials hs).symm.trans hc)
  · have hcall : pc = .relogin call := hcall
    subst hcall
    generalize hl : s.listener = pc₀ at hs hsame
    cases listenerStep_cases hs with
    | relogin u n hcred =>
      refine ⟨(u, n), ?_, rfl, rfl, rfl⟩
      exact hi.remembered _ hcred
    | @request _ c _ _ hreq =>
      obtain ⟨x, hx, hact, hpar, hans⟩ := hi.replaying c hl
      obtain ⟨h1, h2, h3⟩ := hsame c rfl
      obtain ⟨pc', rfl, -⟩ := requestStep_cases hreq
      exact ⟨x, by rw [h1]; exact hx, hact, hpar, by rw [h1, h2, h3]; exact hans⟩
    | handle m hm => rcases handleIncoming_cases hm with ⟨-, h | h⟩ | ⟨id, -, -, -, -, h⟩ <;> cases h
    | outside _ _ _ hb => cases hb
  · rcases hreplays with h | ⟨action, params, id, k, hl, -, h⟩
    · exact hi.right r (h ▸ hr)
    · rw [h] at hr
      rcases List.mem_append.1 hr with hr | hr
      · exact hi.right r hr
      · obtain ⟨c, hc, hact, hpar, hans⟩ := hi.replaying _ hl
        rw [List.mem_singleton.1 hr, hans, hc]
        exact right_iff_live hact hpar

theorem credentialInv_of_reachable {p : (Client U K × ClientHistory U) × LoginHistory U}
    (hr : (replayingClient U K).Reachable p) : CredentialInv p.1.1 p.2 := by
  refine hr.invariant (fun p => CredentialInv p.1.1 p.2) ?_ ?_
  · rintro ⟨⟨s, h⟩, L⟩ ⟨⟨hs, -⟩, hL⟩
    have hs : s = {} := hs
    simp only at hL ⊢
    subst hs hL
    exact ⟨nofun, nofun, nofun⟩
  · rintro ⟨⟨s, h⟩, L⟩ ⟨t, a⟩ ⟨⟨s', h'⟩, L'⟩ - hi hs
    obtain ⟨hs, hL⟩ := Machine.withHistory_step.1 hs
    obtain ⟨hclient, -⟩ := Machine.withHistory_step.1 hs
    simp only at hL hclient hi ⊢
    subst hL
    rcases clientStep_cases hclient with ⟨u, conn', pc, rfl, hstep, rfl⟩ |
      ⟨conn', pc, rfl, hstep, rfl⟩ | ⟨conn', pc, rfl, hstep, rfl⟩
    · exact hi.user hstep
    · exact hi.listener hstep
    · exact ⟨fun c hc => hi.remembered c ((beatStep_credentials hstep).symm.trans hc), hi.replaying,
        hi.right⟩

/-- A replay is sent only if it is live. -/
def ReplaysLive (p : (Client U K × ClientHistory U) × LoginHistory U) (a : Thread U × ClientAct K) :
    Prop :=
  sendsRelogin p.1.1 a = true → p.2.loggedOut = false ∧ p.2.read.2 = p.2.read.1

/-- **A replay carries the credentials of the session** exactly if it is live: the last `login` that
was called before `_credentials` was read is the last one answered OK, and no `logout` has returned
after that answer.  So in every run whose replays are live, `_reconnect` restores no session but the
one that the client has. -/
theorem replays_live_iff :
    (∀ p, (replayingClient U K).Reachable p → ∀ r ∈ p.2.replays, r.Right ↔ r.Live) ∧
    ∀ p, (replayingClient U K).Reach ReplaysLive p → ∀ r ∈ p.2.replays, r.Right := by
  refine ⟨fun p hr => (credentialInv_of_reachable hr).right, fun p hr r hmem => ?_⟩
  refine ((credentialInv_of_reachable hr.reachable).right r hmem).2 ?_
  refine hr.invariant (fun p => ∀ r ∈ p.2.replays, r.Live) ?_ ?_ r hmem
  · rintro ⟨s, L⟩ ⟨-, hL⟩ r hr
    simp only at hL hr
    rw [hL] at hr
    cases hr
  · rintro ⟨⟨s, h⟩, L⟩ ⟨t, a⟩ q - ih hok hs r hr
    have hL := (Machine.withHistory_step.1 hs).2
    rw [hL] at hr
    simp only at ih hr
    rcases t with u | _ | _
    · rw [LoginHistory.next, (user_cases L u s.conn (s.user u) a).2.1] at hr
      exact ih r hr
    · rcases (listener_cases L s.conn s.listener a).2.1 with hrep |
        ⟨action, params, id, k, hl, rfl, hrep⟩
      · rw [LoginHistory.next, hrep] at hr
        exact ih r hr
      · rw [LoginHistory.next, hrep] at hr
        rcases List.mem_append.1 hr with hr | hr
        · exact ih r hr
        · have hsends : sendsRelogin s (.listener, .go) = true := by simp only [sendsRelogin, hl]
          rw [List.mem_singleton.1 hr]
          exact hok hsends
    · exact ih r hr

end History

/-! ### Runs -/

/-- A RESPONSE that refuses a LOGIN. -/
def refusalOf (id : ℤ) : Message :=
  [(lit "type", .str typeResponse), (lit "id", .int id), (lit "status", .str statusError)]

/-- A client's `login` is refused, and the connection drops. -/
def refusedRun {U K : Type} (u : U) (k k' : K) : List (Thread U × ClientAct K) :=
  startOn k ++ (.user u, .call (.login (lit "ENG001") (lit "Mallory"))) ::
    List.replicate 6 (.user u, .go) ++ (.listener, .receive (.obj (refusalOf 1))) ::
    List.replicate 5 (.listener, .go) ++ reconnectOn k' ++ List.replicate 7 (.listener, .go)

/-- Nobody has logged in, and a LOGIN is sent on the new connection. -/
theorem refusedRun_replays :
    ¬ ∀ p, (replayingClient (Fin 1) (Fin 2)).Reachable p → ∀ r ∈ p.2.replays, r.Right := by
  intro hall
  have hs : ((replayingClient (Fin 1) (Fin 2)).run (({}, {}), {})
      (refusedRun 0 0 1)).map (fun p => p.2.replays.map Replay.answered) =
        some [none] := by decide
  obtain ⟨p, hrun, hval⟩ := Option.map_eq_some_iff.1 hs
  have hr : (replayingClient (Fin 1) (Fin 2)).Reachable p :=
    Machine.Reachable.run (s := (({}, {}), {})) (.init ⟨⟨rfl, rfl⟩, rfl⟩) hrun
  obtain ⟨r, hmem, hans⟩ := List.mem_map.1 (hval ▸ List.mem_singleton_self _)
  obtain ⟨c, hc, -⟩ := hall p hr r hmem
  rw [hans] at hc
  cases hc

instance {U K : Type} [DecidableEq U] [DecidableEq K] :
    DecidableRel (ReplaysLive (U := U) (K := K)) := fun _ _ => by
  unfold ReplaysLive
  infer_instance

/-- The `login` was answered OK, and its LOGIN is sent again. -/
theorem reloginRun_restores :
    ∃ p, (replayingClient (Fin 1) (Fin 2)).runIf ReplaysLive (({}, {}), {})
        (reloginRun 0 0 1) = some p ∧
      ∃ r ∈ p.2.replays, r.answered = some (lit "ENG001", lit "Alice") ∧ r.Right ∧ r.Live := by
  have hs : ((replayingClient (Fin 1) (Fin 2)).runIf ReplaysLive (({}, {}), {})
      (reloginRun 0 0 1)).map (fun p => p.2.replays.map Replay.answered) =
        some [some (lit "ENG001", lit "Alice")] := by decide
  obtain ⟨p, hrun, hval⟩ := Option.map_eq_some_iff.1 hs
  have hr : (replayingClient (Fin 1) (Fin 2)).Reach ReplaysLive p :=
    Machine.Reach.runIf (s := (({}, {}), {})) (.init ⟨⟨rfl, rfl⟩, rfl⟩) hrun
  obtain ⟨r, hmem, hans⟩ := List.mem_map.1 (hval ▸ List.mem_singleton_self _)
  have hright := replays_live_iff.2 p hr r hmem
  exact ⟨p, hrun, r, hmem, hans, hright, (replays_live_iff.1 p hr.reachable r hmem).1 hright⟩

end DistRes
