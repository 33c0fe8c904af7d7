import DistRes.EventContents

/-!
# Whose writes they are

A session belongs to a user whom its own client has named in a LOGIN, and so do the commits that are
made in it.

* `names_step` — a handler is called by a name only because of a LOGIN that it has got;
* `author_of_commit` — the client of a commit has logged in as the user of its session;
* `event_of_received` — a client is told only of what clients have asked for.
-/

namespace DistRes

open Lib

/-! ## The name of a session -/

/-- A LOGIN as the user. -/
def isLogin (m : Message) (u : Text) : Prop :=
  getField m (lit "type") = .str typeRequest ∧ getField m (lit "action") = .str actionLogin ∧
    getField m (lit "user_id") = .str u

/-- The user that a LOGIN is about. -/
def LoginPc.userId : LoginPc → Option Text
  | .authenticate (.str u) _ | .isActive u _ | .acquire u _ | .hold u _ | .register u _ | .subscribe u
  | .version u => some u
  | .authenticate _ _ => none

def HandlerPc.loggingIn {H : Type} : HandlerPc H → Option Text
  | .login _ pc => pc.userId
  | _ => none

/-- The session of the handler is that of the user, or is going to be. -/
def ClientHandler.Names {H : Type} (l : ClientHandler H) (u : Text) : Prop :=
  l.userId = some u ∨ l.pc.loggingIn = some u

section Handler

variable {H : Type} {cfg : Config} {h : H} {s s' : DistResServer H} {l l' : ClientHandler H}
  {a : HandlerAct} {u : Text}

theorem loggingIn_of_atRest {pc : HandlerPc H} (h : pc.atRest = true) : pc.loggingIn = none := by
  cases pc <;> first | rfl | cases h

theorem names_releaseSession {caller : Caller} (hn : (l.releaseSession caller).Names u) :
    l.userId = some u := by
  rcases hn with hu | hpc
  · rwa [userId_releaseSession] at hu
  · rw [loggingIn_of_atRest (atRest_releaseSession l caller)] at hpc
    cases hpc

theorem eq_of_authenticate {x y : Json} (h : (LoginPc.authenticate x y).userId = some u) : x = .str u := by
  cases x with
  | str v =>
    cases h
    rfl
  | _ => cases h

/-- What a handler is called after a message, it is called in the message or has been called before. -/
theorem names_dispatch {m : Json} (hn : (l.dispatch cfg m).Names u) :
    l.userId = some u ∨ ∃ fields, m = .obj fields ∧ isLogin fields u := by
  have hd := dispatch_cases cfg l m
  generalize l.dispatch cfg m = l' at hd hn
  have same : l'.userId = l.userId → l'.pc.loggingIn = none →
      l.userId = some u ∨ ∃ fields, m = .obj fields ∧ isLogin fields u := by
    intro hu hpc
    rcases hn with hn | hn
    · exact .inl (hu ▸ hn)
    · rw [hpc] at hn
      cases hn
  cases hd with
  | notDict | unhashable => exact .inl (names_releaseSession hn)
  | ignored | refused | read | write | logout | ping | unknown => exact same rfl rfl
  | @login fields hreq haction =>
    rcases hn with hn | hn
    · exact .inl hn
    · right
      exact ⟨fields, rfl, hreq, haction, eq_of_authenticate hn⟩

theorem names_handleLogin {id : Json} {pc : LoginPc} (hpc : l.pc = .login id pc)
    (hn : (handleLogin cfg h s l id pc).2.Names u) : l.Names u := by
  have inside : pc.userId = some u → l.Names u := by
    intro hu
    right
    rw [hpc]
    exact hu
  have answered : ∀ {r : Response}, (l.respond r).Names u → l.Names u := by
    rintro r (hn | hn)
    · exact .inl hn
    · cases hn
  cases pc with
  | authenticate x y =>
    simp only [handleLogin] at hn
    split at hn
    · rcases hn with hn | hn
      · exact .inl hn
      · exact inside hn
    · exact answered hn
    · exact .inl (names_releaseSession hn)
  | isActive v n | acquire v n =>
    simp only [handleLogin] at hn
    split at hn
    · exact answered hn
    · rcases hn with hn | hn
      · exact .inl hn
      · exact inside hn
  | hold v n => exact inside (hn.elim (fun hu => hu) fun hu => hu)
  | register v n | subscribe v =>
    rcases hn with hn | hn
    · exact .inl hn
    · exact inside hn
  | version v => exact answered hn

variable [DecidableEq H]

/-- **A handler is called by a name only because of a LOGIN that it has got.** -/
theorem names_step (hs : handlerStep cfg h s l a = some (s', l')) (hn : l'.Names u) :
    l.Names u ∨ ∃ fields, a = .receive (.obj fields) ∧ isLogin fields u := by
  have same : l'.userId = l.userId → l'.pc.loggingIn = none → l.Names u := by
    intro hu hpc
    rcases hn with hn | hn
    · exact .inl (hu ▸ hn)
    · rw [hpc] at hn
      cases hn
  cases handlerStep_cases hs with
  | accept | readReturns | writeReturns | publish | published => exact .inl (same rfl rfl)
  | receive m =>
    rcases names_dispatch hn with hu | ⟨fields, rfl, hlogin⟩
    · exact .inl (.inl hu)
    · exact .inr ⟨fields, rfl, hlogin⟩
  | hangup | unsent | authenticate | readRaised | writeRaised =>
    exact .inl (.inl (names_releaseSession hn))
  | respond r next =>
    cases next with
    | loop | publish => exact .inl (same rfl rfl)
    | release => exact .inl (.inl (names_releaseSession hn))
  | login id pc hpc => exact .inl (names_handleLogin hpc hn)
  | read id v pc b hpc hread =>
    obtain ⟨d, pc', -, -, rfl⟩ := handleRead_cases hread
    exact .inl (same rfl rfl)
  | readDone | writeDone =>
    refine .inl (same ?_ ?_)
    · split <;> rfl
    · split <;> rfl
  | write id content v pc b hpc hwrite =>
    obtain ⟨d, pc', -, -, rfl⟩ := handleWrite_cases hwrite
    exact .inl (same rfl rfl)
  | release pc caller hpc =>
    left
    have hrest := atRest_releaseStep l cfg s caller pc
    rcases hn with hn | hn
    · cases pc with
      | unsubscribe | unregister | unhold => exact .inl hn
      | clear =>
        have hn : (({ l with userId := none } : ClientHandler H).releaseSession caller).userId = some u := hn
        rw [userId_releaseSession] at hn
        cases hn
      | free =>
        simp only [releaseStep] at hn
        split at hn
        · exact .inl hn
        · cases caller with
          | logout => exact .inl (names_releaseSession (.inl hn))
          | cleanup => exact .inl hn
    · rw [loggingIn_of_atRest hrest] at hn
      cases hn

end Handler

/-! ## At the server -/

section Server

variable {H : Type} [DecidableEq H] {cfg : Config} {file : Bytes}

/-- The handler has got a LOGIN as the user. -/
def LoggedIn (L : ServiceHistory H) (h : H) (u : Text) : Prop := ∃ n m, Got L h n m ∧ isLogin m u

/-- Sessions and commits have the names of users that have logged in on the connection. -/
structure NamesInv (L : ServiceHistory H) (th : H → ClientHandler H) : Prop where
  names : ∀ h u, (th h).Names u → LoggedIn L h u
  commits : ∀ e ∈ L.commits, ∀ u, e.session = some u → LoggedIn L e.handler u

theorem NamesInv.step {L : ServiceHistory H} {s s' : DistResServer H} {th : H → ClientHandler H} {h : H}
    {a : HandlerAct} {l' : ClientHandler H} (hi : NamesInv L th)
    (hs : handlerStep cfg h s (th h) a = some (s', l')) :
    NamesInv (L.next h (th h).userId (serviceEvent cfg (th h) a)) (Function.update th h l') := by
  have hkeep : ∀ k u, LoggedIn L k u →
      LoggedIn (L.next h (th h).userId (serviceEvent cfg (th h) a)) k u := by
    rintro k u ⟨n, m, hgot, hlogin⟩
    exact ⟨n, m, hgot.mono (prefix_got_next L h _ _ k), hlogin⟩
  refine ⟨fun k u hn => ?_, fun e he u hu => ?_⟩
  · by_cases hk : k = h
    · subst hk
      rw [Function.update_self] at hn
      rcases names_step hs hn with hold | ⟨fields, rfl, hlogin⟩
      · exact hkeep k u (hi.names k u hold)
      · -- the LOGIN is the message that the handler gets
        rw [got_of_receive hs]
        refine ⟨(L.got k).length + 1, fields, ⟨Nat.le_add_left 1 _, ?_⟩, hlogin⟩
        simp only [ServiceHistory.next, Function.update_self, Nat.add_sub_cancel]
        exact List.getElem?_concat_length
    · rw [Function.update_of_ne hk] at hn
      exact hkeep k u (hi.names k u hn)
  · cases hev : serviceEvent cfg (th h) a with
    | none =>
      rw [hev] at he
      exact hi.commits e he u hu
    | some ev =>
      rcases ev with m | rec | piece | rec
      · rw [hev] at he hkeep
        exact hkeep _ u (hi.commits e he u hu)
      · rw [hev] at he
        exact hi.commits e he u hu
      · rw [hev] at he
        exact hi.commits e he u hu
      · rw [hev] at he hkeep
        rcases List.mem_append.1 he with he | he
        · exact hkeep _ u (hi.commits e he u hu)
        · rw [List.mem_singleton.1 he] at hu ⊢
          exact hkeep h u (hi.names h u (.inl hu))

theorem namesInv_of_reachable {p : Pool.State H (DistResServer H) (ClientHandler H) × ServiceHistory H}
    (hr : (servingServer cfg H file).Reachable p) : NamesInv p.2 p.1.thread := by
  refine hr.invariant (fun p => NamesInv p.2 p.1.thread) ?_ ?_
  · rintro ⟨s, L⟩ ⟨⟨-, hth⟩, rfl⟩
    refine ⟨fun h u hn => ?_, fun e he => absurd he List.not_mem_nil⟩
    rw [show s.thread h = {} from hth h] at hn
    rcases hn with hn | hn <;> cases hn
  · rintro ⟨s, L⟩ ⟨h, a⟩ ⟨s', L'⟩ hr hi hs
    obtain ⟨hserver, hh⟩ := Machine.withHistory_step.1 hs
    obtain ⟨d, l, hstep, rfl⟩ := Pool.machine_step.1 hserver
    simp only at hh hi ⊢
    subst hh
    exact hi.step hstep

end Server

/-! ## At the clients -/

section System

variable {C U H : Type} [DecidableEq C] [DecidableEq U] [DecidableEq H] {cfg : Config} {file : Bytes}
  {s : System C U H} {L : SystemHistory C U H}

/-- The client of a connection has sent the LOGIN that its handler has got. -/
theorem login_issued (hr : (systemMachine cfg file C U H).Reach (fun _ a => a.plain = true) (s, L))
    {c : C} {h : H} (hc : s.owner h = some c) {u : Text} (hlogin : LoggedIn L.service h u) :
    ∃ q ∈ (L.clients c).issued, q.action = actionLogin ∧ getField q.arriving (lit "user_id") = .str u := by
  obtain ⟨n, m, hgot, -, haction, huser⟩ := hlogin
  obtain ⟨d, q, ho, rfl⟩ := origin_of_got (systemInv_of_reachable hr.reachable) hgot
  obtain ⟨-, hd, hq⟩ := origin_eq_some.1 ho
  obtain rfl : c = d := Option.some.inj (hc.symm.trans hd)
  have hplain := client_of_system hr c
  have hissued : q ∈ (L.clients c).issued :=
    (sentInv_of_reachable hplain.reachable).sent h q (List.mem_of_getElem? hq)
  have hqa := (getField_of_plain ((plainInv_of_reach hplain).2 q hissued)).2.2
  have hjoined : joinPairs q.action = actionLogin := Json.str.inj (hqa.symm.trans haction)
  exact ⟨q, hissued, (joinPairs_eq_iff (by decide)).1 hjoined, huser⟩

/-- **The client of a commit has logged in as the user of its session.** -/
theorem author_of_commit (hr : (systemMachine cfg file C U H).Reach (fun _ a => a.plain = true) (s, L))
    {e : Commit H} (he : e ∈ L.service.commits) {c : C} {r : Request}
    (ho : s.origin e.handler e.number = some (c, r)) {u : Text} (hu : e.session = some u) :
    ∃ q ∈ (L.clients c).issued, q.action = actionLogin ∧ getField q.arriving (lit "user_id") = .str u :=
  login_issued hr (origin_eq_some.1 ho).2.1
    ((namesInv_of_reachable (server_of_system hr.reachable)).commits e he u hu)

theorem event_of_isEvent {y : ServerMessage} {m : Message} (hy : y.toJson = .obj m)
    (hm : eventRaises m = true) : ∃ e : Event, y = .event e ∧ getField m (lit "payload") = e.payload.toJson := by
  cases y with
  | response r =>
    cases hy
    cases hm
  | event e =>
    cases hy
    exact ⟨e, rfl, rfl⟩

variable [Fintype H]

/-- **A client is told only of what clients have asked for.**  An EVENT that a client gets is about the
commit of a WRITE of some client, with its text, and names a user that this client has logged in as. -/
theorem event_of_received
    (hr : (systemMachine cfg file C U H).Reach (fun _ a => a.plain = true) (s, L)) {d : C} {m : Message}
    (hm : m ∈ (L.clients d).received) (hevent : eventRaises m = true) :
    ∃ v u e c, ∃ r ∈ (L.clients c).issued,
      getField m (lit "payload") = (⟨v, some u, writeContent r.arriving⟩ : Update).toJson ∧ 1 ≤ v ∧
      L.service.commits[v - 1]? = some e ∧ s.origin e.handler e.number = some (c, r) ∧
      r.action = actionWrite ∧ e.session = some u := by
  have hi := systemInv_of_reachable hr.reachable
  obtain ⟨k, y, -, hy, hj⟩ := hi.received d m hm
  obtain ⟨⟨topic, v, author, summary⟩, rfl, hpayload⟩ := event_of_isEvent hj hevent
  obtain ⟨hv, e, m', u, he, hgot, hw, hu, hby, hsummary⟩ :=
    (tellsInv_of_reachable (server_of_system hr.reachable)).told k _ hy
  obtain ⟨c, r, ho, rfl⟩ := origin_of_got hi hgot
  have hplain := client_of_system hr c
  have hissued : r ∈ (L.clients c).issued :=
    (sentInv_of_reachable hplain.reachable).sent e.handler r
      (List.mem_of_getElem? (origin_eq_some.1 ho).2.2)
  have hby : author = some u := hby
  have hsummary : summary = writeContent r.arriving := hsummary
  subst hby hsummary
  exact ⟨v, u, e, c, r, hissued, hpayload, hv, he, ho,
    (isWrite_of_plain ((plainInv_of_reach hplain).2 r hissued)).1 hw, hu⟩

end System

end DistRes
