import DistRes.Lib.Pool
import DistRes.ServerSteps

/-!
# The session protocol of the handlers

The abstract side is a handler reduced to what its session is made of: its user id, its flag and
where it is in `_handle_login` and `_release_session`; the server is reduced to the semaphore and
the registries.  `SessionStep` says once what a step can do to them, and `handlerStep_session` that
the steps of the handlers are such steps.
-/

namespace DistRes

open Lib

/-! ## The abstract state -/

/-- The semaphore and the registries. -/
structure Registry (H : Type) where
  broker : PubSubBroker H
  sessions : ℕ
  activeUsers : Dict Text Text
  readers : Finset Text
  writer : Option Text

/-- Where a handler is, seen from its session.  `work (some u)` is a READ or WRITE of `u`. -/
inductive SessionPoint
  | start
  | work (u : Option Text)
  | checked (u : Text)
  | hold (u : Text)
  | register (u : Text)
  | subscribe (u : Text)
  | release (pc : ReleasePc) (caller : Caller)
  | ended

/-- A handler, seen from its session. -/
structure Session where
  userId : Option Text
  holdsSession : Bool
  point : SessionPoint

def DistResServer.registry {H : Type} (s : DistResServer H) : Registry H :=
  ⟨s.broker, s.sessions, s.activeUsers, s.readers, s.writer⟩

def HandlerPc.point {H : Type} : HandlerPc H → SessionPoint
  | .connecting => .start
  | .login _ (.acquire u _) => .checked u
  | .login _ (.hold u _) => .hold u
  | .login _ (.register u _) => .register u
  | .login _ (.subscribe u) => .subscribe u
  | .read _ u _ | .readDone _ u _ | .write _ _ u _ | .writeDone _ _ u _ => .work (some u)
  | .release pc caller => .release pc caller
  | .ended => .ended
  | _ => .work none

def ClientHandler.session {H : Type} (l : ClientHandler H) : Session :=
  ⟨l.userId, l.holdsSession, l.pc.point⟩

/-- A point from which a handler goes on to anything but the next step of a login or a release. -/
def SessionPoint.free : SessionPoint → Bool
  | .start | .work _ | .checked _ => true
  | _ => false

/-- Where `_release_session` returns to. -/
def Caller.point : Caller → SessionPoint
  | .logout => .work none
  | .cleanup => .ended

/-- Into `_release_session`. -/
def Session.release (x : Session) (caller : Caller) : Session :=
  match x.userId, x.holdsSession with
  | some u, _ => { x with point := .release (.unsubscribe u) caller }
  | none, true => { x with point := .release .free caller }
  | none, false => { x with point := caller.point }

/-- What a step does to the slots and the registries; `checked u` is a duplicate check that passes. -/
inductive SessionEvent
  | checked (u : Text)
  | acquired
  | released
  | registered (u : Text)
  | unregistered (u : Text)
  | reading (u : Text)
  | readDone (u : Text)
  | writing (u : Text)
  | writeDone (u : Text)
  deriving DecidableEq

/-- The event of a step of a handler at the given point. -/
def sessionEvent {H : Type} (cfg : Config) (s : DistResServer H) :
    HandlerPc H → HandlerAct → Option SessionEvent
  | .login _ (.isActive u _), .go => if s.isActive u then none else some (.checked u)
  | .login _ (.acquire _ _), .go => if s.sessions = 0 then none else some .acquired
  | .login _ (.register u _), .go => some (.registered u)
  | .read _ u .callback, .data _ => some (.reading u)
  | .readDone _ u _, .go => some (.readDone u)
  | .write _ _ u .callback, .data _ => some (.writing u)
  | .writeDone _ _ u _, .go => some (.writeDone u)
  | .release (.unregister u) _, .go => some (.unregistered u)
  | .release .free _, .go => if s.sessions < cfg.maxSessions then some .released else none
  | _, _ => none

/-! ## The steps -/

section Step

variable {H : Type} [DecidableEq H]

/-- **What a step of the handler `h` does** to its session and to the registries, under a maximum of
`n` sessions. -/
inductive SessionStep (n : ℕ) (h : H) (r : Registry H) (x : Session) :
    Option SessionEvent → Registry H → Session → Prop
  | work (o : Option Text) : x.point.free = true → (x.point = .work o ∨ ∀ u ∈ o, x.userId = some u) →
      SessionStep n h r x none r { x with point := .work o }
  | check (u : Text) : (∃ o, x.point = .work o) → r.activeUsers.has u = false →
      SessionStep n h r x (some (.checked u)) r { x with point := .checked u }
  | acquire (u : Text) : x.point = .checked u → 0 < r.sessions →
      SessionStep n h r x (some .acquired) { r with sessions := r.sessions - 1 } { x with point := .hold u }
  | hold (u : Text) : x.point = .hold u → SessionStep n h r x none r ⟨some u, true, .register u⟩
  | register (u username : Text) : x.point = .register u →
      SessionStep n h r x (some (.registered u)) { r with activeUsers := r.activeUsers.set u username }
        { x with point := .subscribe u }
  | subscribe (u : Text) : x.point = .subscribe u →
      SessionStep n h r x none { r with broker := r.broker.set u h } { x with point := .work none }
  | reading (u : Text) : x.point = .work (some u) →
      SessionStep n h r x (some (.reading u)) { r with readers := insert u r.readers }
        { x with point := .work (some u) }
  | readDone (u : Text) : x.point = .work (some u) →
      SessionStep n h r x (some (.readDone u)) { r with readers := r.readers.erase u }
        { x with point := .work none }
  | writing (u : Text) : x.point = .work (some u) →
      SessionStep n h r x (some (.writing u)) { r with writer := some u }
        { x with point := .work (some u) }
  | writeDone (u : Text) : x.point = .work (some u) →
      SessionStep n h r x (some (.writeDone u))
        { r with writer := if r.writer = some u then none else r.writer } { x with point := .work none }
  | drop (u : Text) : x.point = .work none →
      SessionStep n h r x none { r with broker := r.broker.pop u } { x with point := .work none }
  | release (caller : Caller) : x.point.free = true → SessionStep n h r x none r (x.release caller)
  | unsubscribe (u : Text) (caller : Caller) : x.point = .release (.unsubscribe u) caller →
      SessionStep n h r x none { r with broker := r.broker.pop u }
        { x with point := .release (.unregister u) caller }
  | unregister (u : Text) (caller : Caller) : x.point = .release (.unregister u) caller →
      SessionStep n h r x (some (.unregistered u))
        { r with
          activeUsers := r.activeUsers.pop u
          readers := r.readers.erase u
          writer := if r.writer = some u then none else r.writer }
        { x with point := .release .clear caller }
  | clear (caller : Caller) : x.point = .release .clear caller →
      SessionStep n h r x none r ({ x with userId := none }.release caller)
  | free (caller : Caller) : x.point = .release .free caller → r.sessions < n →
      SessionStep n h r x (some .released) { r with sessions := r.sessions + 1 }
        { x with point := .release .unhold caller }
  | overlogout : x.point = .release .free .logout → n ≤ r.sessions →
      SessionStep n h r x none r (x.release .cleanup)
  | overclean : x.point = .release .free .cleanup → n ≤ r.sessions →
      SessionStep n h r x none r { x with point := .ended }
  | unhold (caller : Caller) : x.point = .release .unhold caller →
      SessionStep n h r x none r ⟨x.userId, false, caller.point⟩

variable {cfg : Config} {s s' : DistResServer H} {l l' : ClientHandler H} {h : H} {a : HandlerAct}

section

omit [DecidableEq H]

theorem releaseSession_session (l : ClientHandler H) (caller : Caller) :
    (l.releaseSession caller).session = l.session.release caller := by
  obtain ⟨u, b, pc⟩ := l
  rcases u with _ | u <;> rcases b with _ | _ <;> rcases caller with _ | _ <;> rfl

theorem dispatch_session (cfg : Config) (l : ClientHandler H) (m : Json) :
    (l.dispatch cfg m).session = l.session.release .cleanup ∨
      ∃ o, (∀ u ∈ o, l.userId = some u) ∧
        (l.dispatch cfg m).session = { l.session with point := .work o } := by
  have hd := dispatch_cases cfg l m
  generalize l.dispatch cfg m = l' at hd
  cases hd with
  | notDict | unhashable => exact .inl (releaseSession_session l .cleanup)
  | ignored | login | refused | logout | ping | unknown => exact .inr ⟨none, nofun, rfl⟩
  | read u _ _ hu | write u _ _ hu => exact .inr ⟨some u, fun v hv => hu.trans hv, rfl⟩

theorem handleLogin_session {id : Json} {pc : LoginPc} (hpc : l.pc = .login id pc)
    (hs : handleLogin cfg h s l id pc = (s', l')) :
    SessionStep cfg.maxSessions h s.registry l.session (sessionEvent cfg s l.pc .go) s'.registry
      l'.session := by
  have hpoint : l.session.point = (HandlerPc.login (H := H) id pc).point := by rw [← hpc]; rfl
  rw [hpc]
  unfold handleLogin at hs
  cases pc with
  | authenticate u n =>
    simp only at hs
    split at hs
    · cases hs
      exact .work none (by rw [hpoint]; rfl) (.inr nofun)
    · cases hs
      exact .work none (by rw [hpoint]; rfl) (.inr nofun)
    · cases hs
      exact releaseSession_session l .cleanup ▸ .release .cleanup (by rw [hpoint]; rfl)
  | isActive u n =>
    simp only at hs
    split_ifs at hs with hact <;> cases hs
    · simp only [sessionEvent, if_pos hact]
      exact .work none (by rw [hpoint]; rfl) (.inr nofun)
    · simp only [sessionEvent, if_neg hact]
      exact .check u ⟨none, hpoint⟩ (Bool.eq_false_iff.2 hact)
  | acquire u n =>
    simp only at hs
    split_ifs at hs with h0 <;> cases hs
    · simp only [sessionEvent, if_pos h0]
      exact .work none (by rw [hpoint]; rfl) (.inr nofun)
    · simp only [sessionEvent, if_neg h0]
      exact .acquire u hpoint (Nat.pos_of_ne_zero h0)
  | hold u n =>
    cases hs
    exact .hold u hpoint
  | register u n =>
    cases hs
    exact .register u n hpoint
  | subscribe u =>
    cases hs
    exact .subscribe u hpoint
  | version u =>
    cases hs
    exact .work none (by rw [hpoint]; rfl) (.inr nofun)

theorem releaseStep_session {pc : ReleasePc} {caller : Caller} (hpc : l.pc = .release pc caller)
    (hs : releaseStep cfg s l caller pc = (s', l')) :
    SessionStep cfg.maxSessions h s.registry l.session (sessionEvent cfg s l.pc .go) s'.registry
      l'.session := by
  have hpoint : l.session.point = .release pc caller := by
    rw [ClientHandler.session, hpc]
    rfl
  rw [hpc]
  unfold releaseStep at hs
  cases pc with
  | unsubscribe u =>
    cases hs
    exact .unsubscribe u caller hpoint
  | unregister u =>
    cases hs
    exact .unregister u caller hpoint
  | clear =>
    cases hs
    rw [releaseSession_session]
    exact .clear caller hpoint
  | free =>
    simp only at hs
    split_ifs at hs with hlt
    · cases hs
      simp only [sessionEvent, if_pos hlt]
      exact .free caller hpoint hlt
    · simp only [sessionEvent, if_neg hlt]
      cases caller with
      | logout =>
        cases hs
        rw [ClientHandler.cleanup, releaseSession_session]
        exact .overlogout hpoint (Nat.le_of_not_lt hlt)
      | cleanup =>
        cases hs
        exact .overclean hpoint (Nat.le_of_not_lt hlt)
  | unhold =>
    cases hs
    have hl : ClientHandler.session
        ({ l with holdsSession := false, pc := caller.return } : ClientHandler H) =
          ⟨l.userId, false, caller.point⟩ := by
      cases caller <;> rfl
    rw [hl]
    exact .unhold caller hpoint

end

theorem handleRead_session {id : Json} {u : Text} {pc : ReadPc} {a : DataAct}
    (hpc : l.pc = .read id u pc) (hs : handleRead h s l id u pc a = some (s', l')) :
    SessionStep cfg.maxSessions h s.registry l.session (sessionEvent cfg s l.pc (.data a)) s'.registry
      l'.session := by
  have hpoint : l.session.point = .work (some u) := by
    rw [ClientHandler.session, hpc]
    rfl
  unfold handleRead at hs
  obtain ⟨⟨d, pc'⟩, hread, he⟩ := Option.map_eq_some_iff.1 hs
  rw [hpc]
  split at he
  · cases he
    exact .reading u hpoint
  · rename_i hcb
    cases he
    have hev : sessionEvent cfg s (.read id u pc) (.data a) = none := by
      cases pc <;> first | rfl | exact absurd rfl hcb
    rw [hev]
    exact .work (some u) (by rw [hpoint]; rfl) (.inl hpoint)

theorem handleWrite_session {id content : Json} {u : Text} {pc : WritePc} {a : DataAct}
    (hpc : l.pc = .write id content u pc) (hs : handleWrite cfg h s l id content u pc a = some (s', l')) :
    SessionStep cfg.maxSessions h s.registry l.session (sessionEvent cfg s l.pc (.data a)) s'.registry
      l'.session := by
  have hpoint : l.session.point = .work (some u) := by
    rw [ClientHandler.session, hpc]
    rfl
  unfold handleWrite at hs
  obtain ⟨⟨d, pc'⟩, hwrite, he⟩ := Option.map_eq_some_iff.1 hs
  rw [hpc]
  split at he
  · cases he
    exact .writing u hpoint
  · rename_i hcb
    cases he
    have hev : sessionEvent cfg s (.write id content u pc) (.data a) = none := by
      cases pc <;> first | rfl | exact absurd rfl hcb
    rw [hev]
    exact .work (some u) (by rw [hpoint]; rfl) (.inl hpoint)

theorem publish_session {pc pc' : PublishPc H} {ok : Bool} {broker : PubSubBroker H}
    {d : Option (H × Event)} (hpc : l.pc = .publish pc)
    (hp : publish s.broker ok pc = some (broker, pc', d)) :
    SessionStep cfg.maxSessions h s.registry l.session none ({ s with broker }.delivered d).registry
      { l with pc := .publish pc' : ClientHandler H }.session := by
  have hpoint : l.session.point = .work none := by
    rw [ClientHandler.session, hpc]
    rfl
  have hwork : SessionStep cfg.maxSessions h s.registry l.session none s.registry
      { l.session with point := .work none } := .work none (by rw [hpoint]; rfl) (.inl hpoint)
  unfold publish at hp
  split at hp
  case h_1 =>
    cases hp
    exact hwork
  case h_2 => split_ifs at hp <;> cases hp <;> exact hwork
  case h_3 =>
    cases hp
    exact hwork
  case h_4 u event todo n =>
    cases hp
    exact .drop u hpoint
  case h_5 => cases hp

/-- **Refinement.**  The steps of the handlers are steps of the session protocol. -/
theorem handlerStep_session (hs : handlerStep cfg h s l a = some (s', l')) :
    SessionStep cfg.maxSessions h s.registry l.session (sessionEvent cfg s l.pc a) s'.registry
      l'.session := by
  have hpoint : ∀ {pc : HandlerPc H}, l.pc = pc → l.session.point = pc.point := by
    rintro _ rfl
    rfl
  -- the two ways on that most steps take
  have hwork : ∀ {pc : HandlerPc H} (o : Option Text), l.pc = pc → pc.point.free = true →
      (pc.point = .work o ∨ o = none) →
      SessionStep cfg.maxSessions h s.registry l.session none s.registry
        { l.session with point := .work o } := by
    rintro _ o rfl hfree ho
    exact .work o hfree (ho.imp id (by rintro rfl; nofun))
  have hrelease : ∀ {pc : HandlerPc H} (caller : Caller), l.pc = pc → pc.point.free = true →
      SessionStep cfg.maxSessions h s.registry l.session none s.registry
        (l.releaseSession caller).session := by
    rintro _ caller rfl hfree
    rw [releaseSession_session]
    exact .release caller hfree
  cases handlerStep_cases hs with
  | accept hpc =>
    rw [hpc]
    exact hwork none hpc rfl (.inr rfl)
  | receive m hpc =>
    rw [hpc]
    rcases dispatch_session cfg l m with hd | ⟨o, ho, hd⟩
    · rw [hd]
      exact .release .cleanup (by rw [hpoint hpc]; rfl)
    · rw [hd]
      exact .work o (by rw [hpoint hpc]; rfl) (.inr ho)
  | hangup hpc =>
    rw [hpc]
    exact hrelease .cleanup hpc rfl
  | respond r next hpc =>
    rw [hpc]
    cases next with
    | loop | publish => exact hwork none hpc rfl (.inr rfl)
    | release => exact hrelease .logout hpc rfl
  | unsent r next hpc =>
    rw [hpc]
    exact hrelease .cleanup hpc rfl
  | login id pc hpc => exact handleLogin_session hpc rfl
  | authenticate _ _ _ hpc =>
    rw [hpc]
    exact hrelease .cleanup hpc rfl
  | read id u pc b hpc hread => exact handleRead_session hpc hread
  | readRaised _ _ _ hpc =>
    rw [hpc]
    exact hrelease .cleanup hpc rfl
  | readReturns id u r hpc =>
    rw [hpc]
    exact hwork (some u) hpc rfl (.inl rfl)
  | readDone id u r hpc =>
    rw [hpc]
    split
    · exact .readDone u (hpoint hpc)
    · exact .readDone u (hpoint hpc)
  | write id content u pc b hpc hwrite => exact handleWrite_session hpc hwrite
  | writeRaised _ _ _ _ hpc =>
    rw [hpc]
    exact hrelease .cleanup hpc rfl
  | writeReturns id content u r hpc =>
    rw [hpc]
    exact hwork (some u) hpc rfl (.inl rfl)
  | writeDone id content u r hpc =>
    rw [hpc]
    split
    · exact .writeDone u (hpoint hpc)
    · exact .writeDone u (hpoint hpc)
  | publish pc pc' ok b d hpc hok hp =>
    rw [hpc]
    exact publish_session hpc hp
  | published n hpc =>
    rw [hpc]
    exact hwork none hpc rfl (.inr rfl)
  | release pc caller hpc => exact releaseStep_session hpc rfl

end Step

end DistRes
