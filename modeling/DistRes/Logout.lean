import DistRes.Admission

/-!
# An acknowledged LOGOUT

`_handle_logout` responds first and releases the session then, so that a LOGIN may come in between.

* `LogoutHistory` — the sessions whose LOGOUT has been acknowledged, who put the entries, when the
  requests were received, and what the two checks of each LOGIN have found;
* `LoginCheck.wrongedBy` — the LOGIN is refused because of a session that had been acknowledged closed;
* `LoginCheck.early` — the check comes before the handler of that session has released it;
* `logout_effective_iff` — the one happens exactly if the other does.
-/

namespace DistRes

open Lib

/-! ## What happens to LOGOUT and LOGIN -/

/-- A session whose LOGOUT has been acknowledged. -/
structure ClosedSession where
  userId : Text
  /-- when the response was sent -/
  time : ℕ
  /-- its slot has not been returned -/
  slot : Bool := true
  deriving DecidableEq

/-- The two checks of a LOGIN. -/
inductive LoginStage
  | duplicate
  | capacity
  deriving DecidableEq

/-- A check of a LOGIN, with what there was then. -/
structure LoginCheck (H : Type) where
  userId : Text
  /-- when the LOGIN was received -/
  started : ℕ
  stage : LoginStage
  refused : Bool
  /-- who has put the entry of the user -/
  owner : Option H
  free : ℕ
  closed : H → Option ClosedSession
  point : H → SessionPoint

structure LogoutHistory (H : Type) where
  clock : ℕ := 0
  entries : Text → Option H := fun _ => none
  closed : H → Option ClosedSession := fun _ => none
  started : H → ℕ := fun _ => 0
  checks : List (LoginCheck H) := []

section History

variable {H : Type} [DecidableEq H]

/-- The client gets the OK response to its LOGOUT in this step. -/
def HandlerPc.acknowledges : HandlerPc H → HandlerAct → Bool
  | .respond _ .release, .go => true
  | _, _ => false

/-- The request is answered, and nothing else is done for it. -/
def HandlerPc.refuses : HandlerPc H → Bool
  | .respond _ .loop => true
  | _ => false

def entriesAfter (h : H) (entries : Text → Option H) : Option SessionEvent → Text → Option H
  | some (.registered u) => Function.update entries u (some h)
  | some (.unregistered u) => Function.update entries u none
  | _ => entries

/-- A session that is closed goes on to return its slot, until the handler takes one again. -/
def closedAfter (d : Option ClosedSession) : Option SessionEvent → Option ClosedSession
  | some .acquired => none
  | some .released => d.map fun d => { d with slot := false }
  | _ => d

variable (cfg : Config)

/-- The check of a step. -/
def LogoutHistory.check (g : LogoutHistory H) (s : Pool.State H (DistResServer H) (ClientHandler H))
    (x : H × HandlerAct) (s' : Pool.State H (DistResServer H) (ClientHandler H)) :
    Option (LoginCheck H) :=
  let found (u : Text) (stage : LoginStage) : LoginCheck H :=
    { userId := u, started := g.started x.1, stage, refused := (s'.thread x.1).pc.refuses
      owner := g.entries u, free := s.shared.sessions, closed := g.closed
      point := fun k => (s.thread k).pc.point }
  match (s.thread x.1).pc, x.2 with
  | .login _ (.isActive u _), .go => some (found u .duplicate)
  | .login _ (.acquire u _), .go => some (found u .capacity)
  | _, _ => none

/-- The history after a step. -/
def LogoutHistory.next (g : LogoutHistory H) (s : Pool.State H (DistResServer H) (ClientHandler H))
    (x : H × HandlerAct) (s' : Pool.State H (DistResServer H) (ClientHandler H)) : LogoutHistory H :=
  let l := s.thread x.1
  let e := sessionEvent cfg s.shared l.pc x.2
  { clock := g.clock + 1
    entries := entriesAfter x.1 g.entries e
    closed := Function.update g.closed x.1
      (match l.pc.acknowledges x.2, l.userId with
        | true, some u => some { userId := u, time := g.clock }
        | _, _ => closedAfter (g.closed x.1) e)
    started := match x.2 with
      | .receive _ => Function.update g.started x.1 g.clock
      | _ => g.started
    checks := g.checks ++ (g.check s x s').toList }

/-- The server, with what has happened to LOGOUT and LOGIN. -/
def logoutServer (H : Type) [DecidableEq H] (file : Bytes) :=
  (serverMachine cfg H file).withHistory ({} : LogoutHistory H) fun g s x s' => g.next cfg s x s'

/-- Each user id is held by one handler at most. -/
abbrev OneHolder (s : Pool.State H (DistResServer H) (ClientHandler H)) : Prop :=
  ∀ h k, (s.thread h).userId ≠ none → (s.thread h).userId = (s.thread k).userId → h = k

/-! ## Refused, and early -/

/-- `unregister_session` is still to come in `_release_session`. -/
def SessionPoint.entryDue : SessionPoint → Bool
  | .release (.unsubscribe _) _ | .release (.unregister _) _ => true
  | _ => false

/-- `sessions.release()` is still to come in `_release_session`. -/
def SessionPoint.slotDue : SessionPoint → Bool
  | .release (.unsubscribe _) _ | .release (.unregister _) _ | .release .clear _
  | .release .free _ => true
  | _ => false

/-- The session of the LOGIN's user that `h` had acknowledged closed before the LOGIN was received. -/
def LoginCheck.before (c : LoginCheck H) (h : H) : Option ClosedSession :=
  (c.closed h).filter fun d => d.userId = c.userId && d.time < c.started

/-- The LOGIN is refused because of such a session: it finds the entry of the session, or no slot
while that of the session has not been returned. -/
def LoginCheck.wrongedBy (c : LoginCheck H) (h : H) : Bool :=
  c.refused && (c.before h).any fun d =>
    match c.stage with
    | .duplicate => c.owner = some h
    | .capacity => d.slot

/-- The check comes before `h` has released such a session: before `unregister_session`, or, with no
slot free, before `sessions.release()`. -/
def LoginCheck.early (c : LoginCheck H) (h : H) : Bool :=
  (c.before h).any fun _ =>
    match c.stage with
    | .duplicate => (c.point h).entryDue
    | .capacity => c.free = 0 && (c.point h).slotDue

end History

/-! ## A session that is closed -/

/-- Outside of a session. -/
def SessionPoint.idle : SessionPoint → Bool
  | .start | .work _ | .checked _ | .release .unhold _ | .ended => true
  | _ => false

theorem idle_iff {p : SessionPoint} (h : p.idle = true) :
    p.slotDue = false ∧ p.entryDue = false ∧ (∀ u, p ≠ .hold u) ∧ (∀ u, p ≠ .register u) ∧
      (∀ u, p ≠ .subscribe u) := by
  cases p with
  | release pc caller =>
    cases pc with
    | unhold => exact ⟨rfl, rfl, nofun, nofun, nofun⟩
    | _ => cases h
  | start | work | checked | ended => exact ⟨rfl, rfl, nofun, nofun, nofun⟩
  | _ => cases h

/-- Where the handler of a session is whose LOGOUT has been acknowledged: in `_release_session` with
it until the slot is returned, and outside of any session then. -/
structure AckInv (x : Session) (d : ClosedSession) : Prop where
  due : d.slot = true → x.point.slotDue = true ∧ x.holdsSession = true
  user : ∀ v caller, x.point = .release (.unsubscribe v) caller ∨
    x.point = .release (.unregister v) caller → v = d.userId
  gone : d.slot = false → x.userId = none ∧ x.point.idle = true ∧
    (x.holdsSession = true → ∃ caller, x.point = .release .unhold caller)

section Step

variable {H : Type} [DecidableEq H] {n : ℕ} {h : H} {r r' : Registry H} {x x' : Session}
  {e : Option SessionEvent} {d : ClosedSession}

theorem AckInv.of_idle (hu : x.userId = none) (hp : x.point.idle = true)
    (hb : x.holdsSession = true → ∃ caller, x.point = .release .unhold caller) (hd : d.slot = false) :
    AckInv x d := by
  refine ⟨fun h => absurd (h.symm.trans hd) nofun, ?_, fun _ => ⟨hu, hp, hb⟩⟩
  rintro v caller (h | h)
  · rw [h] at hp
    cases hp
  · rw [h] at hp
    cases hp

omit [DecidableEq H] in
/-- A step of a handler whose closed session has been released. -/
theorem SessionStep.idle (hs : SessionStep n h r x e r' x') (he : e ≠ some .acquired)
    (hu : x.userId = none) (hp : x.point.idle = true)
    (hb : x.holdsSession = true → ∃ caller, x.point = .release .unhold caller) :
    x'.userId = none ∧ x'.point.idle = true ∧
      (x'.holdsSession = true → ∃ caller, x'.point = .release .unhold caller) := by
  obtain ⟨hslot, -, hhold, hregister, hsubscribe⟩ := idle_iff hp
  -- the flag is up at the last point of the release only
  have hflag : ∀ {p : SessionPoint}, x.point = p → (∀ caller, p ≠ .release .unhold caller) →
      x.holdsSession = false := by
    rintro p rfl hno
    refine eq_false_of_ne_true fun h => ?_
    obtain ⟨caller, hc⟩ := hb h
    exact hno caller hc
  have hfree : x.point.free = true → x.holdsSession = false := fun h =>
    hflag rfl (by rintro caller hc; rw [hc] at h; cases h)
  have stays : ∀ {p q : SessionPoint}, x.point = p → (∀ caller, p ≠ .release .unhold caller) →
      q.idle = true → (Session.mk x.userId x.holdsSession q).userId = none ∧ q.idle = true ∧
        (x.holdsSession = true → ∃ caller, q = .release .unhold caller) := by
    intro p q h1 h2 hq
    exact ⟨hu, hq, fun h => absurd (h.symm.trans (hflag h1 h2)) nofun⟩
  cases hs with
  | work o h1 => exact ⟨hu, rfl, fun h => absurd (h.symm.trans (hfree h1)) nofun⟩
  | check u h1 =>
    obtain ⟨o, ho⟩ := h1
    exact stays ho nofun rfl
  | acquire => exact absurd rfl he
  | hold u h1 => exact absurd h1 (hhold u)
  | register u name h1 => exact absurd h1 (hregister u)
  | subscribe u h1 => exact absurd h1 (hsubscribe u)
  | reading u h1 => exact stays h1 nofun rfl
  | readDone u h1 => exact stays h1 nofun rfl
  | writing u h1 => exact stays h1 nofun rfl
  | writeDone u h1 => exact stays h1 nofun rfl
  | drop u h1 => exact stays h1 nofun rfl
  | release caller h1 =>
    obtain ⟨user, holds, point⟩ := x
    have hno : holds = false := hfree h1
    subst hu hno
    cases caller with
    | logout => exact ⟨rfl, rfl, nofun⟩
    | cleanup => exact ⟨rfl, rfl, nofun⟩
  | unhold caller h1 =>
    refine ⟨hu, ?_, nofun⟩
    cases caller <;> rfl
  | unsubscribe _ _ h1 | unregister _ _ h1 | clear _ h1 | free _ h1 | overlogout h1 | overclean h1 =>
    rw [h1] at hslot
    cases hslot

omit [DecidableEq H] in
theorem AckInv.step (hi : AckInv x d) (hs : SessionStep n h r x e r' x') (hv : x.Valid)
    (hlt : ∀ caller, x.point = .release .free caller → r.sessions < n) :
    ∀ d' ∈ closedAfter (some d) e, AckInv x' d' ∧ d'.userId = d.userId ∧ d'.time = d.time := by
  cases hd : d.slot with
  | false =>
    obtain ⟨hu, hp, hb⟩ := hi.gone hd
    obtain ⟨hslot, -⟩ := idle_iff hp
    by_cases he : e = some .acquired
    · subst he
      exact nofun
    · obtain ⟨hu', hp', hb'⟩ := hs.idle he hu hp hb
      have hclosed : closedAfter (some d) e = some d := by
        cases hs with
        | acquire => exact absurd rfl he
        | free caller h1 =>
          rw [h1] at hslot
          cases hslot
        | _ => rfl
      rw [hclosed]
      rintro d' ⟨rfl⟩
      exact ⟨.of_idle hu' hp' hb' hd, rfl, rfl⟩
  | true =>
    obtain ⟨hp, hb⟩ := hi.due hd
    have other : ∀ {p : SessionPoint}, x.point = p → p.slotDue = false → False := by
      rintro p rfl h
      exact absurd (h.symm.trans hp) nofun
    have keeps : ∀ {q : SessionPoint} {o : Option Text}, q.slotDue = true →
        (∀ v caller, q = .release (.unsubscribe v) caller ∨ q = .release (.unregister v) caller →
          v = d.userId) → AckInv ⟨o, x.holdsSession, q⟩ d := by
      intro q o hq huser
      exact ⟨fun _ => ⟨hq, hb⟩, huser, fun h => absurd (h.symm.trans hd) nofun⟩
    cases hs with
    | work _ h1 | release _ h1 =>
      exfalso
      cases hpoint : x.point with
      | start | work | checked => exact other hpoint rfl
      | _ =>
        rw [hpoint] at h1
        cases h1
    | check u h1 =>
      obtain ⟨o, ho⟩ := h1
      exact (other ho rfl).elim
    | acquire u h1 | hold u h1 | register u _ h1 | subscribe u h1 | reading u h1 | readDone u h1
    | writing u h1 | writeDone u h1 | drop u h1 | unhold u h1 => exact (other h1 rfl).elim
    | unsubscribe u caller h1 =>
      rintro d' ⟨rfl⟩
      refine ⟨keeps rfl ?_, rfl, rfl⟩
      rintro v caller' (h | h)
      · cases h
      · cases h
        exact hi.user u caller (.inl h1)
    | unregister u caller h1 =>
      rintro d' ⟨rfl⟩
      exact ⟨keeps rfl (by rintro v c (h | h) <;> cases h), rfl, rfl⟩
    | clear caller h1 =>
      rintro d' ⟨rfl⟩
      obtain ⟨user, holds, point⟩ := x
      have hyes : holds = true := hb
      subst hyes
      exact ⟨keeps rfl (by rintro v c (h | h) <;> cases h), rfl, rfl⟩
    | free caller h1 h2 =>
      rintro d' ⟨rfl⟩
      have hval := hv.2
      rw [h1] at hval
      exact ⟨.of_idle hval.1 rfl (fun _ => ⟨caller, rfl⟩) rfl, rfl, rfl⟩
    | overlogout h1 h2 => exact absurd (hlt _ h1) (Nat.not_lt.2 h2)
    | overclean h1 h2 => exact absurd (hlt _ h1) (Nat.not_lt.2 h2)

end Step

/-! ## Entries -/

/-- A point of a session at which its entry has been put, and not been removed. -/
def SessionPoint.registered : SessionPoint → Bool
  | .register _ | .release .clear _ => false
  | _ => true

/-- **The invariant of the entries**: that of a session is there from `register_session` to
`unregister_session`, and that of a closed one is gone then. -/
structure EntryInv {H : Type} (r : Registry H) (x : H → Session) (entries : Text → Option H)
    (closed : H → Option ClosedSession) : Prop where
  ack : ∀ h, ∀ d ∈ closed h, AckInv (x h) d
  present : ∀ h u, (x h).userId = some u → (x h).point.registered = true →
    entries u = some h ∧ r.activeUsers.has u = true
  absent : ∀ h, ∀ d ∈ closed h, (x h).point.entryDue = false → entries d.userId ≠ some h

section Entries

variable {H : Type} [DecidableEq H] {n : ℕ} {h : H} {r r' : Registry H} {x : H → Session}
  {x' : Session} {e : Option SessionEvent} {entries : Text → Option H}
  {closed : H → Option ClosedSession} {u : Text}

omit [DecidableEq H] in
/-- A handler touches the entry of its own user only. -/
theorem SessionStep.entries_other (hs : SessionStep n h r (x h) e r' x') (hv : (x h).Valid)
    (hu : (x h).userId ≠ some u) :
    entriesAfter h entries e u = entries u ∧ r'.activeUsers.has u = r.activeUsers.has u := by
  have hval := hv.2
  cases hs with
  | register v name h1 =>
    rw [h1] at hval
    have hne : u ≠ v := by
      rintro rfl
      exact hu hval
    exact ⟨Function.update_of_ne hne _ _, by rw [Dict.has, Dict.has, Dict.get?_set_of_ne _ _ hne]⟩
  | unregister v caller h1 =>
    rw [h1] at hval
    have hne : u ≠ v := by
      rintro rfl
      exact hu hval
    exact ⟨Function.update_of_ne hne _ _, by rw [Dict.has, Dict.has, Dict.get?_pop_of_ne _ hne]⟩
  | _ => exact ⟨rfl, rfl⟩

omit [DecidableEq H] in
/-- Only the handler itself comes to be the owner of an entry. -/
theorem entriesAfter_eq {k : H} (hk : k ≠ h) (he : entriesAfter h entries e u = some k) :
    entries u = some k := by
  unfold entriesAfter at he
  split at he
  · rename_i v
    by_cases huv : u = v
    · rw [huv, Function.update_self] at he
      exact absurd (Option.some.inj he).symm hk
    · rwa [Function.update_of_ne huv] at he
  · rename_i v
    by_cases huv : u = v
    · rw [huv, Function.update_self] at he
      cases he
    · rwa [Function.update_of_ne huv] at he
  · exact he

theorem registered_of_free {p : SessionPoint} (h : p.free = true) : p.registered = true := by
  cases p <;> first | rfl | cases h

theorem entryDue_of_free {p : SessionPoint} (h : p.free = true) : p.entryDue = false := by
  cases p <;> first | rfl | cases h

omit [DecidableEq H] in
theorem SessionStep.present (hs : SessionStep n h r (x h) e r' x') (hv : (x h).Valid)
    (hi : ∀ u, (x h).userId = some u → (x h).point.registered = true →
      entries u = some h ∧ r.activeUsers.has u = true)
    (hu : x'.userId = some u) (hp : x'.point.registered = true) :
    entriesAfter h entries e u = some h ∧ r'.activeUsers.has u = true := by
  have hval := hv.2
  have stays : ∀ {p : SessionPoint}, (x h).point = p → p.registered = true → (x h).userId = some u →
      entries u = some h ∧ r.activeUsers.has u = true := by
    rintro p rfl h1 h2
    exact hi u h2 h1
  cases hs with
  | work o h1 => exact stays rfl (registered_of_free h1) hu
  | check v h1 =>
    obtain ⟨o, ho⟩ := h1
    exact stays ho rfl hu
  | hold => cases hp
  | register v name h1 =>
    rw [h1] at hval
    have huv : u = v := Option.some.inj (hu.symm.trans hval)
    subst huv
    exact ⟨Function.update_self .., by rw [Dict.has, Dict.get?_set_self]; rfl⟩
  | acquire v h1 | subscribe v h1 | reading v h1 | readDone v h1 | writing v h1 | writeDone v h1
  | drop v h1 | unsubscribe v _ h1 | overclean h1 => exact stays h1 rfl hu
  | overlogout h1 =>
    rw [release_userId] at hu
    exact stays h1 rfl hu
  | release caller h1 =>
    rw [release_userId] at hu
    exact stays rfl (registered_of_free h1) hu
  | unregister => cases hp
  | clear caller h1 =>
    rw [release_userId] at hu
    cases hu
  | free caller h1 | unhold caller h1 => exact stays h1 rfl hu

omit [DecidableEq H] in
theorem SessionStep.absent {d : ClosedSession} (hs : SessionStep n h r (x h) e r' x')
    (hack : AckInv (x h) d) (he : e ≠ some .acquired)
    (hi : (x h).point.entryDue = false → entries d.userId ≠ some h) (hp : x'.point.entryDue = false) :
    entriesAfter h entries e d.userId ≠ some h := by
  cases hs with
  | register v name h1 =>
    exfalso
    cases hd : d.slot with
    | true =>
      have := (hack.due hd).1
      rw [h1] at this
      cases this
    | false => exact (idle_iff (hack.gone hd).2.1).2.2.2.1 v h1
  | unregister v caller h1 =>
    have huv : v = d.userId := hack.user v caller (.inr h1)
    rw [entriesAfter, huv, Function.update_self]
    exact nofun
  | unsubscribe => cases hp
  | release _ h1 | work _ h1 => exact hi (entryDue_of_free h1)
  | check v h1 =>
    obtain ⟨o, ho⟩ := h1
    exact hi (by rw [ho]; rfl)
  | acquire v h1 => exact absurd rfl he
  | hold v h1 | subscribe v h1 | reading v h1 | readDone v h1 | writing v h1 | writeDone v h1
  | drop v h1 | clear v h1 | free v h1 | unhold v h1 | overlogout h1 | overclean h1 =>
    exact hi (by rw [h1]; rfl)

/-- `h` moves, and what becomes of its closed session is `d`. -/
theorem EntryInv.moves (hi : EntryInv r x entries closed) (hv : ∀ k, (x k).Valid)
    (hone : ∀ k, (x h).userId ≠ none → (x h).userId = (x k).userId → h = k)
    (hs : SessionStep n h r (x h) e r' x') {d : Option ClosedSession} (hack : ∀ c ∈ d, AckInv x' c)
    (habsent : ∀ c ∈ d, x'.point.entryDue = false → entriesAfter h entries e c.userId ≠ some h) :
    EntryInv r' (Function.update x h x') (entriesAfter h entries e) (Function.update closed h d) := by
  refine ⟨fun k c hc => ?_, fun k u hu hp => ?_, fun k c hc hp => ?_⟩
  all_goals by_cases hk : k = h
  · subst hk
    rw [Function.update_self] at hc ⊢
    exact hack c hc
  · rw [Function.update_of_ne hk] at hc ⊢
    exact hi.ack k c hc
  · subst hk
    rw [Function.update_self] at hu hp
    exact hs.present (hv k) (hi.present k) hu hp
  · rw [Function.update_of_ne hk] at hu hp
    obtain ⟨h1, h2⟩ := hi.present k u hu hp
    have hno : (x h).userId ≠ some u := by
      intro huh
      exact hk (hone k (by rw [huh]; exact nofun) (huh.trans hu.symm)).symm
    have hother : entriesAfter h entries e u = entries u ∧
        r'.activeUsers.has u = r.activeUsers.has u := hs.entries_other (hv h) hno
    exact ⟨hother.1.trans h1, hother.2.trans h2⟩
  · subst hk
    rw [Function.update_self] at hc hp
    exact habsent c hc hp
  · rw [Function.update_of_ne hk] at hc hp
    exact fun he => hi.absent k c hc hp (entriesAfter_eq hk he)

/-- A step that acknowledges nothing. -/
theorem EntryInv.step (hi : EntryInv r x entries closed) (hv : ∀ k, (x k).Valid)
    (hlt : ∀ caller, (x h).point = .release .free caller → r.sessions < n)
    (hone : ∀ k, (x h).userId ≠ none → (x h).userId = (x k).userId → h = k)
    (hs : SessionStep n h r (x h) e r' x') :
    EntryInv r' (Function.update x h x') (entriesAfter h entries e)
      (Function.update closed h (closedAfter (closed h) e)) := by
  cases hc : closed h with
  | none =>
    have hnone : closedAfter none e = none := by
      unfold closedAfter
      split <;> rfl
    rw [hnone]
    exact hi.moves hv hone hs nofun nofun
  | some d =>
    have hack := hi.ack h d hc
    refine hi.moves hv hone hs (fun c hd => (hack.step hs (hv h) hlt c hd).1) fun c hd hp => ?_
    have he : e ≠ some .acquired := by
      rintro rfl
      cases hd
    rw [(hack.step hs (hv h) hlt c hd).2.1]
    exact hs.absent hack he (hi.absent h d hc) hp

/-- A LOGOUT of `u` is acknowledged. -/
theorem EntryInv.closes (n : ℕ) (hi : EntryInv r x entries closed) (hv : ∀ k, (x k).Valid)
    (hone : ∀ k, (x h).userId ≠ none → (x h).userId = (x k).userId → h = k)
    (hp : (x h).point = .work none) (hu : (x h).userId = some u) (time : ℕ) :
    EntryInv r (Function.update x h ((x h).release .logout)) entries
      (Function.update closed h (some { userId := u, time })) := by
  have hs : SessionStep n h r (x h) none r ((x h).release .logout) := .release .logout (by rw [hp]; rfl)
  have hpoint : ((x h).release .logout).point = .release (.unsubscribe u) .logout := by
    rw [Session.release, hu]
  have hb : ((x h).release .logout).holdsSession = true := by
    have := (hv h).1 u hu
    rw [Session.release, hu]
    exact this
  refine hi.moves (n := n) hv hone hs ?_ ?_
  · rintro c ⟨rfl⟩
    refine ⟨fun _ => ⟨by rw [hpoint]; rfl, hb⟩, ?_, nofun⟩
    rintro v caller (h | h)
    · rw [hpoint] at h
      cases h
      rfl
    · rw [hpoint] at h
      cases h
  · rintro c ⟨rfl⟩ hno
    rw [hpoint] at hno
    cases hno

omit [DecidableEq H] in
/-- A closed session is in the registry, under its handler, until `unregister_session`. -/
theorem EntryInv.entry_iff (hi : EntryInv r x entries closed) (hv : ∀ k, (x k).Valid) {k : H}
    {d : ClosedSession} (hd : d ∈ closed k) :
    r.activeUsers.has d.userId = true ∧ entries d.userId = some k ↔ (x k).point.entryDue = true := by
  constructor
  · rintro ⟨-, he⟩
    by_contra hno
    exact hi.absent k d hd (eq_false_of_ne_true hno) he
  · intro hdue
    have hval := (hv k).2
    have user := (hi.ack k d hd).user
    have hfound : ∀ v, v = d.userId → (x k).userId = some v → (x k).point.registered = true →
        r.activeUsers.has d.userId = true ∧ entries d.userId = some k := by
      rintro v rfl hu hp
      exact (hi.present k _ hu hp).symm
    unfold SessionPoint.entryDue at hdue
    split at hdue
    · rename_i v caller hp
      rw [hp] at hval
      exact hfound v (user v caller (.inl hp)) hval (by rw [hp]; rfl)
    · rename_i v caller hp
      rw [hp] at hval
      exact hfound v (user v caller (.inr hp)) hval (by rw [hp]; rfl)
    · cases hdue

omit [DecidableEq H] in
/-- It has its slot until `sessions.release()`. -/
theorem EntryInv.slot_iff (hi : EntryInv r x entries closed) {k : H} {d : ClosedSession}
    (hd : d ∈ closed k) : d.slot = true ↔ (x k).point.slotDue = true := by
  have hack := hi.ack k d hd
  constructor
  · intro hslot
    exact (hack.due hslot).1
  · intro hdue
    by_contra hno
    have := (idle_iff (hack.gone (eq_false_of_ne_true hno)).2.1).1
    exact absurd (this.symm.trans hdue) nofun

end Entries

/-! ## Every run -/

section Runs

variable {H : Type} [DecidableEq H] {cfg : Config} {file : Bytes}

omit [DecidableEq H] in
theorem of_acknowledges {pc : HandlerPc H} {a : HandlerAct} (h : pc.acknowledges a = true) :
    ∃ r, pc = .respond r .release ∧ a = .go := by
  unfold HandlerPc.acknowledges at h
  split at h
  · exact ⟨_, rfl, rfl⟩
  · cases h

theorem entryInv_of_reach [Fintype H]
    {p : Pool.State H (DistResServer H) (ClientHandler H) × LogoutHistory H}
    (hr : (logoutServer cfg H file).Reach (fun p _ => OneHolder p.1) p) :
    EntryInv p.1.shared.registry (fun h => (p.1.thread h).session) p.2.entries p.2.closed := by
  refine hr.invariant (fun p => EntryInv p.1.shared.registry (fun h => (p.1.thread h).session)
    p.2.entries p.2.closed) ?_ ?_
  · rintro ⟨s, g⟩ ⟨⟨-, hth⟩, hg⟩
    simp only at hg ⊢
    subst hg
    refine ⟨nofun, fun h u hu => ?_, nofun⟩
    rw [show s.thread h = {} from hth h] at hu
    cases hu
  · rintro ⟨s, g⟩ ⟨h, a⟩ ⟨s', g'⟩ hreach hi hone hs
    obtain ⟨hs, hg⟩ := Machine.withHistory_step.1 hs
    obtain ⟨d, l, hstep, rfl⟩ := Pool.machine_step.1 hs
    simp only at hg hi hone hstep ⊢
    subst hg
    have hserver : (serverMachine cfg H file).Reachable s :=
      Machine.Reach.erase (M := serverMachine cfg H file) (p := (s, g)) hreach.reachable
    obtain ⟨slots, hslots⟩ := slotInv_of_reachable hserver
    have hordinary := hi.step hslots.valid (fun c hp => hslots.free_lt c hp) (hone h)
      (handlerStep_session hstep)
    rw [session_update]
    simp only [LogoutHistory.next]
    cases hack : (s.thread h).pc.acknowledges a with
    | false => exact hordinary
    | true =>
      obtain ⟨r, hpc, rfl⟩ := of_acknowledges hack
      cases hu : (s.thread h).userId with
      | none => exact hordinary
      | some u =>
        have hpoint : (s.thread h).session.point = .work none := by
          rw [ClientHandler.session, hpc]
          rfl
        have hcloses := hi.closes cfg.maxSessions hslots.valid (hone h) hpoint hu g.clock
        have hs : handlerStep cfg h s.shared (s.thread h) .go = some (d, l) := hstep
        obtain ⟨-, rfl, rfl⟩ := respond_step hpc hs
        rw [hpc, ClientHandler.proceed, releaseSession_session]
        exact hcloses

omit [DecidableEq H] in
theorem before_eq_some {c : LoginCheck H} {k : H} {d : ClosedSession} :
    c.before k = some d ↔ c.closed k = some d ∧ d.userId = c.userId ∧ d.time < c.started := by
  simp [LoginCheck.before, Option.filter_eq_some_iff]

theorem refuses_duplicate {h : H} {s s' : DistResServer H} {l l' : ClientHandler H} {id : Json}
    {u n : Text} (hpc : l.pc = .login id (.isActive u n))
    (hs : handlerStep cfg h s l .go = some (s', l')) : l'.pc.refuses = s.isActive u := by
  simp only [handlerStep, hpc, handleLogin] at hs
  split_ifs at hs with hact
  · cases hs
    exact hact.symm
  · cases hs
    exact (eq_false_of_ne_true hact).symm

theorem refuses_capacity {h : H} {s s' : DistResServer H} {l l' : ClientHandler H} {id : Json}
    {u n : Text} (hpc : l.pc = .login id (.acquire u n))
    (hs : handlerStep cfg h s l .go = some (s', l')) : l'.pc.refuses = decide (s.sessions = 0) := by
  simp only [handlerStep, hpc, handleLogin] at hs
  split_ifs at hs with hfree
  · cases hs
    exact (decide_eq_true hfree).symm
  · cases hs
    exact (decide_eq_false hfree).symm

/-- **A check of a LOGIN** is refused because of a closed session exactly if it comes before the
release of that session. -/
theorem wrongedBy_eq_early {s s' : Pool.State H (DistResServer H) (ClientHandler H)}
    {g : LogoutHistory H} {y : H × HandlerAct} {c : LoginCheck H}
    (hi : EntryInv s.shared.registry (fun h => (s.thread h).session) g.entries g.closed)
    (hv : ∀ k, (s.thread k).session.Valid) (hs : (serverMachine cfg H file).step s y = some s')
    (hc : g.check s y s' = some c) (k : H) : c.wrongedBy k = c.early k := by
  obtain ⟨h, a⟩ := y
  obtain ⟨d, l, hstep, rfl⟩ := Pool.machine_step.1 hs
  unfold LogoutHistory.check at hc
  simp only [Function.update_self] at hc hstep
  split at hc
  · rename_i id u n hpc
    cases hc
    have href := refuses_duplicate hpc hstep
    rw [Bool.eq_iff_iff]
    simp only [LoginCheck.wrongedBy, LoginCheck.early, Bool.and_eq_true, Option.any_eq_true,
      decide_eq_true_eq, href]
    constructor
    · rintro ⟨hact, d, hd, howner⟩
      obtain ⟨hclosed, rfl, -⟩ := before_eq_some.1 hd
      exact ⟨d, hd, (hi.entry_iff hv hclosed).1 ⟨hact, howner⟩⟩
    · rintro ⟨d, hd, hdue⟩
      obtain ⟨hclosed, rfl, -⟩ := before_eq_some.1 hd
      obtain ⟨hact, howner⟩ := (hi.entry_iff hv hclosed).2 hdue
      exact ⟨hact, d, hd, howner⟩
  · rename_i id u n hpc
    cases hc
    have href := refuses_capacity hpc hstep
    rw [Bool.eq_iff_iff]
    simp only [LoginCheck.wrongedBy, LoginCheck.early, Bool.and_eq_true, Option.any_eq_true,
      decide_eq_true_eq, href]
    constructor
    · rintro ⟨hfree, d, hd, hslot⟩
      obtain ⟨hclosed, -⟩ := before_eq_some.1 hd
      exact ⟨d, hd, hfree, (hi.slot_iff hclosed).1 hslot⟩
    · rintro ⟨d, hd, hfree, hdue⟩
      obtain ⟨hclosed, -⟩ := before_eq_some.1 hd
      exact ⟨hfree, d, hd, (hi.slot_iff hclosed).2 hdue⟩
  · cases hc

theorem checks_of_reach [Fintype H]
    {p : Pool.State H (DistResServer H) (ClientHandler H) × LogoutHistory H}
    (hr : (logoutServer cfg H file).Reach (fun p _ => OneHolder p.1) p) :
    ∀ c ∈ p.2.checks, ∀ h, c.wrongedBy h = c.early h := by
  refine hr.invariant (fun p => ∀ c ∈ p.2.checks, ∀ h, c.wrongedBy h = c.early h) ?_ ?_
  · rintro ⟨s, g⟩ ⟨-, hg⟩
    simp only at hg ⊢
    subst hg
    exact nofun
  · rintro ⟨s, g⟩ y ⟨s', g'⟩ hreach hi - hs
    obtain ⟨hmove, hg⟩ := Machine.withHistory_step.1 hs
    simp only at hmove hg hi ⊢
    subst hg
    have hserver : (serverMachine cfg H file).Reachable s :=
      Machine.Reach.erase (M := serverMachine cfg H file) (p := (s, g)) hreach.reachable
    obtain ⟨slots, hslots⟩ := slotInv_of_reachable hserver
    intro c hc k
    rcases List.mem_append.1 hc with hc | hc
    · exact hi c hc k
    · exact wrongedBy_eq_early (entryInv_of_reach hreach) hslots.valid hmove (Option.mem_toList.1 hc) k

/-- **An acknowledged LOGOUT and the next LOGIN.**  In every run in which a user id is held by one
handler at most: no LOGIN is refused because of a session whose LOGOUT had been acknowledged before,
exactly if every check of a LOGIN finds such a session released, its entry for the duplicate check,
and, with no slot free, its slot for the semaphore. -/
theorem logout_effective_iff [Fintype H]
    {p : Pool.State H (DistResServer H) (ClientHandler H) × LogoutHistory H}
    (hr : (logoutServer cfg H file).Reach (fun p _ => OneHolder p.1) p) :
    (∀ c ∈ p.2.checks, ∀ h, c.wrongedBy h = false) ↔ ∀ c ∈ p.2.checks, ∀ h, c.early h = false := by
  have hall := checks_of_reach hr
  constructor
  · intro hno c hc h
    rw [← hall c hc h]
    exact hno c hc h
  · intro hno c hc h
    rw [hall c hc h]
    exact hno c hc h

/-- `h` logs in and asks for a LOGOUT, and takes `n` steps from the response on; then `k` tries to log
in as the same user, and takes `m` steps. -/
def takeOverRun (h k : H) (n m : ℕ) : List (H × HandlerAct) :=
  let login := requestMessage 1 actionLogin (loginParams (lit "ENG001") (lit "Alice"))
  (h, .accept) :: acceptLogin h (lit "ENG001") (lit "Alice") ++
    (h, .receive (requestMessage 2 actionLogout [])) :: List.replicate n (h, .go) ++
    (k, .accept) :: (k, .receive login) :: List.replicate m (k, .go)

/-- The release is over before `k` tries. -/
theorem takeOverRun_admitted :
    ∃ p, (logoutServer shippedConfig (Fin 2) []).runIf (fun p _ => OneHolder p.1)
        (serverStart shippedConfig, {}) (takeOverRun 0 1 6 8) = some p ∧
      p.2.checks.length = 4 ∧ ∀ c ∈ p.2.checks, ∀ h, c.wrongedBy h = false := by
  have hs : ((logoutServer shippedConfig (Fin 2) []).runIf (fun p _ => OneHolder p.1)
      (serverStart shippedConfig, {}) (takeOverRun 0 1 6 8)).map (fun p =>
        (p.2.checks.length, decide (∀ c ∈ p.2.checks, ∀ h, c.early h = false))) = some (4, true) := by
    decide
  obtain ⟨p, hrun, hval⟩ := Option.map_eq_some_iff.1 hs
  simp only [Prod.mk.injEq, decide_eq_true_eq] at hval
  have h0 : (logoutServer shippedConfig (Fin 2) []).Reach (fun p _ => OneHolder p.1)
      (serverStart shippedConfig, {}) := .init ⟨⟨rfl, fun _ => rfl⟩, rfl⟩
  exact ⟨p, hrun, hval.1, (logout_effective_iff (h0.runIf hrun)).2 hval.2⟩

/-- `k` tries between the response and the release: the entry is found, or, one check later, with a
single slot, the slot is missed. -/
theorem takeOverRun_refused :
    (∃ p, (logoutServer shippedConfig (Fin 2) []).runIf (fun p _ => OneHolder p.1)
        (serverStart shippedConfig, {}) (takeOverRun 0 1 1 2) = some p ∧
      ∃ c ∈ p.2.checks, c.stage = .duplicate ∧ c.wrongedBy 0 = true) ∧
    ∃ p, (logoutServer singleSlot (Fin 2) []).runIf (fun p _ => OneHolder p.1)
        (serverStart singleSlot, {}) (takeOverRun 0 1 3 3) = some p ∧
      ∃ c ∈ p.2.checks, c.stage = .capacity ∧ c.wrongedBy 0 = true := by
  have hduplicate : ((logoutServer shippedConfig (Fin 2) []).runIf (fun p _ => OneHolder p.1)
      (serverStart shippedConfig, {}) (takeOverRun 0 1 1 2)).map (fun p =>
        p.2.checks.any fun c => decide (c.stage = .duplicate) && c.wrongedBy 0) = some true := by
    decide
  have hcapacity : ((logoutServer singleSlot (Fin 2) []).runIf (fun p _ => OneHolder p.1)
      (serverStart singleSlot, {}) (takeOverRun 0 1 3 3)).map (fun p =>
        p.2.checks.any fun c => decide (c.stage = .capacity) && c.wrongedBy 0) = some true := by
    decide
  obtain ⟨p, hp, hpany⟩ := Option.map_eq_some_iff.1 hduplicate
  obtain ⟨q, hq, hqany⟩ := Option.map_eq_some_iff.1 hcapacity
  simp only [List.any_eq_true, Bool.and_eq_true, decide_eq_true_eq] at hpany hqany
  exact ⟨⟨p, hp, hpany⟩, q, hq, hqany⟩

end Runs

end DistRes
