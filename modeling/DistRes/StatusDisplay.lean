import Mathlib.Data.Finset.Option
import DistRes.SessionSafety
import DistRes.Service

/-!
# The status display

What the console of the server says about its clients: how many users are logged in (`active_count`),
who is reading (`_readers`) and who is writing (`_writer`).

* A registered user has a handler whose user it is, or the entry was left behind by a handler that has
  logged in again; either way a slot of the semaphore is taken for it, so that `active_count` never
  passes `MAX_SESSIONS` (`activeCount_le`).
* A *display* is what a handler has last told the registries about itself, and `Shows` is all that a
  step does to it.  Whoever is shown is active (`shown_are_active`); whoever is active is shown, as long
  as no two handlers have the same user (`active_are_shown`).
-/

namespace DistRes

open Lib

/-- `active_count`. -/
def DistResServer.activeCount {H : Type} (s : DistResServer H) : ℕ := s.activeUsers.size

/-! ## The users that are logged in -/

section Seats

variable {H : Type} [DecidableEq H] {n : ℕ} {h : H} {r r' : Registry H} {e : Option SessionEvent}

section Handler

variable {x x' : Session}

/-- The user whom a handler leaves behind when it is about to take another one. -/
def Session.leaves (x : Session) : Option Text :=
  match x.point with
  | .hold _ => x.userId
  | _ => none

omit [DecidableEq H] in
/-- What a handler takes of the slots covers what it is to return and the user it leaves behind. -/
theorem SessionStep.seats (hs : SessionStep n h r x e r' x') (hv : x.Valid)
    (hlt : ∀ caller, x.point = .release .free caller → r.sessions < n) :
    r'.sessions + x'.owed + x.leaves.toFinset.card ≤ r.sessions + x.owed := by
  have htotal := hs.sessions hv (le_refl x.owed)
  have howed := (hs.owed hv hlt).1 (le_refl x.owed)
  have hle : r'.sessions + x'.owed ≤ r.sessions + x.owed := by omega
  cases hs with
  | hold u h1 =>
    have hx : x.owed = x.holdsSession.toNat + 1 := by simp only [Session.owed, h1]
    have hx' : Session.owed ⟨some u, true, .register u⟩ = 1 := rfl
    have hl : x.leaves = x.userId := by simp only [Session.leaves, h1]
    rw [hx, hx', hl]
    cases hu : x.userId with
    | none => simp
    | some v =>
      rw [hv.1 v hu]
      simp
  | _ =>
    have hl : x.leaves = none := by
      unfold Session.leaves
      split
      · simp_all [SessionPoint.free]
      · rfl
    rw [hl]
    exact hle

omit [DecidableEq H] in
/-- A user who is registered after a step is the handler's own, or was registered before and not the
handler's own, or is left behind. -/
theorem SessionStep.registered (hs : SessionStep n h r x e r' x') (hv : x.Valid) {u : Text}
    (hu : r'.activeUsers.has u = true) :
    x'.Owns u ∨ r.activeUsers.has u = true ∧ (x.Owns u → x.leaves = some u) := by
  -- the handler keeps its user, or is not the owner of anything
  have keeps : r.activeUsers.has u = true → (x.Owns u → x'.Owns u) →
      x'.Owns u ∨ r.activeUsers.has u = true ∧ (x.Owns u → x.leaves = some u) := by
    intro h1 h2
    by_cases ho : x.Owns u
    · exact .inl (h2 ho)
    · exact .inr ⟨h1, fun h => absurd h ho⟩
  obtain ⟨-, hpoint⟩ := hv
  cases hs with
  | work | check | acquire | subscribe | reading | readDone | writing | writeDone | drop | unsubscribe =>
    exact keeps hu fun ho => ⟨ho.1, nofun⟩
  | hold v h1 => exact .inr ⟨hu, fun ho => by simp only [Session.leaves, h1, ho.1]⟩
  | register v name h1 =>
    rw [h1] at hpoint
    by_cases huv : u = v
    · subst huv
      exact .inl ⟨hpoint, nofun⟩
    · rw [Dict.has_set_of_ne _ _ huv] at hu
      exact keeps hu fun ho => ⟨ho.1, nofun⟩
  | release caller h1 =>
    exact keeps hu fun ho => ⟨(release_userId x caller).trans ho.1, (release_point x caller).1⟩
  | unregister v caller h1 =>
    rw [h1] at hpoint
    obtain ⟨hu, hne⟩ := Dict.has_of_pop hu
    exact .inr ⟨hu, fun ho => absurd (Option.some.inj (ho.1.symm.trans hpoint)) hne⟩
  | clear caller h1 => exact .inr ⟨hu, fun ho => absurd h1 (ho.2 caller)⟩
  | free caller h1 | unhold caller h1 | overlogout h1 | overclean h1 =>
    rw [h1] at hpoint
    exact .inr ⟨hu, fun ho => by rw [ho.1] at hpoint; cases hpoint.1⟩

end Handler

variable {x : H → Session} {x' : Session}

open Classical in
/-- The users that are registered and that no handler has. -/
noncomputable def orphans (r : Registry H) (x : H → Session) : Finset Text :=
  (r.activeUsers.items.map Prod.fst).toFinset.filter fun u => ∀ h, ¬ (x h).Owns u

open Classical in
omit [DecidableEq H] in
theorem mem_orphans {u : Text} : u ∈ orphans r x ↔ r.activeUsers.has u = true ∧ ∀ h, ¬ (x h).Owns u := by
  rw [orphans, Finset.mem_filter, List.mem_toFinset, ← Dict.has_iff_mem]

variable [Fintype H]

/-- **The invariant of the registered users.**  Slots are taken for what the handlers are to return, and
for every user that nobody has. -/
def SeatInv (n : ℕ) (r : Registry H) (x : H → Session) : Prop :=
  r.sessions + ∑ h, (x h).owed + (orphans r x).card ≤ n

theorem SeatInv.step (hi : SeatInv n r x) (hs : SessionStep n h r (x h) e r' x') (hv : (x h).Valid)
    (hlt : ∀ caller, (x h).point = .release .free caller → r.sessions < n) :
    SeatInv n r' (Function.update x h x') := by
  have hsub : orphans r' (Function.update x h x') ⊆ orphans r x ∪ (x h).leaves.toFinset := by
    intro u hu
    obtain ⟨hin, hnone⟩ := mem_orphans.1 hu
    rw [Finset.mem_union, Option.mem_toFinset, Option.mem_def]
    rcases hs.registered hv hin with ho | ⟨hbefore, hleft⟩
    · exact absurd (by rwa [Function.update_self]) (hnone h)
    · by_cases ho : (x h).Owns u
      · exact .inr (hleft ho)
      · refine .inl (mem_orphans.2 ⟨hbefore, fun k hk => ?_⟩)
        by_cases hkh : k = h
        · exact ho (hkh ▸ hk)
        · exact hnone k (by rwa [Function.update_of_ne hkh])
  have hcard := (Finset.card_le_card hsub).trans (Finset.card_union_le _ _)
  have hseats := hs.seats hv hlt
  have hsum := sum_update (fun k => (x k).owed) h x'.owed
  have howed : ∀ k, (Function.update x h x' k).owed = Function.update (fun k => (x k).owed) h x'.owed k :=
    fun k => Function.apply_update (fun _ y => Session.owed y) x h x' k
  unfold SeatInv at hi ⊢
  simp only [howed]
  omega

/-- A handler with a user is to return a slot. -/
theorem owed_of_user {y : Session} {u : Text} (hv : y.Valid) (hu : y.userId = some u) : 1 ≤ y.owed := by
  obtain ⟨hholds, hpoint⟩ := hv
  unfold Session.owed
  split
  · omega
  · rename_i hp
    rw [hp] at hpoint
    rw [hu] at hpoint
    cases hpoint.1
  · rw [hholds u hu]
    exact le_refl 1

omit [DecidableEq H] in
/-- The registered users are no more than the slots that are taken. -/
theorem SeatInv.size_le (hi : SeatInv n r x) (hv : ∀ h, (x h).Valid) :
    r.activeUsers.size + r.sessions ≤ n := by
  classical
  have hsize : r.activeUsers.size = (r.activeUsers.items.map Prod.fst).toFinset.card := by
    rw [List.toFinset_card_of_nodup r.activeUsers.nodup, List.length_map]
    rfl
  -- the handlers whose user is registered, by their users
  have hsub : (r.activeUsers.items.map Prod.fst).toFinset ⊆
      orphans r x ∪ Finset.univ.biUnion fun h => (x h).userId.toFinset := by
    intro u hu
    rw [List.mem_toFinset, ← Dict.has_iff_mem] at hu
    by_cases ho : ∃ h, (x h).Owns u
    · obtain ⟨h, ho⟩ := ho
      exact Finset.mem_union_right _ (Finset.mem_biUnion.2 ⟨h, Finset.mem_univ h, by simp [ho.1]⟩)
    · exact Finset.mem_union_left _ (mem_orphans.2 ⟨hu, not_exists.1 ho⟩)
  have hhave : (Finset.univ.biUnion fun h => (x h).userId.toFinset).card ≤ ∑ h, (x h).owed := by
    refine Finset.card_biUnion_le.trans (Finset.sum_le_sum fun h _ => ?_)
    cases hu : (x h).userId with
    | none => exact Nat.zero_le _
    | some u => exact owed_of_user (hv h) hu
  have := (Finset.card_le_card hsub).trans (Finset.card_union_le _ _)
  unfold SeatInv at hi
  omega

/-- **`active_count` never passes `MAX_SESSIONS`.**  Whatever the clients do, in whatever order, two of
them may have one user and one of them several: the users that are registered and the slots that are
free are no more than `MAX_SESSIONS`. -/
theorem activeCount_le {cfg : Config} {file : Bytes} {s : Pool.State H (DistResServer H) (ClientHandler H)}
    (hr : (serverMachine cfg H file).Reachable s) :
    s.shared.activeCount + s.shared.sessions ≤ cfg.maxSessions := by
  have hi : SeatInv cfg.maxSessions s.shared.registry fun h => (s.thread h).session := by
    refine hr.invariant (fun s => SeatInv cfg.maxSessions s.shared.registry
      fun h => (s.thread h).session) ?_ ?_
    · rintro s ⟨hs, hth⟩
      have hs : s.shared = { data := { file := file }, sessions := cfg.maxSessions } := hs
      have hempty : orphans s.shared.registry (fun h => (s.thread h).session) = ∅ := by
        rw [hs]
        rfl
      have hzero : ∀ h, (s.thread h).session.owed = 0 := fun h => by
        rw [show s.thread h = {} from hth h]
        rfl
      unfold SeatInv
      rw [hempty, hs]
      simp [hzero, DistResServer.registry]
    · rintro s ⟨h, a⟩ s' hreach ih hs
      obtain ⟨slots, hslots⟩ := slotInv_of_reachable hreach
      obtain ⟨d, l, hstep, rfl⟩ := Pool.machine_step.1 hs
      simp only
      rw [session_update]
      exact ih.step (handlerStep_session hstep) (hslots.valid h) fun caller hp => hslots.free_lt caller hp
  obtain ⟨slots, hslots⟩ := slotInv_of_reachable hr
  exact hi.size_le hslots.valid

end Seats

/-! ## What a handler is shown to do -/

/-- The callback has been called in a call with this outcome. -/
def Outcome.called : Outcome → Bool
  | .ok r => r.ok
  | .error _ => true

/-- What a handler has told the registries: that it reads; that it writes, and whether it has the lock
for it; or it is about to take back whatever it has told. -/
inductive Display
  | hidden
  | reads (userId : Text)
  | writes (userId : Text) (locked : Bool)
  | leaves (userId : Text)
  deriving DecidableEq

def ReadPc.display (u : Text) : ReadPc → Display
  | .load | .stamp _ => .reads u
  | .release o | .done o => if o.called then .reads u else .hidden
  | .acquire _ | .refused | .callback => .hidden

def WritePc.display (u : Text) : WritePc → Display
  | .openFile | .append _ _ | .bump _ => .writes u true
  | .release o => if o.called then .writes u true else .hidden
  | .done o => if o.called then .writes u false else .hidden
  | .acquire _ | .refused | .callback => .hidden

section Handlers

variable {H : Type} [DecidableEq H] {cfg : Config} {h : H} {s s' : DistResServer H}
  {l l' : ClientHandler H} {a : HandlerAct}

def HandlerPc.display : HandlerPc H → Display
  | .read _ u pc => pc.display u
  | .readDone _ u r => if r.ok then .reads u else .hidden
  | .write _ _ u pc => pc.display u
  | .writeDone _ _ u r => if r.ok then .writes u false else .hidden
  | .release (.unsubscribe u) _ | .release (.unregister u) _ => .leaves u
  | _ => .hidden

/-- The handler is about to call `on_acquired` in a write. -/
def HandlerPc.announcing : HandlerPc H → Bool
  | .write _ _ _ .callback => true
  | _ => false

/-- **What a step of a handler does to the display**: to who is shown as reading and writing, and to what
the handler itself has told. -/
inductive Shows (l : ClientHandler H) :
    Finset Text → Option Text → Display → Finset Text → Option Text → Display → Prop
  | still (rs : Finset Text) (w : Option Text) (d : Display) : Shows l rs w d rs w d
  | reading (rs : Finset Text) (w : Option Text) (u : Text) :
      Shows l rs w .hidden (insert u rs) w (.reads u)
  | readDone (rs : Finset Text) (w : Option Text) (u : Text) {d : Display} : l.userId = some u →
      d = .reads u ∨ d = .hidden → Shows l rs w d (rs.erase u) w .hidden
  | writing (rs : Finset Text) (w : Option Text) (u : Text) : l.pc.announcing = true →
      Shows l rs w .hidden rs (some u) (.writes u true)
  | unlocked (rs : Finset Text) (w : Option Text) (u : Text) :
      Shows l rs w (.writes u true) rs w (.writes u false)
  | writeDone (rs : Finset Text) (w : Option Text) (u : Text) {d : Display} : l.userId = some u →
      d = .writes u false ∨ d = .hidden →
      Shows l rs w d rs (if w = some u then none else w) .hidden
  | leaving (rs : Finset Text) (w : Option Text) (u : Text) {d : Display} : l.userId = some u →
      d = .hidden ∨ d = .reads u ∨ d = .writes u false → Shows l rs w d rs w (.leaves u)
  | unregister (rs : Finset Text) (w : Option Text) (u : Text) : l.userId = some u →
      Shows l rs w (.leaves u) (rs.erase u) (if w = some u then none else w) .hidden

omit [DecidableEq H] in
theorem display_releaseSession (l : ClientHandler H) (caller : Caller) :
    (∃ u, l.userId = some u ∧ (l.releaseSession caller).pc.display = .leaves u) ∨
      l.userId = none ∧ (l.releaseSession caller).pc.display = .hidden := by
  obtain ⟨u, b, pc⟩ := l
  rcases u with _ | u
  · refine .inr ⟨rfl, ?_⟩
    rcases b with _ | _ <;> rcases caller with _ | _ <;> rfl
  · exact .inl ⟨u, rfl, rfl⟩

omit [DecidableEq H] in
/-- Into `_release_session`, from nothing shown or from a call that has raised. -/
theorem shows_releaseSession {rs : Finset Text} {w : Option Text} {d : Display} (caller : Caller)
    (hd : d = .hidden ∨ ∃ u, l.userId = some u ∧ (d = .reads u ∨ d = .writes u false)) :
    Shows l rs w d rs w (l.releaseSession caller).pc.display := by
  rcases display_releaseSession l caller with ⟨u, hu, hl⟩ | ⟨hu, hl⟩
  · rw [hl]
    refine .leaving rs w u hu (hd.imp_right ?_)
    rintro ⟨v, hv, hd⟩
    obtain rfl := Option.some.inj (hu.symm.trans hv)
    exact hd
  · rw [hl]
    rcases hd with rfl | ⟨v, hv, -⟩
    · exact .still rs w _
    · rw [hu] at hv
      cases hv

/-- What is told at the next point of `read_resource`. -/
theorem readStep_display {t : H} {d d' : DataLayer H} {pc pc' : ReadPc} {b : DataAct} (u : Text)
    (hs : readResource t d pc b = some (d', pc')) :
    pc = .callback ∧ pc'.display u = .reads u ∨ pc ≠ .callback ∧ pc'.display u = pc.display u := by
  cases readResource_cases hs with
  | acquire p q =>
    refine .inr ⟨nofun, ?_⟩
    unfold ReadPc.ofAcquire
    split <;> rfl
  | calledBack | callbackRaised => exact .inl ⟨rfl, rfl⟩
  | _ => exact .inr ⟨nofun, rfl⟩

/-- What is told at the next point of `write_resource`. -/
theorem writeStep_display {t : H} {d d' : DataLayer H} {x : Text} {pc pc' : WritePc} {b : DataAct}
    (u : Text) (hs : writeResource t u x d pc b = some (d', pc')) :
    pc = .callback ∧ pc'.display u = .writes u true ∨
      pc ≠ .callback ∧ (pc'.display u = pc.display u ∨
        pc.display u = .writes u true ∧ pc'.display u = .writes u false) := by
  cases writeResource_cases hs with
  | acquire p q =>
    refine .inr ⟨nofun, .inl ?_⟩
    unfold WritePc.ofAcquire
    split <;> rfl
  | calledBack | callbackRaised => exact .inl ⟨rfl, rfl⟩
  | released o k =>
    refine .inr ⟨nofun, ?_⟩
    cases ho : o.called
    · exact .inl (by simp [WritePc.display, ho])
    · exact .inr ⟨by simp only [WritePc.display, ho, if_true], by simp only [WritePc.display, ho, if_true]⟩
  | _ => exact .inr ⟨nofun, .inl rfl⟩

omit [DecidableEq H] in
theorem handleLogin_display (cfg : Config) (h : H) (s : DistResServer H) (l : ClientHandler H) (id : Json)
    (pc : LoginPc) :
    Shows l s.readers s.writer .hidden (handleLogin cfg h s l id pc).1.readers
      (handleLogin cfg h s l id pc).1.writer (handleLogin cfg h s l id pc).2.pc.display := by
  have hsame : (handleLogin cfg h s l id pc).1.readers = s.readers ∧
      (handleLogin cfg h s l id pc).1.writer = s.writer := by
    unfold handleLogin
    repeat' split
    all_goals exact ⟨rfl, rfl⟩
  rw [hsame.1, hsame.2]
  exact handleLogin_pc cfg h s id pc
    (P := fun pc' => Shows l s.readers s.writer .hidden s.readers s.writer pc'.display)
    (shows_releaseSession .cleanup (.inl rfl)) (fun _ => .still _ _ _) fun _ => .still _ _ _

theorem handleRead_display {id : Json} {u : Text} {pc : ReadPc} {b : DataAct}
    (hs : handleRead h s l id u pc b = some (s', l')) :
    Shows l s.readers s.writer (pc.display u) s'.readers s'.writer l'.pc.display := by
  unfold handleRead at hs
  obtain ⟨⟨d, pc'⟩, hread, he⟩ := Option.map_eq_some_iff.1 hs
  rcases readStep_display u hread with ⟨rfl, hd⟩ | ⟨hne, hd⟩
  · cases he
    simp only [HandlerPc.display, hd]
    exact .reading _ _ u
  · split at he
    · exact absurd rfl hne
    · cases he
      simp only [HandlerPc.display, hd]
      exact .still _ _ _

theorem handleWrite_display {id content : Json} {u : Text} {pc : WritePc} {b : DataAct}
    (hpc : l.pc = .write id content u pc) (hs : handleWrite cfg h s l id content u pc b = some (s', l')) :
    Shows l s.readers s.writer (pc.display u) s'.readers s'.writer l'.pc.display := by
  unfold handleWrite at hs
  obtain ⟨⟨d, pc'⟩, hwrite, he⟩ := Option.map_eq_some_iff.1 hs
  rcases writeStep_display u hwrite with ⟨rfl, hd⟩ | ⟨hne, hd⟩
  · cases he
    simp only [HandlerPc.display, hd]
    exact .writing _ _ u (by rw [hpc]; rfl)
  · split at he
    · exact absurd rfl hne
    · cases he
      rcases hd with hd | ⟨hd, hd'⟩
      · simp only [HandlerPc.display, hd]
        exact .still _ _ _
      · simp only [HandlerPc.display, hd, hd']
        exact .unlocked _ _ u

omit [DecidableEq H] in
theorem releaseStep_display {pc : ReleasePc} {caller : Caller} (hv : l.session.Valid)
    (hpc : l.pc = .release pc caller) :
    Shows l s.readers s.writer l.pc.display (releaseStep cfg s l caller pc).1.readers
      (releaseStep cfg s l caller pc).1.writer (releaseStep cfg s l caller pc).2.pc.display := by
  have hpoint : l.session.point = .release pc caller := by
    rw [ClientHandler.session, hpc]
    rfl
  have hval := hv.2
  rw [hpoint] at hval
  rw [hpc]
  cases pc with
  | unsubscribe u => exact .still _ _ _
  | unregister u => exact .unregister _ _ u hval
  | clear =>
    -- the user id is gone
    rcases display_releaseSession { l with userId := none } caller with ⟨u, hu, -⟩ | ⟨-, hd⟩
    · cases hu
    · simp only [releaseStep, hd]
      exact .still _ _ _
  | free =>
    have hcleanup : Shows l s.readers s.writer .hidden s.readers s.writer l.cleanup.pc.display :=
      shows_releaseSession .cleanup (.inl rfl)
    simp only [releaseStep]
    split_ifs
    · exact .still _ _ _
    · cases caller with
      | logout => exact hcleanup
      | cleanup => exact .still _ _ _
  | unhold => cases caller <;> exact .still _ _ _

/-- **The steps of the handlers, on the display.** -/
theorem handlerStep_shows (hv : l.session.Valid) (hs : handlerStep cfg h s l a = some (s', l')) :
    Shows l s.readers s.writer l.pc.display s'.readers s'.writer l'.pc.display := by
  have still : ∀ {d}, l.pc.display = d → l'.pc.display = d → s'.readers = s.readers →
      s'.writer = s.writer → Shows l s.readers s.writer l.pc.display s'.readers s'.writer l'.pc.display := by
    rintro _ rfl h2 h3 h4
    rw [h2, h3, h4]
    exact .still _ _ _
  -- the user of a call is the handler's
  have huser : ∀ {u}, l.pc.point = .work (some u) → l.userId = some u := by
    intro u hp
    have := hv.2
    rwa [show l.session.point = .work (some u) from hp] at this
  have answered : ∀ {b : Bool} {x y : ClientHandler H}, x.pc.display = .hidden → y.pc.display = .hidden →
      (if b then x else y).pc.display = .hidden := by
    rintro (_ | _) x y hx hy
    · exact hy
    · exact hx
  cases handlerStep_cases hs with
  | accept hpc => exact still (by rw [hpc]; rfl) rfl rfl rfl
  | receive m hpc =>
    have hd := dispatch_cases cfg l m
    generalize l.dispatch cfg m = l' at hd still
    have hhidden : l.pc.display = .hidden := by rw [hpc]; rfl
    cases hd with
    | notDict | unhashable => exact shows_releaseSession .cleanup (.inl hhidden)
    | _ => exact still hhidden rfl rfl rfl
  | hangup hpc => exact shows_releaseSession .cleanup (.inl (by rw [hpc]; rfl))
  | respond r next hpc =>
    have hhidden : l.pc.display = .hidden := by rw [hpc]; rfl
    cases next with
    | loop | publish => exact still hhidden rfl rfl rfl
    | release => exact shows_releaseSession .logout (.inl hhidden)
  | unsent r next hpc => exact shows_releaseSession .cleanup (.inl (by rw [hpc]; rfl))
  | authenticate _ _ _ hpc => exact shows_releaseSession .cleanup (.inl (by rw [hpc]; rfl))
  | login id pc hpc =>
    rw [hpc]
    exact handleLogin_display cfg h s l id pc
  | read id u pc b hpc hread =>
    rw [hpc]
    exact handleRead_display hread
  | readRaised id u e hpc =>
    refine shows_releaseSession .cleanup (.inr ⟨u, huser (by rw [hpc]; rfl), .inl ?_⟩)
    rw [hpc]
    rfl
  | readReturns id u r hpc => exact still (by rw [hpc]; rfl) rfl rfl rfl
  | readDone id u r hpc =>
    rw [answered rfl rfl]
    refine .readDone _ _ u (huser (by rw [hpc]; rfl)) ?_
    rw [hpc, HandlerPc.display]
    split
    · exact .inl rfl
    · exact .inr rfl
  | write id content u pc b hpc hwrite =>
    have := handleWrite_display hpc hwrite
    rw [hpc]
    exact this
  | writeRaised id content u e hpc =>
    refine shows_releaseSession .cleanup (.inr ⟨u, huser (by rw [hpc]; rfl), .inr ?_⟩)
    rw [hpc]
    rfl
  | writeReturns id content u r hpc => exact still (by rw [hpc]; rfl) rfl rfl rfl
  | writeDone id content u r hpc =>
    rw [answered rfl rfl]
    refine .writeDone _ _ u (huser (by rw [hpc]; rfl)) ?_
    rw [hpc, HandlerPc.display]
    split
    · exact .inl rfl
    · exact .inr rfl
  | publish pc pc' ok b d hpc => cases d <;> exact still (by rw [hpc]; rfl) rfl rfl rfl
  | published n hpc => exact still (by rw [hpc]; rfl) rfl rfl rfl
  | release pc caller hpc => exact releaseStep_display hv hpc

theorem ReadPc.display_cases (u : Text) (p : ReadPc) : p.display u = .hidden ∨ p.display u = .reads u := by
  cases p with
  | load | stamp => exact .inr rfl
  | release o | done o =>
    cases ho : o.called
    · exact .inl (by simp [ReadPc.display, ho])
    · exact .inr (by simp [ReadPc.display, ho])
  | acquire | refused | callback => exact .inl rfl

theorem WritePc.display_cases (u : Text) (p : WritePc) :
    p.display u = .hidden ∨ p.display u = .writes u false ∨
      p.display u = .writes u true ∧ p.role = .writer := by
  cases p with
  | openFile | append | bump => exact .inr (.inr ⟨rfl, rfl⟩)
  | release o =>
    cases ho : o.called
    · exact .inl (by simp [WritePc.display, ho])
    · exact .inr (.inr ⟨by simp [WritePc.display, ho], rfl⟩)
  | done o =>
    cases ho : o.called
    · exact .inl (by simp [WritePc.display, ho])
    · exact .inr (.inl (by simp [WritePc.display, ho]))
  | acquire | refused | callback => exact .inl rfl

section

omit [DecidableEq H]

/-- **What a handler has told**, and where it is then. -/
theorem HandlerPc.display_cases (cfg : Config) (pc : HandlerPc H) :
    pc.display = .hidden ∨ (∃ u, pc.display = .leaves u) ∨
      ∃ u, pc.point = .work (some u) ∧ (pc.display = .reads u ∨ pc.display = .writes u false ∨
        pc.display = .writes u true ∧ (pc.dataCall cfg).role = .writer) := by
  cases pc with
  | read id u p => exact (p.display_cases u).imp_right fun hd => .inr ⟨u, rfl, .inl hd⟩
  | write id content u p => exact (p.display_cases u).imp_right fun hd => .inr ⟨u, rfl, .inr hd⟩
  | readDone id u r =>
    cases hr : r.ok
    · exact .inl (by simp [HandlerPc.display, hr])
    · exact .inr (.inr ⟨u, rfl, .inl (by simp [HandlerPc.display, hr])⟩)
  | writeDone id content u r =>
    cases hr : r.ok
    · exact .inl (by simp [HandlerPc.display, hr])
    · exact .inr (.inr ⟨u, rfl, .inr (.inl (by simp [HandlerPc.display, hr]))⟩)
  | release pc caller =>
    cases pc with
    | unsubscribe u | unregister u => exact .inr (.inl ⟨u, rfl⟩)
    | _ => exact .inl rfl
  | _ => exact .inl rfl

/-- Whose call it is that a handler has told of. -/
theorem user_of_display (hv : l.session.Valid) {u : Text}
    (hd : l.pc.display = .reads u ∨ l.pc.display = .writes u true) : l.userId = some u := by
  rcases l.pc.display_cases shippedConfig with hh | ⟨v, hh⟩ | ⟨v, hpoint, hh⟩
  · simp [hh] at hd
  · simp [hh] at hd
  · obtain rfl : v = u := by
      rcases hh with hh | hh | ⟨hh, -⟩ <;> simp [hh] at hd <;> exact hd
    have := hv.2
    rwa [show l.session.point = .work (some v) from hpoint] at this

theorem role_of_display {pc : HandlerPc H} {u : Text} (hd : pc.display = .writes u true) :
    (pc.dataCall cfg).role = .writer := by
  rcases pc.display_cases cfg with hh | ⟨v, hh⟩ | ⟨v, -, hh | hh | ⟨-, hrole⟩⟩
  · simp [hh] at hd
  · simp [hh] at hd
  · simp [hh] at hd
  · simp [hh] at hd
  · exact hrole

theorem role_of_announcing {pc : HandlerPc H} (ha : pc.announcing = true) :
    (pc.dataCall cfg).role = .writer := by
  unfold HandlerPc.announcing at ha
  split at ha
  · rfl
  · cases ha

end

end Handlers

/-! ## Every run -/

/-- An entry of the display. -/
inductive StatusEntry
  | reading (userId : Text)
  | writing (userId : Text)

def StatusEntry.userId : StatusEntry → Text
  | .reading u | .writing u => u

/-- The entry is there, under the given `_readers` and `_writer`. -/
def StatusEntry.shown (rs : Finset Text) (w : Option Text) : StatusEntry → Prop
  | .reading u => u ∈ rs
  | .writing u => w = some u

/-- The handler has told the entry and has not begun to take it back; a writer has the lock. -/
def Display.tells : Display → StatusEntry → Prop
  | .reads u, .reading v => u = v
  | .writes u true, .writing v => u = v
  | _, _ => False

/-- The entry may be the handler's: it has told the entry and not taken it back, or is about to unregister. -/
def Display.explains : Display → StatusEntry → Prop
  | .reads u, .reading v => u = v
  | .writes u _, .writing v => u = v
  | .leaves u, e => u = e.userId
  | _, _ => False

section Runs

variable {H : Type} [DecidableEq H] {cfg : Config} {file : Bytes} {rs rs' : Finset Text}
  {w w' : Option Text} {d₀ d' : Display} {h : H} {l : ClientHandler H} {e : StatusEntry}

theorem writer_of_reset {u v : Text} (he : (if w = some u then none else w) = some v) :
    w = some v ∧ v ≠ u := by
  split_ifs at he with hu
  exact ⟨he, fun h => hu (h ▸ he)⟩

theorem eq_of_reset {u v : Text} (he : w = some v) (he' : ¬ (if w = some u then none else w) = some v) :
    u = v := by
  by_contra hne
  refine he' ?_
  rw [he, if_neg fun h => hne (Option.some.inj h).symm]

theorem eq_of_erased {u v : Text} (he : v ∈ rs) (he' : v ∉ rs.erase u) : u = v := by
  by_contra hne
  exact he' (Finset.mem_erase.2 ⟨fun h => hne h.symm, he⟩)

section

omit [DecidableEq H]

/-- An entry that is there after a step may be the handler's, or was there before and not the handler's. -/
theorem Shows.explained (hs : Shows l rs w d₀ rs' w' d') (he : e.shown rs' w') :
    d'.explains e ∨ e.shown rs w ∧ ¬ d₀.explains e := by
  cases hs with
  | still =>
    by_cases hd : d₀.explains e
    · exact .inl hd
    · exact .inr ⟨he, hd⟩
  | reading u =>
    cases e with
    | reading v =>
      rcases Finset.mem_insert.1 he with rfl | he
      · exact .inl rfl
      · exact .inr ⟨he, id⟩
    | writing v => exact .inr ⟨he, id⟩
  | readDone u hu hd =>
    cases e with
    | reading v =>
      obtain ⟨hne, he⟩ := Finset.mem_erase.1 he
      refine .inr ⟨he, ?_⟩
      rcases hd with rfl | rfl
      · exact fun h => hne h.symm
      · exact id
    | writing v =>
      refine .inr ⟨he, ?_⟩
      rcases hd with rfl | rfl <;> exact id
  | writing u ha =>
    cases e with
    | reading v => exact .inr ⟨he, id⟩
    | writing v => exact .inl (Option.some.inj he)
  | unlocked u =>
    cases e with
    | reading v => exact .inr ⟨he, id⟩
    | writing v =>
      by_cases huv : u = v
      · exact .inl huv
      · exact .inr ⟨he, huv⟩
  | writeDone u hu hd =>
    cases e with
    | reading v =>
      refine .inr ⟨he, ?_⟩
      rcases hd with rfl | rfl <;> exact id
    | writing v =>
      obtain ⟨he, hne⟩ := writer_of_reset he
      refine .inr ⟨he, ?_⟩
      rcases hd with rfl | rfl
      · exact fun h => hne h.symm
      · exact id
  | leaving u hu hd =>
    by_cases hue : u = e.userId
    · exact .inl hue
    · refine .inr ⟨he, ?_⟩
      rcases hd with rfl | rfl | rfl <;> cases e <;> first | exact hue | exact id
  | unregister u hu =>
    cases e with
    | reading v =>
      obtain ⟨hne, he⟩ := Finset.mem_erase.1 he
      exact .inr ⟨he, fun h => hne h.symm⟩
    | writing v =>
      obtain ⟨he, hne⟩ := writer_of_reset he
      exact .inr ⟨he, fun h => hne h.symm⟩

/-- What a handler has told after a step is there, or it had told it before and it is no less there. -/
theorem Shows.told (hs : Shows l rs w d₀ rs' w' d') (hd : d'.tells e) :
    e.shown rs' w' ∨ d₀.tells e ∧ (e.shown rs w → e.shown rs' w') := by
  cases hs with
  | still => exact .inr ⟨hd, id⟩
  | reading u =>
    cases e with
    | reading v =>
      obtain rfl : u = v := hd
      exact .inl (Finset.mem_insert_self u rs)
    | writing v => exact hd.elim
  | writing u ha =>
    cases e with
    | reading v => exact hd.elim
    | writing v => exact .inl (congrArg some (show u = v from hd))
  | readDone | unlocked | writeDone | leaving | unregister => exact hd.elim

/-- What a step takes away: the entries of the handler's user, and the writer where a new one is told. -/
theorem Shows.taken (hs : Shows l rs w d₀ rs' w' d') (he : e.shown rs w) (he' : ¬ e.shown rs' w') :
    l.userId = some e.userId ∨ l.pc.announcing = true ∧ ∃ v, e = .writing v := by
  cases hs with
  | still | unlocked | leaving => exact absurd he he'
  | reading u =>
    cases e with
    | reading v => exact absurd (Finset.mem_insert_of_mem he) he'
    | writing v => exact absurd he he'
  | readDone u hu =>
    cases e with
    | reading v => exact .inl (hu.trans (congrArg some (eq_of_erased he he')))
    | writing v => exact absurd he he'
  | writing u ha =>
    cases e with
    | reading v => exact absurd he he'
    | writing v => exact .inr ⟨ha, v, rfl⟩
  | writeDone u hu =>
    cases e with
    | reading v => exact absurd he he'
    | writing v => exact .inl (hu.trans (congrArg some (eq_of_reset he he')))
  | unregister u hu =>
    cases e with
    | reading v => exact .inl (hu.trans (congrArg some (eq_of_erased he he')))
    | writing v => exact .inl (hu.trans (congrArg some (eq_of_reset he he')))

end

/-- **Whoever is shown is active**, or about to take the entry back. -/
theorem shown_are_active {s : Pool.State H (DistResServer H) (ClientHandler H)} [Fintype H]
    (hr : (serverMachine cfg H file).Reachable s) (he : e.shown s.shared.readers s.shared.writer) :
    ∃ h, (s.thread h).pc.display.explains e := by
  refine hr.invariant (fun s => ∀ e : StatusEntry, e.shown s.shared.readers s.shared.writer →
    ∃ h, (s.thread h).pc.display.explains e) ?_ ?_ e he
  · rintro s ⟨hs, -⟩ e he
    rw [show s.shared = { data := { file := file }, sessions := cfg.maxSessions } from hs] at he
    cases e with
    | reading u => exact absurd he (Finset.notMem_empty u)
    | writing u => cases he
  · rintro s ⟨h, a⟩ s' hreach ih hs e he
    obtain ⟨slots, hslots⟩ := slotInv_of_reachable hreach
    obtain ⟨g, l, hstep, rfl⟩ := Pool.machine_step.1 hs
    rcases (handlerStep_shows (hslots.valid h) hstep).explained he with hl | ⟨hbefore, hnot⟩
    · exact ⟨h, by simpa using hl⟩
    · obtain ⟨k, hk⟩ := ih e hbefore
      have hkh : k ≠ h := by
        rintro rfl
        exact hnot hk
      exact ⟨k, by simpa only [Function.update_of_ne hkh] using hk⟩

omit [DecidableEq H] in
theorem user_of_tells (hv : l.session.Valid) (hd : l.pc.display.tells e) : l.userId = some e.userId := by
  refine user_of_display hv ?_
  unfold Display.tells at hd
  split at hd
  · rename_i hdisplay
    exact .inl (hd ▸ hdisplay)
  · rename_i hdisplay
    exact .inr (hd ▸ hdisplay)
  · exact hd.elim

omit [DecidableEq H] in
theorem role_of_tells {pc : HandlerPc H} {u : Text} (hd : pc.display.tells (.writing u)) :
    (pc.dataCall cfg).role = .writer := by
  unfold Display.tells at hd
  split at hd
  · rename_i he
    cases he
  · rename_i hdisplay he
    exact role_of_display hdisplay
  · exact hd.elim

/-- **The display is exact.**  In every run in which each duplicate check that passes finds no other
handler inside a window of its user: a handler that is past the callback of its READ is shown as
reading until it has taken that back, and a handler that is past the callback of its WRITE and has
the lock is the one that is shown as writing.  Nobody else is shown but a handler that is about to
unregister, or that has given the write lock back and has not reset `_writer` yet. -/
theorem display_exact {s : Pool.State H (DistResServer H) (ClientHandler H)} [Fintype H]
    (hr : (serverMachine cfg H file).Reach (ChecksAlone cfg) s) (e : StatusEntry) :
    ((∃ h, (s.thread h).pc.display.tells e) → e.shown s.shared.readers s.shared.writer) ∧
      (e.shown s.shared.readers s.shared.writer → ∃ h, (s.thread h).pc.display.explains e) := by
  refine ⟨?_, shown_are_active hr.reachable⟩
  rintro ⟨h, hd⟩
  revert h e
  refine hr.invariant (fun s => ∀ e : StatusEntry, ∀ h, (s.thread h).pc.display.tells e →
    e.shown s.shared.readers s.shared.writer) ?_ ?_
  · rintro s ⟨-, hth⟩ e h hd
    rw [show s.thread h = {} from hth h] at hd
    cases e <;> exact hd.elim
  · rintro s ⟨h, a⟩ s' hreach ih hok hs e k hk
    obtain ⟨slots, hslots⟩ := slotInv_of_reachable hreach.reachable
    obtain ⟨g, l, hstep, rfl⟩ := Pool.machine_step.1 hs
    have hshows := handlerStep_shows (hslots.valid h) hstep
    by_cases hkh : k = h
    · simp only [hkh, Function.update_self] at hk
      rcases hshows.told hk with he | ⟨hbefore, hkept⟩
      · exact he
      · exact hkept (ih e h hbefore)
    · simp only [Function.update_of_ne hkh] at hk
      by_contra hgone
      rcases hshows.taken (ih e k hk) hgone with huser | ⟨hannounce, v, rfl⟩
      · -- the two handlers have the same user
        have hboth := (userInv_of_reach hreach).claims k h e.userId
          (.inl (user_of_tells (hslots.valid k) hk)) (.inl huser)
        exact hkh hboth
      · -- both have the write lock
        have hlock := lockInv_of_reachable (server_uses_data hreach.reachable)
        exact hkh ((hlock.writer_alone (t := k) (u := h) (role_of_tells hk)).1
          (role_of_announcing hannounce))

/-! ### Runs -/

/-- The entry of a user who was left behind is still there, and its slot is still taken. -/
theorem doubleLoginRun_seats :
    ∃ s, (serverMachine shippedConfig (Fin 1) []).run (serverStart shippedConfig) (doubleLoginRun 0) =
        some s ∧ s.shared.activeCount = 1 ∧ s.shared.activeCount + s.shared.sessions ≤ 5 := by
  have hs : ((serverMachine shippedConfig (Fin 1) []).run (serverStart shippedConfig)
      (doubleLoginRun 0)).map (fun s => s.shared.activeCount) = some 1 := by decide
  obtain ⟨s, hrun, hcount⟩ := Option.map_eq_some_iff.1 hs
  have hr : (serverMachine shippedConfig (Fin 1) []).Reachable s :=
    Machine.Reachable.run (s := serverStart shippedConfig) (.init ⟨rfl, fun _ => rfl⟩) hrun
  exact ⟨s, hrun, hcount, activeCount_le hr⟩

/-- Two clients log in; one is past the callback of its READ, and the other has been refused its WRITE
and drops. -/
def readingRun (h k : H) : List (H × HandlerAct) :=
  (h, .accept) :: acceptLogin h (lit "ENG001") (lit "Alice") ++
    (k, .accept) :: acceptLogin k (lit "ENG002") (lit "Bob") ++
    [(h, .receive (requestMessage 2 actionRead [])), (h, .data (.lock false)), (h, .data .go),
      (k, .receive (requestMessage 2 actionWrite (writeParams (lit "x")))), (k, .data (.lock false)),
      (k, .data .wake), (k, .data (.lock true)), (k, .data .go), (k, .go), (k, .go), (k, .go), (k, .hangup)]

theorem readingRun_shown :
    ∃ s, (serverMachine shippedConfig (Fin 2) []).runIf (ChecksAlone shippedConfig)
        (serverStart shippedConfig) (readingRun 0 1) = some s ∧
      (s.thread 0).pc.display = .reads (lit "ENG001") ∧ lit "ENG001" ∈ s.shared.readers := by
  have hs : ((serverMachine shippedConfig (Fin 2) []).runIf (ChecksAlone shippedConfig)
      (serverStart shippedConfig) (readingRun 0 1)).map (fun s => (s.thread 0).pc.display) =
        some (.reads (lit "ENG001")) := by decide
  obtain ⟨s, hrun, hd⟩ := Option.map_eq_some_iff.1 hs
  have hr : (serverMachine shippedConfig (Fin 2) []).Reach (ChecksAlone shippedConfig) s :=
    Machine.Reach.runIf (s := serverStart shippedConfig) (.init ⟨rfl, fun _ => rfl⟩) hrun
  exact ⟨s, hrun, hd, (display_exact hr (.reading (lit "ENG001"))).1 ⟨0, by rw [hd]; rfl⟩⟩

end Runs

end DistRes
