import DistRes.Lib.Backing
import DistRes.SessionSafety

/-!
# Admission control

Every entry of `_active_users` and of the broker is backed by a token: a slot that was taken for its
user, by a handler that has not given up its entry of the user since.  Tokens are slots, so that
neither registry outgrows the semaphore.

* `TokenInv` — the tokens of the handlers, for either registry;
* `admission_never_exceeded` — sessions, registered users and subscribers are at most as many as the
  slots, and `release` is never called with all slots free.
-/

namespace DistRes

open Lib

/-! ## Users and flags -/

/-- The points of a release at which a handler has a session without a user. -/
def SessionPoint.freeing : SessionPoint → Bool
  | .release .free _ | .release .unhold _ => true
  | _ => false

/-- A handler that holds a session has a user, up to the end of the release. -/
def Session.Named (x : Session) : Prop :=
  x.holdsSession = true → x.userId = none → x.point.freeing = true

section Named

variable {H : Type} [DecidableEq H] {n : ℕ} {h : H} {r r' : Registry H} {x x' : Session}
  {e : Option SessionEvent}

theorem named_release (hn : x.holdsSession = true → x.userId ≠ none) (caller : Caller) :
    (x.release caller).Named := by
  obtain ⟨u, b, p⟩ := x
  rcases u with _ | u
  · rcases b with _ | _
    · exact nofun
    · exact absurd rfl (hn rfl)
  · exact fun _ => nofun

theorem freeing_of_free {p : SessionPoint} (hp : p.free = true) : p.freeing = false := by
  cases p <;> first | rfl | cases hp

omit [DecidableEq H] in
theorem SessionStep.named (hs : SessionStep n h r x e r' x') (hv : x.Valid) (hi : x.Named)
    (hlt : ∀ caller, x.point = .release .free caller → r.sessions < n) : x'.Named := by
  have hval := hv.2
  -- a step from a point at which a session has a user keeps the user
  have stays : ∀ {p q : SessionPoint}, x.point = p → p.freeing = false →
      Session.Named { x with point := q } := by
    rintro p q rfl hp hb hu
    rw [hi hb hu] at hp
    cases hp
  have user : ∀ {p : SessionPoint}, x.point = p → p.freeing = false →
      x.holdsSession = true → x.userId ≠ none := by
    rintro p rfl hp hb hu
    rw [hi hb hu] at hp
    cases hp
  cases hs with
  | work o h1 h2 => exact stays rfl (freeing_of_free h1)
  | check u h1 h2 =>
    obtain ⟨o, ho⟩ := h1
    exact stays ho rfl
  | acquire u h1 h2 => exact stays h1 rfl
  | hold u h1 => exact fun _ => nofun
  | register u name h1 => exact stays h1 rfl
  | subscribe u h1 => exact stays h1 rfl
  | reading u h1 => exact stays h1 rfl
  | readDone u h1 => exact stays h1 rfl
  | writing u h1 => exact stays h1 rfl
  | writeDone u h1 => exact stays h1 rfl
  | drop u h1 => exact stays h1 rfl
  | release caller h1 => exact named_release (user rfl (freeing_of_free h1)) caller
  | unsubscribe u caller h1 => exact stays h1 rfl
  | unregister u caller h1 => exact stays h1 rfl
  | clear caller h1 =>
    obtain ⟨u, b, p⟩ := x
    rcases b with _ | _
    · exact named_release (fun hb => absurd hb Bool.false_ne_true) caller
    · exact fun _ _ => rfl
  | free caller h1 h2 => exact fun _ _ => rfl
  | overlogout h1 h2 => exact absurd (hlt _ h1) (Nat.not_lt.2 h2)
  | overclean h1 h2 => exact absurd (hlt _ h1) (Nat.not_lt.2 h2)
  | unhold caller h1 => exact fun hb => absurd hb Bool.false_ne_true

end Named

/-! ## Tokens -/

/-- The registries whose entries come and go with a session. -/
inductive Entries
  | users
  | subscribers

/-- The registry has an entry of `u`. -/
def Entries.has {H : Type} : Entries → Registry H → Text → Bool
  | .users, r, u => r.activeUsers.has u
  | .subscribers, r, u => r.broker.has u

/-- At this point the handler has given up its entry, and not yet its slot. -/
def Entries.gone (E : Entries) : SessionPoint → Bool
  | .release (.unregister _) _ =>
    match E with
    | .users => false
    | .subscribers => true
  | .release .clear _ | .release .free _ => true
  | _ => false

section Tokens

variable {H : Type} [DecidableEq H] {E : Entries} {n : ℕ} {h : H} {r r' : Registry H}
  {x : H → Session} {x' : Session} {e : Option SessionEvent} {slots : H → ℕ}
  {tokens : H → Multiset Text}

/-- **The invariant of the tokens.**  Every entry is backed, a handler has a token for its user until
it gives up its entry, and its tokens are among its slots. -/
structure TokenInv (E : Entries) (r : Registry H) (x : H → Session) (slots : H → ℕ)
    (tokens : H → Multiset Text) : Prop where
  backed : Backed tokens fun u => E.has r u = true
  user : ∀ h u, (x h).userId = some u → E.gone (x h).point = false → u ∈ tokens h
  hold : ∀ h u, (x h).point = .hold u → u ∈ tokens h
  slots : ∀ h, (tokens h).card + (E.gone (x h).point).toNat ≤ slots h

/-- `h` moves, with its tokens then. -/
theorem TokenInv.moves (hi : TokenInv E r x slots tokens) {k : ℕ} {m : Multiset Text}
    (hb : Backed (Function.update tokens h m) fun u => E.has r' u = true)
    (huser : ∀ u, x'.userId = some u → E.gone x'.point = false → u ∈ m)
    (hhold : ∀ u, x'.point = .hold u → u ∈ m) (hslots : m.card + (E.gone x'.point).toNat ≤ k) :
    TokenInv E r' (Function.update x h x') (Function.update slots h k) (Function.update tokens h m) := by
  refine ⟨hb, fun i u hu hg => ?_, fun i u hp => ?_, fun i => ?_⟩
  all_goals by_cases hih : i = h
  · subst hih
    rw [Function.update_self] at hu hg ⊢
    exact huser u hu hg
  · rw [Function.update_of_ne hih] at hu hg ⊢
    exact hi.user i u hu hg
  · subst hih
    rw [Function.update_self] at hp ⊢
    exact hhold u hp
  · rw [Function.update_of_ne hih] at hp ⊢
    exact hi.hold i u hp
  · subst hih
    simp only [Function.update_self]
    exact hslots
  · simp only [Function.update_of_ne hih]
    exact hi.slots i

/-- `h` moves with the tokens that it has. -/
theorem TokenInv.keeps (hi : TokenInv E r x slots tokens) {k : ℕ}
    (hkeys : ∀ u, E.has r' u = true → E.has r u = true ∨ u ∈ tokens h)
    (huser : ∀ u, x'.userId = some u → E.gone x'.point = false → u ∈ tokens h)
    (hhold : ∀ u, x'.point ≠ .hold u)
    (hslots : (tokens h).card + (E.gone x'.point).toNat ≤ k) :
    ∃ tokens', TokenInv E r' (Function.update x h x') (Function.update slots h k) tokens' := by
  refine ⟨_, hi.moves (m := tokens h) ?_ huser (fun u hu => absurd hu (hhold u)) hslots⟩
  rw [Function.update_eq_self]
  intro u hu
  rcases hkeys u hu with hu | hu
  · exact hi.backed u hu
  · exact ⟨h, hu⟩

/-- `h` gives up its entry of `u`. -/
theorem TokenInv.spends (hi : TokenInv E r x slots tokens) {u : Text} (hu : (x h).userId = some u)
    (hg : E.gone (x h).point = false) (hkeys : ∀ v, E.has r' v = true → E.has r v = true ∧ v ≠ u)
    (hg' : E.gone x'.point = true) (hhold : ∀ v, x'.point ≠ .hold v) :
    ∃ tokens', TokenInv E r' (Function.update x h x') (Function.update slots h (slots h)) tokens' := by
  refine ⟨_, hi.moves (hi.backed.spend h hkeys) (fun v _ hgone => ?_)
    (fun v hv => absurd hv (hhold v)) ?_⟩
  · rw [hg'] at hgone
    cases hgone
  · have hmem := hi.user h u hu hg
    have hcard := Multiset.card_erase_add_one hmem
    have hslots := hi.slots h
    rw [hg']
    rw [hg] at hslots
    simp only [Bool.toNat_true, Bool.toNat_false] at hslots ⊢
    omega

omit [DecidableEq H] in
theorem has_of_eq {u : Text} (h : E.has r' u = true) (hu : r'.activeUsers = r.activeUsers)
    (hb : r'.broker = r.broker) : E.has r u = true := by
  cases E with
  | users => exact (congrArg (fun d => d.has u) hu).symm.trans h
  | subscribers => exact (congrArg (fun d => d.has u) hb).symm.trans h

theorem gone_of_free {p : SessionPoint} (hp : p.free = true) : E.gone p = false := by
  cases p <;> first | rfl | cases hp

/-- At a point of a release after the entry is given up, the handler has nobody's slot but its own. -/
theorem gone_release (x : Session) (hn : x.holdsSession = true → x.userId ≠ none) (caller : Caller) :
    E.gone (x.release caller).point = false := by
  obtain ⟨u, b, p⟩ := x
  rcases u with _ | u
  · rcases b with _ | _
    · cases caller <;> rfl
    · exact absurd rfl (hn rfl)
  · rfl

theorem TokenInv.step (hi : TokenInv E r x slots tokens) (hv : ∀ k, (x k).Valid)
    (hn : ∀ k, (x k).Named) (hs : SessionStep n h r (x h) e r' x')
    (hlt : ∀ caller, (x h).point = .release .free caller → r.sessions < n) :
    ∃ tokens', TokenInv E r' (Function.update x h x')
      (Function.update slots h (slotsAfter e (slots h))) tokens' := by
  have hval := (hv h).2
  have hslots := hi.slots h
  -- a move that keeps the user id, between points at which the entry has not been given up
  have stays : ∀ {p : SessionPoint} {r' : Registry H} {x' : Session}, (x h).point = p →
      E.gone p = false → x'.userId = (x h).userId → E.gone x'.point = false →
      (∀ u, x'.point ≠ .hold u) → (∀ u, E.has r' u = true → E.has r u = true ∨ u ∈ tokens h) →
      ∃ tokens', TokenInv E r' (Function.update x h x') (Function.update slots h (slots h)) tokens' := by
    rintro p r' x' rfl hg hu hg' hhold hkeys
    refine hi.keeps hkeys (fun u hu' _ => hi.user h u (hu ▸ hu') hg) hhold ?_
    rw [hg] at hslots
    rwa [hg']
  have user : (x h).point.freeing = false → (x h).holdsSession = true → (x h).userId ≠ none := by
    intro hp hb hu
    rw [hn h hb hu] at hp
    cases hp
  cases hs with
  | work o h1 h2 => exact stays rfl (gone_of_free h1) rfl rfl nofun fun _ => .inl
  | check u h1 h2 =>
    obtain ⟨o, ho⟩ := h1
    exact stays ho rfl rfl rfl nofun fun _ => .inl
  | acquire u h1 h2 =>
    refine ⟨_, hi.moves ((hi.backed.take h u).anti fun _ hv' => has_of_eq hv' rfl rfl) (fun v hv' _ => ?_)
      (fun v hp => ?_) ?_⟩
    · exact Multiset.mem_cons_of_mem (hi.user h v hv' (by rw [h1]; rfl))
    · rw [SessionPoint.hold.inj hp]
      exact Multiset.mem_cons_self _ _
    · rw [Multiset.card_cons]
      exact Nat.succ_le_succ ((Nat.le_add_right _ _).trans hslots)
  | hold u h1 =>
    refine hi.keeps (fun _ => .inl) (fun v hu _ => ?_) nofun ((Nat.le_add_right _ _).trans hslots)
    rw [← Option.some.inj hu]
    exact hi.hold h u h1
  | register u name h1 =>
    rw [h1] at hval
    have htoken := hi.user h u hval (by rw [h1]; rfl)
    refine stays h1 rfl rfl rfl nofun fun v hv' => ?_
    cases E with
    | users =>
      rcases Dict.has_of_set hv' with rfl | hv'
      · exact .inr htoken
      · exact .inl hv'
    | subscribers => exact .inl hv'
  | subscribe u h1 =>
    rw [h1] at hval
    have htoken := hi.user h u hval (by rw [h1]; rfl)
    refine stays h1 rfl rfl rfl nofun fun v hv' => ?_
    cases E with
    | users => exact .inl hv'
    | subscribers =>
      rcases Dict.has_of_set hv' with rfl | hv'
      · exact .inr htoken
      · exact .inl hv'
  | reading u h1 => exact stays h1 rfl rfl rfl nofun fun _ h => .inl (has_of_eq h rfl rfl)
  | readDone u h1 => exact stays h1 rfl rfl rfl nofun fun _ h => .inl (has_of_eq h rfl rfl)
  | writing u h1 => exact stays h1 rfl rfl rfl nofun fun _ h => .inl (has_of_eq h rfl rfl)
  | writeDone u h1 => exact stays h1 rfl rfl rfl nofun fun _ h => .inl (has_of_eq h rfl rfl)
  | drop u h1 =>
    refine stays h1 rfl rfl rfl nofun fun v hv' => .inl ?_
    cases E with
    | users => exact hv'
    | subscribers => exact (Dict.has_of_pop hv').1
  | release caller h1 =>
    exact stays rfl (gone_of_free h1) (release_userId _ caller)
      (gone_release _ (user (freeing_of_free h1)) caller) (release_point _ caller).2.2 fun _ => .inl
  | unsubscribe u caller h1 =>
    rw [h1] at hval
    cases E with
    | users => exact stays h1 rfl rfl rfl nofun fun v hv' => .inl hv'
    | subscribers =>
      exact hi.spends hval (by rw [h1]; rfl) (fun v hv' => Dict.has_of_pop hv') rfl nofun
  | unregister u caller h1 =>
    rw [h1] at hval
    cases E with
    | users => exact hi.spends hval (by rw [h1]; rfl) (fun v hv' => Dict.has_of_pop hv') rfl nofun
    | subscribers =>
      refine hi.keeps (fun _ => .inl) (fun v _ hg => absurd hg nofun) nofun ?_
      rw [h1] at hslots
      exact hslots
  | clear caller h1 =>
    rw [h1] at hslots
    refine hi.keeps (fun _ => .inl) (fun v hu _ => ?_) (release_point _ caller).2.2 ?_
    · rw [release_userId] at hu
      cases hu
    · exact (Nat.add_le_add_left (Bool.toNat_le _) _).trans hslots
  | free caller h1 h2 =>
    rw [h1] at hval hslots
    refine hi.keeps (fun _ hv' => .inl (has_of_eq hv' rfl rfl)) (fun v hu _ => ?_) nofun ?_
    · rw [hval.1] at hu
      cases hu
    · exact Nat.le_sub_of_add_le hslots
  | overlogout h1 h2 => exact absurd (hlt _ h1) (Nat.not_lt.2 h2)
  | overclean h1 h2 => exact absurd (hlt _ h1) (Nat.not_lt.2 h2)
  | unhold caller h1 =>
    rw [h1] at hval
    have hg : E.gone caller.point = false := by cases caller <;> rfl
    refine hi.keeps (fun _ => .inl) (fun v hu _ => ?_) (fun u => ?_) ?_
    · rw [hval.1] at hu
      cases hu
    · cases caller <;> nofun
    · rw [hg]
      exact (Nat.le_add_right _ _).trans hslots

end Tokens

/-! ## The bounds -/

section Bounds

variable {H : Type} [DecidableEq H] {cfg : Config} {file : Bytes}

/-- Between `sessions.release()` and the clearing of the flag. -/
def HandlerPc.returned : HandlerPc H → Bool
  | .release .unhold _ => true
  | _ => false

omit [DecidableEq H] in
/-- A handler whose flag is up has a slot to return, unless it has just done so. -/
theorem owed_pos {l : ClientHandler H} (hb : l.holdsSession = true) (hp : l.pc.returned = false) :
    1 ≤ l.session.owed := by
  obtain ⟨u, b, pc⟩ := l
  subst hb
  cases pc with
  | login id pc => cases pc <;> first | exact le_refl 1 | exact Nat.le_succ 1
  | release pc caller => cases pc <;> first | exact le_refl 1 | cases hp
  | _ => exact le_refl 1

variable [Fintype H] {s : Pool.State H (DistResServer H) (ClientHandler H)}

theorem tokenInv_of_reachable (E : Entries) (hr : (serverMachine cfg H file).Reachable s) :
    ∃ slots tokens, SlotInv cfg.maxSessions s.shared.registry (fun h => (s.thread h).session) slots ∧
      (∀ h, (s.thread h).session.Named) ∧
      TokenInv E s.shared.registry (fun h => (s.thread h).session) slots tokens := by
  refine hr.invariant (fun s => ∃ slots tokens,
    SlotInv cfg.maxSessions s.shared.registry (fun h => (s.thread h).session) slots ∧
      (∀ h, (s.thread h).session.Named) ∧
      TokenInv E s.shared.registry (fun h => (s.thread h).session) slots tokens) ?_ ?_
  · rintro s hs
    have hx : ∀ h, (s.thread h).session = ⟨none, false, .start⟩ := fun h => by
      rw [show s.thread h = {} from hs.2 h]
      rfl
    have h0 : s.shared = { data := { file := file }, sessions := cfg.maxSessions } := hs.1
    refine ⟨fun _ => 0, fun _ => 0, slotInv_init hs, fun h => ?_, ⟨fun u hu => ?_, fun h u hu => ?_,
      fun h u hp => ?_, fun h => ?_⟩⟩
    · rw [hx]
      exact fun hb => absurd hb Bool.false_ne_true
    · rw [h0] at hu
      cases E <;> cases hu
    · rw [hx] at hu
      cases hu
    · rw [hx] at hp
      cases hp
    · rw [hx]
      exact le_refl 0
  · rintro s ⟨h, a⟩ s' - ⟨slots, tokens, hi, hn, ht⟩ hs
    obtain ⟨d, l, hstep, rfl⟩ := Pool.machine_step.1 hs
    have hsession := handlerStep_session hstep
    have hlt := fun caller hp => hi.free_lt (h := h) caller hp
    obtain ⟨tokens', ht'⟩ := ht.step hi.valid hn hsession hlt
    rw [session_update]
    refine ⟨_, tokens', hi.step hsession, fun k => ?_, ht'⟩
    by_cases hk : k = h
    · subst hk
      simp only [Function.update_self]
      exact hsession.named (hi.valid k) (hn k) hlt
    · simp only [Function.update_of_ne hk]
      exact hn k

omit [DecidableEq H] in
/-- The entries of a registry are at most as many as the slots. -/
theorem TokenInv.size_le {E : Entries} {V : Type} {d : Dict Text V} {n : ℕ} {r : Registry H}
    {x : H → Session} {slots : H → ℕ} {tokens : H → Multiset Text} (hi : TokenInv E r x slots tokens)
    (hs : SlotInv n r x slots) (hd : ∀ u, d.has u = true → E.has r u = true) : d.size ≤ n := by
  have hsize := (hi.backed.anti hd).size_le
  have hsum : ∑ h, (tokens h).card ≤ ∑ h, slots h :=
    Finset.sum_le_sum fun h _ => (Nat.le_add_right _ _).trans (hi.slots h)
  have := hs.total
  omega

/-- **Admission control is never exceeded.**  In every reachable state the handlers whose flag is up
and that have not just returned their slot, the registered users and the subscribers are at most as
many as the slots, and a handler that is about to call `release` finds a slot taken. -/
theorem admission_never_exceeded (hr : (serverMachine cfg H file).Reachable s) :
    count (fun l : ClientHandler H => l.pc.isLive = true ∧ l.holdsSession = true ∧
      l.pc.returned = false) s.thread ≤ cfg.maxSessions ∧
    s.shared.activeUsers.size ≤ cfg.maxSessions ∧ s.shared.broker.size ≤ cfg.maxSessions ∧
    ∀ h caller, (s.thread h).pc = .release .free caller → s.shared.sessions < cfg.maxSessions := by
  obtain ⟨slots, tokens, hi, -, hu⟩ := tokenInv_of_reachable .users hr
  obtain ⟨slots', tokens', hi', -, hb⟩ := tokenInv_of_reachable .subscribers hr
  refine ⟨?_, hu.size_le hi fun _ => id, hb.size_le hi' fun _ => id, fun h caller hp => ?_⟩
  · rw [count_eq_sum]
    have hsum : (∑ h, if (s.thread h).pc.isLive = true ∧ (s.thread h).holdsSession = true ∧
        (s.thread h).pc.returned = false then 1 else 0) ≤ ∑ h, slots h := by
      refine Finset.sum_le_sum fun h _ => ?_
      split
      · rename_i hp
        exact (owed_pos hp.2.1 hp.2.2).trans (hi.owed h)
      · exact Nat.zero_le _
    have := hi.total
    omega
  · refine hi.free_lt (h := h) caller ?_
    rw [ClientHandler.session, hp]
    rfl

/-! ### A run -/

/-- The shipped server with a single slot. -/
def singleSlot : Config := { shippedConfig with maxSessions := 1 }

/-- `h` logs in and logs out, up to the return of its slot; then `k` takes the slot. -/
def handOverRun (h k : H) : List (H × HandlerAct) :=
  (h, .accept) :: acceptLogin h (lit "ENG001") (lit "Alice") ++
    (h, .receive (requestMessage 2 actionLogout [])) :: List.replicate 5 (h, .go) ++
    [(k, .accept), (k, .receive (requestMessage 1 actionLogin (loginParams (lit "ENG002") (lit "Bob")))),
      (k, .go), (k, .go), (k, .go), (k, .go)]

/-- Two flags are up, over one slot. -/
theorem handOverRun_flags :
    ¬ ∀ s, (serverMachine singleSlot (Fin 2) []).Reachable s →
      count (fun l : ClientHandler (Fin 2) => l.pc.isLive = true ∧ l.holdsSession = true) s.thread ≤ 1 := by
  intro hall
  have hs : ((serverMachine singleSlot (Fin 2) []).run (serverStart singleSlot) (handOverRun 0 1)).map
      (fun s => decide (count (fun l : ClientHandler (Fin 2) =>
        l.pc.isLive = true ∧ l.holdsSession = true) s.thread ≤ 1)) = some false := by decide
  obtain ⟨s, hrun, hval⟩ := Option.map_eq_some_iff.1 hs
  have hr : (serverMachine singleSlot (Fin 2) []).Reachable s :=
    Machine.Reachable.run (s := serverStart singleSlot) (.init ⟨rfl, fun _ => rfl⟩) hrun
  exact of_decide_eq_false hval (hall s hr)

/-- What holds when `h` is about to return its slot. -/
theorem handOverRun_bounded :
    ∃ s, (serverMachine singleSlot (Fin 2) []).run (serverStart singleSlot) (handOverRun 0 1) = some s ∧
      s.shared.activeUsers.size ≤ 1 ∧ s.shared.broker.size ≤ 1 := by
  have hs : ((serverMachine singleSlot (Fin 2) []).run (serverStart singleSlot)
      (handOverRun 0 1)).isSome = true := by decide
  obtain ⟨s, hrun⟩ := Option.isSome_iff_exists.1 hs
  have hr : (serverMachine singleSlot (Fin 2) []).Reachable s :=
    Machine.Reachable.run (s := serverStart singleSlot) (.init ⟨rfl, fun _ => rfl⟩) hrun
  exact ⟨s, hrun, (admission_never_exceeded hr).2.1, (admission_never_exceeded hr).2.2.1⟩

end Bounds

end DistRes
