import Mathlib.Algebra.Order.BigOperators.Group.Finset
import DistRes.Sessions

/-!
# Slots, registries and user ids

What the session protocol guarantees over whole runs.

* `slots_and_registries_returned` — as long as no connection takes a slot while it holds one, every
  slot and every entry goes with the handler that took it;
* `one_session_per_user` — as long as no other handler is inside the windows that the duplicate check
  does not see, a user id is held by one handler at most.
-/

namespace DistRes

open Lib

/-! ## The ledger -/

/-- Who has taken what: the slots that each handler has taken and not returned, and the handlers
behind the entries of the registries. -/
structure Ledger (H : Type) where
  slots : H → ℕ := fun _ => 0
  registered : Text → Option H := fun _ => none
  reading : List (H × Text) := []
  writing : Option H := none

section Ledger

variable {H : Type} [DecidableEq H]

/-- The slots of a handler after its step. -/
def slotsAfter : Option SessionEvent → ℕ → ℕ
  | some .acquired, k => k + 1
  | some .released, k => k - 1
  | _, k => k

/-- The ledger after a step of `h`. -/
def Ledger.next (L : Ledger H) (h : H) (r : Registry H) (e : Option SessionEvent) : Ledger H where
  slots := Function.update L.slots h (slotsAfter e (L.slots h))
  registered := match e with
    | some (.registered u) => Function.update L.registered u (some h)
    | some (.unregistered u) => Function.update L.registered u none
    | _ => L.registered
  reading := match e with
    | some (.reading u) => (h, u) :: L.reading
    | some (.readDone u) | some (.unregistered u) => L.reading.filter fun x => x.2 ≠ u
    | _ => L.reading
  writing := match e with
    | some (.writing _) => some h
    | some (.writeDone u) | some (.unregistered u) => if r.writer = some u then none else L.writing
    | _ => L.writing

/-- The server with its ledger. -/
def ledgerServer (cfg : Config) (H : Type) [DecidableEq H] (file : Bytes) :=
  (serverMachine cfg H file).withHistory ({} : Ledger H) fun L s a _ =>
    L.next a.1 s.shared.registry (sessionEvent cfg s.shared (s.thread a.1).pc a.2)

end Ledger

/-! ## A handler on its own -/

/-- What holds of a handler at each point. -/
def Session.Valid (x : Session) : Prop :=
  (∀ u, x.userId = some u → x.holdsSession = true) ∧
  match x.point with
  | .work (some u) | .register u | .subscribe u | .release (.unsubscribe u) _
  | .release (.unregister u) _ => x.userId = some u
  | .release .free _ | .release .unhold _ => x.userId = none ∧ x.holdsSession = true
  | .start | .ended => x.userId = none ∧ x.holdsSession = false
  | _ => True

/-- The slots that a handler is to return. -/
def Session.owed (x : Session) : ℕ :=
  match x.point with
  | .hold _ => x.holdsSession.toNat + 1
  | .release .unhold _ => 0
  | _ => x.holdsSession.toNat

section Alone

variable {H : Type} [DecidableEq H] {n : ℕ} {h : H} {r r' : Registry H} {x x' : Session}
  {e : Option SessionEvent}

theorem valid_release (hv : ∀ u, x.userId = some u → x.holdsSession = true) (caller : Caller) :
    (x.release caller).Valid := by
  obtain ⟨u, b, p⟩ := x
  rcases u with _ | u
  · rcases b with _ | _
    · cases caller with
      | logout => exact ⟨hv, trivial⟩
      | cleanup => exact ⟨hv, rfl, rfl⟩
    · exact ⟨hv, rfl, rfl⟩
  · exact ⟨hv, rfl⟩

omit [DecidableEq H] in
theorem SessionStep.valid (hs : SessionStep n h r x e r' x') (hv : x.Valid)
    (hlt : ∀ caller, x.point = .release .free caller → r.sessions < n) : x'.Valid := by
  obtain ⟨hv, hp⟩ := hv
  cases hs with
  | work o hfree ho =>
    refine ⟨hv, ?_⟩
    rcases o with _ | u
    · trivial
    · rcases ho with ho | ho
      · rw [ho] at hp
        exact hp
      · exact ho u rfl
  | check u ho hact => exact ⟨hv, trivial⟩
  | acquire u h1 h2 => exact ⟨hv, trivial⟩
  | hold u h1 => exact ⟨fun _ _ => rfl, rfl⟩
  | register u name h1 =>
    rw [h1] at hp
    exact ⟨hv, hp⟩
  | subscribe u h1 => exact ⟨hv, trivial⟩
  | reading u h1 =>
    rw [h1] at hp
    exact ⟨hv, hp⟩
  | readDone u h1 => exact ⟨hv, trivial⟩
  | writing u h1 =>
    rw [h1] at hp
    exact ⟨hv, hp⟩
  | writeDone u h1 => exact ⟨hv, trivial⟩
  | drop u h1 => exact ⟨hv, trivial⟩
  | release caller h1 => exact valid_release hv caller
  | unsubscribe u caller h1 =>
    rw [h1] at hp
    exact ⟨hv, hp⟩
  | unregister u caller h1 => exact ⟨hv, trivial⟩
  | clear caller h1 =>
    refine valid_release (fun u hu => ?_) caller
    cases hu
  | free caller h1 h2 =>
    rw [h1] at hp
    exact ⟨hv, hp⟩
  | overlogout h1 h2 => exact absurd (hlt _ h1) (Nat.not_lt.2 h2)
  | overclean h1 h2 => exact absurd (hlt _ h1) (Nat.not_lt.2 h2)
  | unhold caller h1 =>
    rw [h1] at hp
    cases caller with
    | logout => exact ⟨fun u hu => absurd (hp.1.symm.trans hu) nofun, trivial⟩
    | cleanup => exact ⟨fun u hu => absurd (hp.1.symm.trans hu) nofun, hp.1, rfl⟩

theorem release_userId (x : Session) (caller : Caller) : (x.release caller).userId = x.userId := by
  obtain ⟨u, b, p⟩ := x
  rcases u with _ | u <;> rcases b with _ | _ <;> rfl

theorem release_point (x : Session) (caller : Caller) :
    (∀ c, (x.release caller).point ≠ .release .clear c) ∧
      (∀ v c, (x.release caller).point ≠ .release (.unregister v) c) ∧
      ∀ u, (x.release caller).point ≠ .hold u := by
  obtain ⟨u, b, p⟩ := x
  rcases u with _ | u <;> rcases b with _ | _ <;> rcases caller with _ | _ <;>
    exact ⟨nofun, nofun, nofun⟩

theorem release_checked (x : Session) (caller : Caller) (u : Text) :
    (x.release caller).point ≠ .checked u := by
  obtain ⟨v, b, p⟩ := x
  rcases v with _ | v <;> rcases b with _ | _ <;> rcases caller with _ | _ <;> nofun

theorem owed_release (x : Session) (caller : Caller) :
    (x.release caller).owed = x.holdsSession.toNat := by
  obtain ⟨u, b, p⟩ := x
  rcases u with _ | u <;> rcases b with _ | _ <;> rcases caller with _ | _ <;> rfl

theorem owed_of_free (hf : x.point.free = true) : x.owed = x.holdsSession.toNat := by
  unfold Session.owed
  split
  · rename_i hp
    rw [hp] at hf
    cases hf
  · rename_i hp
    rw [hp] at hf
    cases hf
  · rfl

section

omit [DecidableEq H]

/-- The slots that a handler is to return change with the slots that it takes and returns, except
where it takes a slot while it holds one. -/
theorem SessionStep.owed (hs : SessionStep n h r x e r' x') (hv : x.Valid)
    (hlt : ∀ caller, x.point = .release .free caller → r.sessions < n) {k : ℕ} :
    (x.owed ≤ k → x'.owed ≤ slotsAfter e k) ∧
      ((∀ u, x.point = .hold u → x.holdsSession = false) → x.owed = k → x'.owed = slotsAfter e k) := by
  -- a step that keeps the flag, between points at which the flag counts
  have same : x.owed = x.holdsSession.toNat → x'.owed = x.holdsSession.toNat →
      slotsAfter e k = k → (x.owed ≤ k → x'.owed ≤ slotsAfter e k) ∧
        ((∀ u, x.point = .hold u → x.holdsSession = false) → x.owed = k → x'.owed = slotsAfter e k) := by
    intro h1 h2 h3
    rw [h1, h2, h3]
    exact ⟨id, fun _ => id⟩
  have at_point : ∀ {p}, x.point = p → (∀ u, p ≠ .hold u) → (∀ c, p ≠ .release .unhold c) →
      x.owed = x.holdsSession.toNat := by
    rintro p rfl h1 h2
    unfold Session.owed
    split
    · rename_i hp
      exact absurd hp (h1 _)
    · rename_i hp
      exact absurd hp (h2 _)
    · rfl
  cases hs with
  | work o hfree ho => exact same (owed_of_free hfree) rfl rfl
  | check u ho hact =>
    obtain ⟨o, ho⟩ := ho
    exact same (at_point ho nofun nofun) rfl rfl
  | acquire u h1 h2 =>
    have h0 := at_point h1 nofun nofun
    simp only [slotsAfter, Session.owed] at h0 ⊢
    omega
  | hold u h1 =>
    have h0 : x.owed = x.holdsSession.toNat + 1 := by simp only [Session.owed, h1]
    have h2 : Session.owed ⟨some u, true, .register u⟩ = 1 := rfl
    rw [h0, h2]
    refine ⟨fun hk => ?_, fun hsingle hk => ?_⟩
    · simp only [slotsAfter]
      omega
    · rw [hsingle u h1] at hk
      exact hk
  | register u name h1 => exact same (at_point h1 nofun nofun) rfl rfl
  | subscribe u h1 => exact same (at_point h1 nofun nofun) rfl rfl
  | reading u h1 => exact same (at_point h1 nofun nofun) rfl rfl
  | readDone u h1 => exact same (at_point h1 nofun nofun) rfl rfl
  | writing u h1 => exact same (at_point h1 nofun nofun) rfl rfl
  | writeDone u h1 => exact same (at_point h1 nofun nofun) rfl rfl
  | drop u h1 => exact same (at_point h1 nofun nofun) rfl rfl
  | release caller h1 => exact same (owed_of_free h1) (owed_release x caller) rfl
  | unsubscribe u caller h1 => exact same (at_point h1 nofun nofun) rfl rfl
  | unregister u caller h1 => exact same (at_point h1 nofun nofun) rfl rfl
  | clear caller h1 => exact same (at_point h1 nofun nofun) (owed_release _ caller) rfl
  | free caller h1 h2 =>
    have hp := hv.2
    rw [h1] at hp
    have h0 := at_point h1 nofun nofun
    rw [hp.2] at h0
    have h3 : Session.owed { x with point := .release .unhold caller } = 0 := rfl
    rw [h0, h3]
    simp only [slotsAfter, Bool.toNat_true]
    omega
  | overlogout h1 h2 => exact absurd (hlt _ h1) (Nat.not_lt.2 h2)
  | overclean h1 h2 => exact absurd (hlt _ h1) (Nat.not_lt.2 h2)
  | unhold caller h1 =>
    have h0 : x.owed = 0 := by simp only [Session.owed, h1]
    have h2 : Session.owed ⟨x.userId, false, caller.point⟩ = 0 := by cases caller <;> rfl
    rw [h0, h2]
    exact ⟨id, fun _ => id⟩

/-- A handler is about to hold a session only after it has taken a slot for it. -/
theorem SessionStep.hold_point (hs : SessionStep n h r x e r' x') {u : Text} (hp : x'.point = .hold u) :
    e = some .acquired ∧ x'.holdsSession = x.holdsSession := by
  cases hs with
  | acquire => exact ⟨rfl, rfl⟩
  | release caller => exact absurd hp ((release_point _ caller).2.2 u)
  | clear caller => exact absurd hp ((release_point _ caller).2.2 u)
  | overlogout => exact absurd hp ((release_point _ _).2.2 u)
  | unhold caller => cases caller <;> cases hp
  | _ => cases hp

/-- The slots that are free and those of the handler that moves stay the same together. -/
theorem SessionStep.sessions (hs : SessionStep n h r x e r' x') (hv : x.Valid) {k : ℕ} (hk : x.owed ≤ k) :
    r'.sessions + slotsAfter e k = r.sessions + k := by
  cases hs with
  | acquire u h1 h2 =>
    simp only [slotsAfter]
    omega
  | free caller h1 h2 =>
    have hp := hv.2
    rw [h1] at hp
    have h0 : x.owed = 1 := by simp only [Session.owed, h1, hp.2, Bool.toNat_true]
    simp only [slotsAfter]
    omega
  | _ => rfl

end

end Alone

/-! ## The slots -/

section Slots

variable {H : Type} [DecidableEq H] [Fintype H] {n : ℕ} {h : H} {r r' : Registry H} {x : H → Session}
  {x' : Session} {e : Option SessionEvent} {slots : H → ℕ}

/-- **The invariant of the slots.**  Every slot is free or some handler's, and a handler has at
least the slots that it is to return. -/
structure SlotInv (n : ℕ) (r : Registry H) (x : H → Session) (slots : H → ℕ) : Prop where
  total : r.sessions + ∑ h, slots h = n
  valid : ∀ h, (x h).Valid
  owed : ∀ h, (x h).owed ≤ slots h

theorem sum_update (slots : H → ℕ) (h : H) (k : ℕ) :
    ∑ i, Function.update slots h k i + slots h = ∑ i, slots i + k := by
  rw [Finset.sum_update_of_mem (Finset.mem_univ h), ← Finset.add_sum_erase _ _ (Finset.mem_univ h),
    Finset.sdiff_singleton_eq_erase]
  omega

omit [DecidableEq H] in
/-- A handler that is about to return a slot has one, so that not all are free. -/
theorem SlotInv.free_lt (hi : SlotInv n r x slots) (caller : Caller)
    (hp : (x h).point = .release .free caller) : r.sessions < n := by
  have hv := (hi.valid h).2
  rw [hp] at hv
  have howed : (x h).owed = 1 := by simp only [Session.owed, hp, hv.2, Bool.toNat_true]
  have hle : slots h ≤ ∑ i, slots i := Finset.single_le_sum (fun _ _ => Nat.zero_le _) (Finset.mem_univ h)
  have := hi.owed h
  have := hi.total
  omega

theorem SlotInv.step (hi : SlotInv n r x slots) (hs : SessionStep n h r (x h) e r' x') :
    SlotInv n r' (Function.update x h x') (Function.update slots h (slotsAfter e (slots h))) := by
  have hlt := fun caller hp => hi.free_lt (h := h) caller hp
  refine ⟨?_, fun k => ?_, fun k => ?_⟩
  · have := sum_update slots h (slotsAfter e (slots h))
    have := hs.sessions (hi.valid h) (hi.owed h)
    have := hi.total
    omega
  · by_cases hk : k = h
    · rw [hk, Function.update_self]
      exact hs.valid (hi.valid h) hlt
    · rw [Function.update_of_ne hk]
      exact hi.valid k
  · by_cases hk : k = h
    · rw [hk, Function.update_self, Function.update_self]
      exact (hs.owed (hi.valid h) hlt).1 (hi.owed h)
    · rw [Function.update_of_ne hk, Function.update_of_ne hk]
      exact hi.owed k

end Slots

/-! ## The entries of the registries -/

section Owners

variable {H : Type} [DecidableEq H] {n : ℕ} {h : H} {r r' : Registry H} {x : H → Session}
  {x' : Session} {e : Option SessionEvent} {L : Ledger H} {u : Text}

/-- A handler that entries of `u` may belong to. -/
def Session.Owns (x : Session) (u : Text) : Prop :=
  x.userId = some u ∧ ∀ c, x.point ≠ .release .clear c

/-- A handler whose callback may be registered for `u`. -/
def Session.Subscribes (x : Session) (u : Text) : Prop :=
  x.Owns u ∧ ∀ v c, x.point ≠ .release (.unregister v) c

/-- The handler `h` has put an entry of `u` into a registry of the server, and it is still there. -/
def Held (r : Registry H) (L : Ledger H) (h : H) (u : Text) : Prop :=
  L.registered u = some h ∨ (h, u) ∈ L.reading ∨ L.writing = some h ∧ r.writer = some u

/-- **The invariant of the registries**: an entry of `u` belongs to a handler whose user is `u`. -/
structure OwnerInv (r : Registry H) (x : H → Session) (L : Ledger H) : Prop where
  broker : ∀ u h, r.broker.get? u = some h → (x h).Subscribes u
  held : ∀ u h, Held r L h u → (x h).Owns u
  registered : ∀ u, r.activeUsers.has u = true → ∃ h, L.registered u = some h
  reading : ∀ u ∈ r.readers, ∃ h, (h, u) ∈ L.reading
  writing : ∀ u, r.writer = some u → ∃ h, L.writing = some h
  written : ∀ h, L.writing = some h → ∃ u, r.writer = some u

/-- `h` moves, and stays the owner of what it has put. -/
theorem OwnerInv.moves (hi : OwnerInv r x L) (hsub : ∀ u, r.broker.get? u = some h → x'.Subscribes u)
    (hown : ∀ u, Held r L h u → x'.Owns u) : OwnerInv r (Function.update x h x') L := by
  refine { hi with broker := ?_, held := ?_ }
  · intro u k hk
    by_cases hkh : k = h
    · rw [hkh, Function.update_self]
      exact hsub u (hkh ▸ hk)
    · rw [Function.update_of_ne hkh]
      exact hi.broker u k hk
  · intro u k hk
    by_cases hkh : k = h
    · rw [hkh, Function.update_self]
      exact hown u (hkh ▸ hk)
    · rw [Function.update_of_ne hkh]
      exact hi.held u k hk

section

omit [DecidableEq H]

/-- Entries go, and none comes. -/
theorem OwnerInv.shrink (hi : OwnerInv r x L) {L' : Ledger H}
    (hb : ∀ u h, r'.broker.get? u = some h → r.broker.get? u = some h)
    (hheld : ∀ u h, Held r' L' h u → Held r L h u)
    (hreg : ∀ u, r'.activeUsers.has u = true → ∃ h, L'.registered u = some h)
    (hread : ∀ u ∈ r'.readers, ∃ h, (h, u) ∈ L'.reading)
    (hwrite : ∀ u, r'.writer = some u → ∃ h, L'.writing = some h)
    (hwritten : ∀ h, L'.writing = some h → ∃ u, r'.writer = some u) : OwnerInv r' x L' :=
  ⟨fun u h hk => hi.broker u h (hb u h hk), fun u h hk => hi.held u h (hheld u h hk), hreg, hread,
    hwrite, hwritten⟩

theorem OwnerInv.pop (hi : OwnerInv r x L) (u : Text) :
    OwnerInv { r with broker := r.broker.pop u } x L := by
  refine hi.shrink (fun v k hk => ?_) (fun _ _ => id) hi.registered hi.reading hi.writing hi.written
  simp only [Dict.get?_pop] at hk
  split_ifs at hk
  exact hk

theorem OwnerInv.subscribe (hi : OwnerInv r x L) (hown : (x h).Subscribes u) :
    OwnerInv { r with broker := r.broker.set u h } x L := by
  refine { hi with broker := ?_ }
  intro v k hk
  simp only [Dict.get?_set] at hk
  split_ifs at hk with hv
  · rw [← Option.some.inj hk, hv]
    exact hown
  · exact hi.broker v k hk

end

theorem OwnerInv.register (hi : OwnerInv r x L) (hown : (x h).Owns u) (name : Text) :
    OwnerInv { r with activeUsers := r.activeUsers.set u name } x (L.next h r (some (.registered u))) := by
  refine { hi with held := ?_, registered := ?_ }
  · rintro v k (hk | hk)
    · simp only [Ledger.next] at hk
      by_cases hv : v = u
      · subst hv
        rw [Function.update_self] at hk
        rw [← Option.some.inj hk]
        exact hown
      · rw [Function.update_of_ne hv] at hk
        exact hi.held v k (.inl hk)
    · exact hi.held v k (.inr hk)
  · intro v hv
    simp only [Ledger.next]
    by_cases hvu : v = u
    · rw [hvu, Function.update_self]
      exact ⟨h, rfl⟩
    · rw [Function.update_of_ne hvu]
      refine hi.registered v ?_
      rwa [Dict.has, Dict.get?_set_of_ne _ _ hvu] at hv

theorem OwnerInv.read (hi : OwnerInv r x L) (hown : (x h).Owns u) :
    OwnerInv { r with readers := insert u r.readers } x (L.next h r (some (.reading u))) := by
  refine { hi with held := ?_, reading := ?_ }
  · rintro v k (hk | hk | hk)
    · exact hi.held v k (.inl hk)
    · rcases List.mem_cons.1 hk with hk | hk
      · cases hk
        exact hown
      · exact hi.held v k (.inr (.inl hk))
    · exact hi.held v k (.inr (.inr hk))
  · intro v hv
    rcases Finset.mem_insert.1 hv with rfl | hv
    · exact ⟨h, List.mem_cons_self⟩
    · obtain ⟨k, hk⟩ := hi.reading v hv
      exact ⟨k, List.mem_cons_of_mem _ hk⟩

theorem OwnerInv.write (hi : OwnerInv r x L) (hown : (x h).Owns u) :
    OwnerInv { r with writer := some u } x (L.next h r (some (.writing u))) := by
  refine { hi with held := ?_, writing := fun _ _ => ⟨h, rfl⟩, written := fun _ _ => ⟨u, rfl⟩ }
  rintro v k (hk | hk | ⟨hk, hv⟩)
  · exact hi.held v k (.inl hk)
  · exact hi.held v k (.inr (.inl hk))
  · rw [← Option.some.inj hk, ← Option.some.inj hv]
    exact hown

theorem OwnerInv.readDone (hi : OwnerInv r x L) :
    OwnerInv { r with readers := r.readers.erase u } x (L.next h r (some (.readDone u))) := by
  refine hi.shrink (fun _ _ => id) ?_ hi.registered ?_ hi.writing hi.written
  · exact fun v k => Or.imp id (Or.imp (fun hk => (List.mem_filter.1 hk).1) id)
  · intro v hv
    obtain ⟨hne, hv⟩ := Finset.mem_erase.1 hv
    obtain ⟨k, hk⟩ := hi.reading v hv
    exact ⟨k, List.mem_filter.2 ⟨hk, by simpa using hne⟩⟩

omit [DecidableEq H] in
theorem writing_reset {w : Option Text} {L : Option H} (hw : ∀ u, w = some u → ∃ h, L = some h)
    (hL : ∀ h, L = some h → ∃ u, w = some u) (u : Text) :
    (∀ v, (if w = some u then none else w) = some v →
      w = some v ∧ v ≠ u ∧ ∃ h, (if w = some u then none else L) = some h) ∧
    ∀ h, (if w = some u then none else L) = some h →
      L = some h ∧ ∃ v, (if w = some u then none else w) = some v := by
  by_cases hu : w = some u
  · simp [hu]
  · simp only [if_neg hu]
    refine ⟨fun v hv => ⟨hv, ?_, hw v hv⟩, fun h hh => ⟨hh, hL h hh⟩⟩
    rintro rfl
    exact hu hv

theorem OwnerInv.writeDone (hi : OwnerInv r x L) :
    OwnerInv { r with writer := if r.writer = some u then none else r.writer } x
      (L.next h r (some (.writeDone u))) := by
  obtain ⟨h1, h2⟩ := writing_reset hi.writing hi.written u
  refine hi.shrink (fun _ _ => id) ?_ hi.registered hi.reading (fun v hv => (h1 v hv).2.2)
    fun k hk => (h2 k hk).2
  rintro v k (hk | hk | ⟨hk, hv⟩)
  · exact .inl hk
  · exact .inr (.inl hk)
  · exact .inr (.inr ⟨(h2 k hk).1, (h1 v hv).1⟩)

/-- `unregister_session`: every entry of `u` goes. -/
theorem OwnerInv.unregister (hi : OwnerInv r x L) :
    OwnerInv { r with
        activeUsers := r.activeUsers.pop u
        readers := r.readers.erase u
        writer := if r.writer = some u then none else r.writer } x
      (L.next h r (some (.unregistered u))) ∧
    ∀ v k, Held { r with
        activeUsers := r.activeUsers.pop u
        readers := r.readers.erase u
        writer := if r.writer = some u then none else r.writer }
      (L.next h r (some (.unregistered u))) k v → Held r L k v ∧ v ≠ u := by
  obtain ⟨h1, h2⟩ := writing_reset hi.writing hi.written u
  have hheld : ∀ v k, Held { r with
        activeUsers := r.activeUsers.pop u
        readers := r.readers.erase u
        writer := if r.writer = some u then none else r.writer }
      (L.next h r (some (.unregistered u))) k v → Held r L k v ∧ v ≠ u := by
    rintro v k (hk | hk | ⟨hk, hv⟩)
    · simp only [Ledger.next] at hk
      by_cases hvu : v = u
      · rw [hvu, Function.update_self] at hk
        cases hk
      · rw [Function.update_of_ne hvu] at hk
        exact ⟨.inl hk, hvu⟩
    · obtain ⟨hk, hvu⟩ := List.mem_filter.1 hk
      exact ⟨.inr (.inl hk), by simpa using hvu⟩
    · exact ⟨.inr (.inr ⟨(h2 k hk).1, (h1 v hv).1⟩), (h1 v hv).2.1⟩
  refine ⟨hi.shrink (fun _ _ => id) (fun v k hk => (hheld v k hk).1) ?_ ?_ (fun v hv => (h1 v hv).2.2)
    fun k hk => (h2 k hk).2, hheld⟩
  · intro v hv
    simp only [Dict.has, Dict.get?_pop] at hv
    split_ifs at hv with hvu
    · cases hv
    · obtain ⟨k, hk⟩ := hi.registered v hv
      exact ⟨k, by simpa only [Ledger.next, Function.update_of_ne hvu] using hk⟩
  · intro v hv
    obtain ⟨hne, hv⟩ := Finset.mem_erase.1 hv
    obtain ⟨k, hk⟩ := hi.reading v hv
    exact ⟨k, List.mem_filter.2 ⟨hk, by simpa using hne⟩⟩

theorem OwnerInv.step (hi : OwnerInv r x L) (hs : SessionStep n h r (x h) e r' x') (hv : (x h).Valid)
    (hlt : ∀ caller, (x h).point = .release .free caller → r.sessions < n)
    (hsingle : ∀ u, (x h).point = .hold u → (x h).holdsSession = false) :
    OwnerInv r' (Function.update x h x') (L.next h r e) := by
  have hnext : L.next h r none = L := by simp [Ledger.next, slotsAfter]
  have hchecked : ∀ u, L.next h r (some (.checked u)) = L := by simp [Ledger.next, slotsAfter]
  have hval := hv.2
  -- a move that keeps the user id and does not enter the end of a release
  have stays : ∀ {r : Registry H} {L : Ledger H} {x' : Session}, OwnerInv r x L →
      x'.userId = (x h).userId → (∀ c, x'.point ≠ .release .clear c) →
      (∀ v c, x'.point ≠ .release (.unregister v) c) → OwnerInv r (Function.update x h x') L := by
    intro r L x' hi h1 h2 h3
    refine hi.moves (fun u hu => ⟨⟨h1.trans (hi.broker u h hu).1.1, h2⟩, h3⟩) fun u hu =>
      ⟨h1.trans (hi.held u h hu).1, h2⟩
  -- a move of a handler to which nothing belongs
  have bare : ∀ {x' : Session}, (∀ u, ¬ (x h).Owns u) → OwnerInv r (Function.update x h x') L :=
    fun hno => hi.moves (fun u hu => absurd (hi.broker u h hu).1 (hno u)) fun u hu =>
      absurd (hi.held u h hu) (hno u)
  have owns : ∀ {p u}, (x h).point = p → (x h).userId = some u → (∀ c, p ≠ .release .clear c) →
      (x h).Owns u := by
    rintro p u rfl h1 h2
    exact ⟨h1, h2⟩
  cases hs with
  | work o h1 h2 =>
    rw [hnext]
    exact stays hi rfl nofun nofun
  | check u h1 h2 =>
    rw [hchecked]
    exact stays hi rfl nofun nofun
  | acquire u h1 h2 =>
    have hi : OwnerInv { r with sessions := r.sessions - 1 } x (L.next h r (some .acquired)) :=
      ⟨hi.broker, hi.held, hi.registered, hi.reading, hi.writing, hi.written⟩
    exact stays hi rfl nofun nofun
  | hold u h1 =>
    rw [hnext]
    refine bare fun v hown => ?_
    have := hv.1 v hown.1
    rw [hsingle u h1] at this
    cases this
  | register u name h1 =>
    rw [h1] at hval
    exact stays (hi.register (owns h1 hval nofun) name) rfl nofun nofun
  | subscribe u h1 =>
    rw [h1] at hval
    have hsub : (x h).Subscribes u := ⟨owns h1 hval nofun, fun v c => by rw [h1]; nofun⟩
    rw [hnext]
    exact stays (hi.subscribe hsub) rfl nofun nofun
  | reading u h1 =>
    rw [h1] at hval
    exact stays (hi.read (owns h1 hval nofun)) rfl nofun nofun
  | readDone u h1 => exact stays hi.readDone rfl nofun nofun
  | writing u h1 =>
    rw [h1] at hval
    exact stays (hi.write (owns h1 hval nofun)) rfl nofun nofun
  | writeDone u h1 => exact stays hi.writeDone rfl nofun nofun
  | drop u h1 =>
    rw [hnext]
    exact stays (hi.pop u) rfl nofun nofun
  | release caller h1 =>
    rw [hnext]
    exact stays hi (release_userId _ caller) (release_point _ caller).1 (release_point _ caller).2.1
  | unsubscribe u caller h1 =>
    rw [h1] at hval
    rw [hnext]
    refine (hi.pop u).moves (fun v hw => ?_) fun v hw => ?_
    · simp only [Dict.get?_pop] at hw
      split_ifs at hw with hvu
      exact absurd (Option.some.inj ((hi.broker v h hw).1.1.symm.trans hval)) hvu
    · exact ⟨(hi.held v h hw).1, nofun⟩
  | unregister u caller h1 =>
    rw [h1] at hval
    obtain ⟨hi', hheld⟩ := hi.unregister (h := h) (u := u)
    refine hi'.moves (fun v hw => ?_) fun v hw => ?_
    · exact absurd h1 ((hi.broker v h hw).2 u caller)
    · obtain ⟨hw, hvu⟩ := hheld v h hw
      exact absurd (Option.some.inj ((hi.held v h hw).1.symm.trans hval)) hvu
  | clear caller h1 =>
    rw [hnext]
    exact bare fun v hown => hown.2 caller h1
  | free caller h1 h2 =>
    have hi : OwnerInv { r with sessions := r.sessions + 1 } x (L.next h r (some .released)) :=
      ⟨hi.broker, hi.held, hi.registered, hi.reading, hi.writing, hi.written⟩
    exact stays hi rfl nofun nofun
  | overlogout h1 h2 => exact absurd (hlt _ h1) (Nat.not_lt.2 h2)
  | overclean h1 h2 => exact absurd (hlt _ h1) (Nat.not_lt.2 h2)
  | unhold caller h1 =>
    rw [h1] at hval
    rw [hnext]
    exact bare fun v hown => absurd (hval.1.symm.trans hown.1) nofun

end Owners

/-! ## Every slot and every entry is returned -/

section Returned

variable {H : Type} [DecidableEq H] {cfg : Config} {file : Bytes}

/-- In the middle of `_handle_login` or `_release_session`. -/
def HandlerPc.inSession : HandlerPc H → Bool
  | .login _ _ | .release _ _ => true
  | _ => false

def HandlerPc.hasEnded : HandlerPc H → Bool
  | .ended => true
  | _ => false

def HandlerPc.isLive : HandlerPc H → Bool
  | .connecting | .ended => false
  | _ => true

omit [DecidableEq H] in
theorem point_of_not_isLive {pc : HandlerPc H} (h : pc.isLive = false) :
    pc.point = .start ∨ pc.point = .ended := by
  cases pc <;> first | exact .inl rfl | exact .inr rfl | cases h

/-- No connection takes a slot while its handler holds one. -/
abbrev SingleLogin (cfg : Config)
    (p : Pool.State H (DistResServer H) (ClientHandler H) × Ledger H) (a : H × HandlerAct) : Prop :=
  sessionEvent cfg p.1.shared (p.1.thread a.1).pc a.2 = some .acquired →
    (p.1.thread a.1).holdsSession = false

variable [Fintype H]

omit [Fintype H] in
theorem session_update (th : H → ClientHandler H) (h : H) (l : ClientHandler H) :
    (fun k => (Function.update th h l k).session) =
      Function.update (fun k => (th k).session) h l.session :=
  Function.comp_update (fun l : ClientHandler H => l.session) th h l

theorem slotInv_init {s : Pool.State H (DistResServer H) (ClientHandler H)}
    (hs : (serverMachine cfg H file).init s) :
    SlotInv cfg.maxSessions s.shared.registry (fun h => (s.thread h).session) fun _ => 0 := by
  obtain ⟨hs, hth⟩ := hs
  have hx : ∀ h, (s.thread h).session = ⟨none, false, .start⟩ := fun h => by
    rw [show s.thread h = {} from hth h]
    rfl
  refine ⟨?_, fun h => ?_, fun h => ?_⟩
  · rw [show s.shared = { data := { file := file }, sessions := cfg.maxSessions } from hs]
    simp [DistResServer.registry]
  · rw [hx]
    exact ⟨nofun, rfl, rfl⟩
  · rw [hx]
    exact le_refl 0

theorem slotInv_of_reachable {s : Pool.State H (DistResServer H) (ClientHandler H)}
    (hr : (serverMachine cfg H file).Reachable s) :
    ∃ slots, SlotInv cfg.maxSessions s.shared.registry (fun h => (s.thread h).session) slots := by
  refine hr.invariant (fun s => ∃ slots, SlotInv cfg.maxSessions s.shared.registry
    (fun h => (s.thread h).session) slots) (fun s hs => ⟨_, slotInv_init hs⟩) ?_
  rintro s ⟨h, a⟩ s' - ⟨slots, hi⟩ hs
  obtain ⟨d, l, hstep, rfl⟩ := Pool.machine_step.1 hs
  rw [session_update]
  exact ⟨_, hi.step (handlerStep_session hstep)⟩

/-- What holds of the sessions while no connection takes a second slot. -/
structure LedgerInv (n : ℕ) (r : Registry H) (x : H → Session) (L : Ledger H) : Prop where
  slots : SlotInv n r x L.slots
  owners : OwnerInv r x L
  single : ∀ h u, (x h).point = .hold u → (x h).holdsSession = false
  exact : ∀ h, (x h).owed = L.slots h

theorem LedgerInv.step {n : ℕ} {h : H} {r r' : Registry H} {x : H → Session} {x' : Session}
    {e : Option SessionEvent} {L : Ledger H} (hi : LedgerInv n r x L)
    (hs : SessionStep n h r (x h) e r' x') (hok : e = some .acquired → (x h).holdsSession = false) :
    LedgerInv n r' (Function.update x h x') (L.next h r e) := by
  have hlt := fun caller hp => hi.slots.free_lt (h := h) caller hp
  have hval := hi.slots.valid h
  refine ⟨hi.slots.step hs, hi.owners.step hs hval hlt (hi.single h), fun k u hk => ?_, fun k => ?_⟩
  · by_cases hkh : k = h
    · rw [hkh, Function.update_self] at hk ⊢
      obtain ⟨he, hb⟩ := hs.hold_point hk
      exact hb.trans (hok he)
    · rw [Function.update_of_ne hkh] at hk ⊢
      exact hi.single k u hk
  · simp only [Ledger.next]
    by_cases hkh : k = h
    · rw [hkh, Function.update_self, Function.update_self]
      exact (hs.owed hval hlt).2 (hi.single h) (hi.exact h)
    · rw [Function.update_of_ne hkh, Function.update_of_ne hkh]
      exact hi.exact k

omit [DecidableEq H] [Fintype H] in
theorem owed_of_not_inSession (l : ClientHandler H) (h : l.pc.inSession = false) :
    l.session.owed = l.holdsSession.toNat := by
  obtain ⟨u, b, pc⟩ := l
  cases pc <;> first | rfl | cases h

theorem ledgerInv_of_reach {p : Pool.State H (DistResServer H) (ClientHandler H) × Ledger H}
    (hr : (ledgerServer cfg H file).Reach (SingleLogin cfg) p) :
    LedgerInv cfg.maxSessions p.1.shared.registry (fun h => (p.1.thread h).session) p.2 := by
  refine hr.invariant (fun p => LedgerInv cfg.maxSessions p.1.shared.registry
    (fun h => (p.1.thread h).session) p.2) ?_ ?_
  · rintro ⟨s, L⟩ ⟨hs, hL⟩
    have h0 : s.shared = { data := { file := file }, sessions := cfg.maxSessions } := hs.1
    have hx : ∀ h, (s.thread h).session = ⟨none, false, .start⟩ := fun h => by
      rw [show s.thread h = {} from hs.2 h]
      rfl
    simp only at hL ⊢
    subst hL
    refine ⟨slotInv_init hs, ⟨?_, ?_, ?_, ?_, ?_, ?_⟩, fun h u hp => ?_, fun h => ?_⟩
    · simp [h0, DistResServer.registry]
    · simp [Held]
    · simp [h0, DistResServer.registry, Dict.has]
    · simp [h0, DistResServer.registry]
    · simp [h0, DistResServer.registry]
    · simp
    · rw [hx] at hp
      cases hp
    · rw [hx]
      rfl
  · rintro ⟨s, L⟩ ⟨h, a⟩ ⟨s', L'⟩ - ih hok hs
    obtain ⟨hs, hL⟩ := Machine.withHistory_step.1 hs
    obtain ⟨d, l, hstep, rfl⟩ := Pool.machine_step.1 hs
    simp only at hL ih ⊢
    subst hL
    rw [session_update]
    exact ih.step (handlerStep_session hstep) hok

/-- **Nothing leaks while no connection takes a second slot.**  With no handler in the middle of a
login or a release, the slots taken are as many as the live handlers that hold a session.  A handler
that has ended has returned its slots, and no entry or callback of it is left.  When all have ended,
every slot is free and the registries are empty. -/
theorem slots_and_registries_returned
    {s : Pool.State H (DistResServer H) (ClientHandler H)} {L : Ledger H}
    (hr : (ledgerServer cfg H file).Reach (SingleLogin cfg) (s, L)) :
    ((∀ h, (s.thread h).pc.inSession = false) →
      s.shared.sessions + count (fun l : ClientHandler H => l.pc.isLive = true ∧ l.holdsSession = true)
        s.thread = cfg.maxSessions) ∧
    (∀ h, (s.thread h).pc.hasEnded = true → L.slots h = 0 ∧ (∀ u, L.registered u ≠ some h) ∧
      (∀ u, (h, u) ∉ L.reading) ∧ L.writing ≠ some h ∧ ∀ u, s.shared.broker.get? u ≠ some h) ∧
    ((∀ h, (s.thread h).pc.isLive = false) → s.shared.sessions = cfg.maxSessions ∧
      s.shared.activeUsers.items = [] ∧ s.shared.readers = ∅ ∧ s.shared.writer = none ∧
      s.shared.broker.items = []) := by
  have hi := ledgerInv_of_reach hr
  simp only at hi
  -- a handler that is not live has no session, no slot and no entry
  have hdead : ∀ h, (s.thread h).pc.isLive = false →
      (s.thread h).userId = none ∧ (s.thread h).holdsSession = false ∧ L.slots h = 0 := by
    intro h hp
    have hval := (hi.slots.valid h).2
    have hex := hi.exact h
    simp only [ClientHandler.session, Session.owed] at hval hex
    rcases point_of_not_isLive hp with hpoint | hpoint
    all_goals
      rw [hpoint] at hval hex
      refine ⟨hval.1, hval.2, ?_⟩
      rw [← hex, hval.2]
      rfl
  have hbare : ∀ h, (s.thread h).pc.isLive = false → ∀ u, ¬ (s.thread h).session.Owns u := by
    intro h hp u hown
    have := (hdead h hp).1.symm.trans hown.1
    cases this
  refine ⟨fun hno => ?_, fun h hend => ?_, fun hall => ?_⟩
  · rw [count_eq_sum]
    have hsum : ∑ h, L.slots h = ∑ h, if (s.thread h).pc.isLive = true ∧
        (s.thread h).holdsSession = true then 1 else 0 := by
      refine Finset.sum_congr rfl fun h _ => ?_
      rw [← hi.exact h, owed_of_not_inSession _ (hno h)]
      by_cases hlive : (s.thread h).pc.isLive = true
      · by_cases hb : (s.thread h).holdsSession = true <;> simp [hlive, hb]
      · rw [(hdead h (by simpa using hlive)).2.1]
        simp
    rw [← hsum]
    exact hi.slots.total
  · have hp : (s.thread h).pc.isLive = false := by
      generalize (s.thread h).pc = pc at hend
      cases pc <;> first | rfl | cases hend
    refine ⟨(hdead h hp).2.2, fun u hu => hbare h hp u (hi.owners.held u h (.inl hu)),
      fun u hu => hbare h hp u (hi.owners.held u h (.inr (.inl hu))), fun hu => ?_,
      fun u hu => hbare h hp u (hi.owners.broker u h hu).1⟩
    obtain ⟨u, hw⟩ := hi.owners.written h hu
    exact hbare h hp u (hi.owners.held u h (.inr (.inr ⟨hu, hw⟩)))
  · refine ⟨?_, Dict.items_eq_nil fun u => ?_, ?_, ?_, Dict.items_eq_nil fun u => ?_⟩
    · have htotal := hi.slots.total
      rw [Finset.sum_eq_zero fun h _ => (hdead h (hall h)).2.2] at htotal
      exact htotal
    · by_contra hu
      obtain ⟨h, hh⟩ := hi.owners.registered u (Option.isSome_iff_ne_none.2 hu)
      exact hbare h (hall h) u (hi.owners.held u h (.inl hh))
    · refine Finset.eq_empty_of_forall_notMem fun u hu => ?_
      obtain ⟨h, hh⟩ := hi.owners.reading u hu
      exact hbare h (hall h) u (hi.owners.held u h (.inr (.inl hh)))
    · refine Option.eq_none_iff_forall_ne_some.2 fun u hu => ?_
      obtain ⟨h, hh⟩ := hi.owners.writing u hu
      exact hbare h (hall h) u (hi.owners.held u h (.inr (.inr ⟨hh, hu⟩)))
    · refine Option.eq_none_iff_forall_ne_some.2 fun h hh => ?_
      exact hbare h (hall h) u (hi.owners.broker u h hh).1

/-! ### Runs -/

/-- One connection logs in twice, as two users, and drops. -/
def doubleLoginRun (h : H) : List (H × HandlerAct) :=
  (h, .accept) :: acceptLogin h (lit "ENG001") (lit "Alice") ++
    acceptLogin h (lit "ENG002") (lit "Bob") ++ (h, .hangup) :: List.replicate 5 (h, .go)

/-- The handler has ended; a slot, a registration and a callback of it are left for ever. -/
theorem doubleLoginRun_leaks :
    ¬ ∀ s L, (ledgerServer shippedConfig (Fin 1) []).Reachable (s, L) → ∀ h,
      (s.thread h).pc.hasEnded = true → L.slots h = 0 ∧ (∀ u, L.registered u ≠ some h) ∧
        ∀ u, s.shared.broker.get? u ≠ some h := by
  intro hall
  have hs : ((ledgerServer shippedConfig (Fin 1) []).run (serverStart shippedConfig, {})
      (doubleLoginRun 0)).map (fun p => ((p.1.thread 0).pc.hasEnded, p.2.slots 0,
        p.1.shared.broker.get? (lit "ENG001"), p.1.shared.sessions)) =
          some (true, 1, some 0, 4) := by decide
  obtain ⟨⟨s, L⟩, hrun, hval⟩ := Option.map_eq_some_iff.1 hs
  simp only [Prod.mk.injEq] at hval
  obtain ⟨hend, hslots, -, -⟩ := hval
  have hr : (ledgerServer shippedConfig (Fin 1) []).Reachable (s, L) :=
    Machine.Reachable.run (s := (serverStart shippedConfig, {})) (.init ⟨⟨rfl, fun _ => rfl⟩, rfl⟩) hrun
  have := (hall s L hr 0 hend).1
  rw [hslots] at this
  cases this

/-- One login, and the connection drops. -/
def singleLoginRun (h : H) : List (H × HandlerAct) :=
  (h, .accept) :: acceptLogin h (lit "ENG001") (lit "Alice") ++
    (h, .hangup) :: List.replicate 5 (h, .go)

theorem singleLoginRun_returned :
    ∃ s L, (ledgerServer shippedConfig (Fin 1) []).runIf (SingleLogin shippedConfig)
        (serverStart shippedConfig, {}) (singleLoginRun 0) = some (s, L) ∧
      s.shared.sessions = 5 ∧ s.shared.broker.items = [] := by
  have hs : ((ledgerServer shippedConfig (Fin 1) []).runIf (SingleLogin shippedConfig)
      (serverStart shippedConfig, {}) (singleLoginRun 0)).map (fun p => (p.1.thread 0).pc.isLive) =
        some false := by decide
  obtain ⟨⟨s, L⟩, hrun, hlive⟩ := Option.map_eq_some_iff.1 hs
  have hr : (ledgerServer shippedConfig (Fin 1) []).Reach (SingleLogin shippedConfig) (s, L) :=
    Machine.Reach.runIf (s := (serverStart shippedConfig, {})) (.init ⟨⟨rfl, fun _ => rfl⟩, rfl⟩) hrun
  obtain ⟨-, -, hend⟩ := slots_and_registries_returned hr
  obtain ⟨h1, -, -, -, h2⟩ := hend fun h => by
    rw [Subsingleton.elim h 0]
    exact hlive
  exact ⟨s, L, hrun, h1, h2⟩

end Returned

/-! ## One session for a user -/

section Users

variable {H : Type} [DecidableEq H]

/-- A handler that is past its own duplicate check for `u` and has not registered `u` yet, or that
has unregistered its user `u` and not cleared it yet. -/
def Session.inWindow (x : Session) (u : Text) : Bool :=
  match x.point with
  | .checked v | .hold v | .register v => v = u
  | .release .clear _ => x.userId = some u
  | _ => false

/-- The user for whom a duplicate check passes. -/
def passedCheck : Option SessionEvent → Option Text
  | some (.checked u) => some u
  | _ => none

/-- When a duplicate check for `u` passes, no other handler is inside a window of `u`. -/
abbrev ChecksAlone (cfg : Config) (s : Pool.State H (DistResServer H) (ClientHandler H))
    (a : H × HandlerAct) : Prop :=
  ∀ u ∈ passedCheck (sessionEvent cfg s.shared (s.thread a.1).pc a.2),
    ∀ k, k ≠ a.1 → (s.thread k).session.inWindow u = false

/-- A handler that has passed its duplicate check for `u`, or whose user is `u`. -/
def Session.Claims (x : Session) (u : Text) : Prop :=
  x.userId = some u ∨ x.point = .checked u ∨ x.point = .hold u

/-- **The invariant of the users.** -/
structure UserInv (r : Registry H) (x : H → Session) : Prop where
  claims : ∀ h k u, (x h).Claims u → (x k).Claims u → h = k
  active : ∀ h u, (x h).userId = some u → (∀ v, (x h).point ≠ .register v) →
    (∀ c, (x h).point ≠ .release .clear c) → r.activeUsers.has u = true

variable {n : ℕ} {h : H} {r r' : Registry H} {x : H → Session} {x' : Session} {e : Option SessionEvent}
  {u : Text}

/-- `h` moves without a new claim. -/
theorem UserInv.moves (hi : UserInv r x) (hc : ∀ u, x'.Claims u → (x h).Claims u)
    (hact : ∀ k, k ≠ h → ∀ u, (x k).userId = some u → r.activeUsers.has u = true →
      r'.activeUsers.has u = true)
    (hact' : ∀ u, x'.userId = some u → (∀ v, x'.point ≠ .register v) →
      (∀ c, x'.point ≠ .release .clear c) → r'.activeUsers.has u = true) :
    UserInv r' (Function.update x h x') := by
  have hold : ∀ k u, (Function.update x h x' k).Claims u → (x k).Claims u := by
    intro k u hk
    by_cases hkh : k = h
    · rw [hkh] at hk ⊢
      rw [Function.update_self] at hk
      exact hc u hk
    · rwa [Function.update_of_ne hkh] at hk
  refine ⟨fun k k' u hk hk' => hi.claims k k' u (hold k u hk) (hold k' u hk'), fun k u hu h1 h2 => ?_⟩
  by_cases hkh : k = h
  · rw [hkh, Function.update_self] at hu h1 h2
    exact hact' u hu h1 h2
  · rw [Function.update_of_ne hkh] at hu h1 h2
    exact hact k hkh u hu (hi.active k u hu h1 h2)

omit [DecidableEq H] in
/-- A user whose entry is not there claims it only inside a window. -/
theorem UserInv.window_of_claims (hi : UserInv r x) {k : H} (hv : (x k).Valid) (hk : (x k).Claims u)
    (hno : r.activeUsers.has u = false) : (x k).inWindow u = true := by
  rcases hk with hk | hk | hk
  · by_contra hw
    have hact := hi.active k u hk (fun v hp => ?_) fun c hp => ?_
    · rw [hno] at hact
      cases hact
    · have hval := hv.2
      rw [hp] at hval
      have huv : v = u := Option.some.inj (hval.symm.trans hk)
      exact hw (by simp only [Session.inWindow, hp, huv, decide_true])
    · exact hw (by simp only [Session.inWindow, hp, hk, decide_true])
  · simp only [Session.inWindow, hk, decide_true]
  · simp only [Session.inWindow, hk, decide_true]

/-- A point at which the user id of a handler is registered, if it has one. -/
def SessionPoint.settled : SessionPoint → Bool
  | .register _ | .release .clear _ => false
  | _ => true

theorem settled_of_free {p : SessionPoint} (hp : p.free = true) : p.settled = true := by
  cases p <;> first | rfl | cases hp

theorem ne_of_settled {p : SessionPoint} (hp : p.settled = true) :
    (∀ v, p ≠ .register v) ∧ ∀ c, p ≠ .release .clear c := by
  constructor <;> (rintro v rfl; cases hp)

/-- A move that keeps the user id, from a settled point to one that claims nothing new. -/
theorem UserInv.stays (hi : UserInv r x) (hp : (x h).point.settled = true)
    (hu : x'.userId = (x h).userId) (hchecked : ∀ u, x'.point ≠ .checked u)
    (hhold : ∀ u, x'.point = .hold u → (x h).point = .checked u)
    (hact : r'.activeUsers = r.activeUsers) : UserInv r' (Function.update x h x') := by
  refine hi.moves ?_ (fun _ _ _ _ => by rw [hact]; exact id) fun u hu' _ _ => ?_
  · rintro u (hu' | hu' | hu')
    · exact .inl (hu.symm.trans hu')
    · exact absurd hu' (hchecked u)
    · exact .inr (.inl (hhold u hu'))
  · rw [hact]
    exact hi.active h u (hu.symm.trans hu') (ne_of_settled hp).1 (ne_of_settled hp).2

/-- A move to a point without a user. -/
theorem UserInv.bare (hi : UserInv r x) (hnone : x'.userId = none)
    (hchecked : ∀ u, x'.point ≠ .checked u) (hhold : ∀ u, x'.point ≠ .hold u) :
    UserInv r (Function.update x h x') := by
  refine hi.moves ?_ (fun _ _ _ _ => id) fun u hu => absurd (hnone.symm.trans hu) (by simp)
  rintro u (hu | hu | hu)
  · exact absurd (hnone.symm.trans hu) (by simp)
  · exact absurd hu (hchecked u)
  · exact absurd hu (hhold u)

/-- The check of a user whom nobody else claims. -/
theorem UserInv.check {o : Option Text} (hi : UserInv r x) (ho : (x h).point = .work o)
    (hnew : ∀ k, k ≠ h → ¬ (x k).Claims u) :
    UserInv r (Function.update x h { x h with point := .checked u }) := by
  have claims : ∀ k v, (Function.update x h { x h with point := .checked u } k).Claims v →
      (x k).Claims v ∨ k = h ∧ v = u := by
    intro k v hk
    by_cases hkh : k = h
    · rw [hkh, Function.update_self] at hk
      rcases hk with hk | hk | hk
      · exact .inl (hkh ▸ .inl hk)
      · exact .inr ⟨hkh, (SessionPoint.checked.inj hk).symm⟩
      · cases hk
    · rw [Function.update_of_ne hkh] at hk
      exact .inl hk
  refine ⟨fun k k' v hk hk' => ?_, fun k v hk hp hp' => ?_⟩
  · rcases claims k v hk with h1 | ⟨h1, hv1⟩ <;> rcases claims k' v hk' with h2 | ⟨h2, hv2⟩
    · exact hi.claims k k' v h1 h2
    · by_contra hne
      exact hnew k (fun hkh => hne (hkh.trans h2.symm)) (hv2 ▸ h1)
    · by_contra hne
      exact hnew k' (fun hkh => hne (h1.trans hkh.symm)) (hv1 ▸ h2)
    · exact h1.trans h2.symm
  · by_cases hkh : k = h
    · rw [hkh, Function.update_self] at hk
      exact hi.active h v hk (by simp [ho]) (by simp [ho])
    · rw [Function.update_of_ne hkh] at hk hp hp'
      exact hi.active k v hk hp hp'

theorem UserInv.step (hi : UserInv r x) (hv : ∀ k, (x k).Valid) (hs : SessionStep n h r (x h) e r' x')
    (hlt : ∀ caller, (x h).point = .release .free caller → r.sessions < n)
    (hok : ∀ u, e = some (.checked u) → ∀ k, k ≠ h → (x k).inWindow u = false) :
    UserInv r' (Function.update x h x') := by
  have hval := (hv h).2
  have stays : ∀ {p r' x'}, (x h).point = p → p.settled = true → x'.userId = (x h).userId →
      (∀ u, x'.point ≠ .checked u) → (∀ u, x'.point = .hold u → p = .checked u) →
      r'.activeUsers = r.activeUsers → UserInv r' (Function.update x h x') := by
    rintro p r' x' rfl
    exact hi.stays
  cases hs with
  | work o h1 h2 => exact stays rfl (settled_of_free h1) rfl (by simp) (by simp) rfl
  | check u h1 h2 =>
    obtain ⟨o, ho⟩ := h1
    -- whoever claimed `u` would be inside a window
    refine hi.check ho fun k hk hcl => ?_
    have := hi.window_of_claims (hv k) hcl h2
    rw [hok u rfl k hk] at this
    cases this
  | acquire u h1 h2 =>
    exact stays h1 rfl rfl (by simp) (fun v hp => (SessionPoint.hold.inj hp) ▸ rfl) rfl
  | hold u h1 =>
    refine hi.moves ?_ (fun _ _ _ _ => id) fun v hu hp _ => absurd rfl (hp u)
    rintro v (hu | hu | hu)
    · exact .inr (.inr (Option.some.inj hu ▸ h1))
    · cases hu
    · cases hu
  | register u name h1 =>
    rw [h1] at hval
    refine hi.moves ?_ (fun k _ v _ hact => ?_) fun v hu _ _ => ?_
    · rintro v (hu | hu | hu)
      · exact .inl hu
      · cases hu
      · cases hu
    · simp only [Dict.has, Dict.get?_set]
      split_ifs
      · rfl
      · exact hact
    · have huv : v = u := Option.some.inj (Eq.trans (Eq.symm hu) hval)
      rw [huv, Dict.has, Dict.get?_set_self]
      rfl
  | subscribe u h1 => exact stays h1 rfl rfl (by simp) (by simp) rfl
  | reading u h1 => exact stays h1 rfl rfl (by simp) (by simp) rfl
  | readDone u h1 => exact stays h1 rfl rfl (by simp) (by simp) rfl
  | writing u h1 => exact stays h1 rfl rfl (by simp) (by simp) rfl
  | writeDone u h1 => exact stays h1 rfl rfl (by simp) (by simp) rfl
  | drop u h1 => exact stays h1 rfl rfl (by simp) (by simp) rfl
  | release caller h1 =>
    exact stays rfl (settled_of_free h1) (release_userId _ caller) (release_checked _ caller)
      (fun v hp => absurd hp ((release_point _ caller).2.2 v)) rfl
  | unsubscribe u caller h1 => exact stays h1 rfl rfl (by simp) (by simp) rfl
  | unregister u caller h1 =>
    rw [h1] at hval
    refine hi.moves ?_ (fun k hk v hkv hact => ?_) fun v _ _ hp => absurd rfl (hp caller)
    · rintro v (hu | hu | hu)
      · exact .inl hu
      · cases hu
      · cases hu
    · have hvu : v ≠ u := by
        rintro rfl
        exact hk (hi.claims k h v (.inl hkv) (.inl hval))
      rwa [Dict.has, Dict.get?_pop_of_ne _ hvu]
  | clear caller h1 =>
    exact hi.bare (release_userId _ caller) (release_checked _ caller)
      (fun v hp => absurd hp ((release_point _ caller).2.2 v))
  | free caller h1 h2 =>
    rw [h1] at hval
    exact stays h1 rfl rfl (by simp) (by simp) rfl
  | overlogout h1 h2 => exact absurd (hlt _ h1) (Nat.not_lt.2 h2)
  | overclean h1 h2 => exact absurd (hlt _ h1) (Nat.not_lt.2 h2)
  | unhold caller h1 =>
    rw [h1] at hval
    cases caller <;> exact hi.bare hval.1 (fun _ h => by cases h) (fun _ h => by cases h)

theorem userInv_of_reach [Fintype H] {cfg : Config} {file : Bytes}
    {s : Pool.State H (DistResServer H) (ClientHandler H)}
    (hr : (serverMachine cfg H file).Reach (ChecksAlone cfg) s) :
    UserInv s.shared.registry fun h => (s.thread h).session := by
  refine hr.invariant (fun s => UserInv s.shared.registry fun h => (s.thread h).session) ?_ ?_
  · rintro s ⟨-, hth⟩
    have hx : ∀ h, (s.thread h).session = ⟨none, false, .start⟩ := fun h => by
      rw [show s.thread h = {} from hth h]
      rfl
    refine ⟨fun h k u hh => ?_, fun h u hu => ?_⟩
    · rw [hx] at hh
      rcases hh with hh | hh | hh <;> cases hh
    · rw [hx] at hu
      cases hu
  · rintro s ⟨h, a⟩ s' hr ih hok hs
    obtain ⟨slots, hslots⟩ := slotInv_of_reachable hr.reachable
    obtain ⟨d, l, hstep, rfl⟩ := Pool.machine_step.1 hs
    simp only
    rw [session_update]
    exact ih.step hslots.valid (handlerStep_session hstep) (fun c hp => hslots.free_lt c hp)
      fun u he => hok u (by simp only [he]; rfl)

/-- **One session for a user.**  In every run in which each duplicate check that passes finds no
other handler inside a window of its user: a user id is held by one handler at most, and a LOGIN for
a user who is held is refused. -/
theorem one_session_per_user [Fintype H] {cfg : Config} {file : Bytes}
    {s : Pool.State H (DistResServer H) (ClientHandler H)}
    (hr : (serverMachine cfg H file).Reach (ChecksAlone cfg) s) :
    (∀ u h k, (s.thread h).userId = some u → (s.thread k).userId = some u → h = k) ∧
    ∀ h k id u n s', (s.thread h).pc = .login id (.isActive u n) → (s.thread k).userId = some u →
      ChecksAlone cfg s (h, .go) → (serverMachine cfg H file).step s (h, .go) = some s' →
      (s'.thread h).pc = .respond { id, status := statusError,
                                    message := some (u ++ lit " is already logged in elsewhere") } .loop := by
  have hi := userInv_of_reach hr
  refine ⟨fun u h k hh hk => hi.claims h k u (.inl hh) (.inl hk), ?_⟩
  intro h k id u n s' hpc hk hok hs
  obtain ⟨slots, hslots⟩ := slotInv_of_reachable hr.reachable
  have hact : s.shared.isActive u = true := by
    by_contra hno
    have hno : s.shared.isActive u = false := by simpa using hno
    have hw := hi.window_of_claims (hslots.valid k) (.inl hk) hno
    have hev : sessionEvent cfg s.shared (s.thread h).pc .go = some (.checked u) := by
      simp [hpc, sessionEvent, hno]
    by_cases hkh : k = h
    · -- the handler itself is at the check, outside the windows
      have hpoint : (s.thread h).session.point = .work none := by
        rw [ClientHandler.session, hpc]
        rfl
      rw [hkh] at hw
      simp only [Session.inWindow, hpoint] at hw
      cases hw
    · have := hok u (by simp only [hev]; rfl) k hkh
      rw [hw] at this
      cases this
  obtain ⟨d, l, hstep, rfl⟩ := Pool.machine_step.1 hs
  have hstep : handlerStep cfg h s.shared (s.thread h) .go = some (d, l) := hstep
  simp only [handlerStep, hpc, handleLogin, hact, if_true] at hstep
  cases hstep
  simp only [Function.update_self]
  rfl

/-! ### Runs -/

/-- Two clients log in as the same user; both checks pass before either registers. -/
def racingLoginRun (h k : H) : List (H × HandlerAct) :=
  let login := requestMessage 1 actionLogin (loginParams (lit "ENG001") (lit "Alice"))
  [(h, .accept), (k, .accept), (h, .receive login), (k, .receive login), (h, .go), (h, .go), (k, .go),
    (k, .go), (h, .go), (h, .go), (k, .go), (k, .go)]

/-- Two handlers hold the same user. -/
theorem racingLoginRun_shares :
    ¬ ∀ s, (serverMachine shippedConfig (Fin 2) []).Reachable s → ∀ u h k,
      (s.thread h).userId = some u → (s.thread k).userId = some u → h = k := by
  intro hall
  have hs : ((serverMachine shippedConfig (Fin 2) []).run (serverStart shippedConfig)
      (racingLoginRun 0 1)).map (fun s => ((s.thread 0).userId, (s.thread 1).userId)) =
        some (some (lit "ENG001"), some (lit "ENG001")) := by decide
  obtain ⟨s, hrun, hval⟩ := Option.map_eq_some_iff.1 hs
  obtain ⟨h0, h1⟩ := Prod.mk.inj hval
  have hr : (serverMachine shippedConfig (Fin 2) []).Reachable s :=
    Machine.Reachable.run (s := serverStart shippedConfig) (.init ⟨rfl, fun _ => rfl⟩) hrun
  have := hall s hr _ 0 1 h0 h1
  cases this

/-- The second client tries after the first has its session. -/
def secondLoginRun (h k : H) : List (H × HandlerAct) :=
  let login := requestMessage 1 actionLogin (loginParams (lit "ENG001") (lit "Alice"))
  (h, .accept) :: acceptLogin h (lit "ENG001") (lit "Alice") ++
    [(k, .accept), (k, .receive login), (k, .go)]

/-- The user of a handler that is at its duplicate check. -/
def HandlerPc.checking : HandlerPc H → Option (Text × Text)
  | .login _ (.isActive u n) => some (u, n)
  | _ => none

omit [DecidableEq H] in
theorem eq_login_of_checking {pc : HandlerPc H} {u n : Text} (h : pc.checking = some (u, n)) :
    ∃ id, pc = .login id (.isActive u n) := by
  unfold HandlerPc.checking at h
  split at h
  · cases h
    exact ⟨_, rfl⟩
  · cases h

theorem secondLoginRun_refused :
    ∃ s s' id, (serverMachine shippedConfig (Fin 2) []).runIf (ChecksAlone shippedConfig)
        (serverStart shippedConfig) (secondLoginRun 0 1) = some s ∧
      (serverMachine shippedConfig (Fin 2) []).step s (1, .go) = some s' ∧
      (s'.thread 1).pc = .respond
        { id, status := statusError, message := some (lit "ENG001" ++ lit " is already logged in elsewhere") }
        .loop := by
  have hs : ((serverMachine shippedConfig (Fin 2) []).runIf (ChecksAlone shippedConfig)
      (serverStart shippedConfig) (secondLoginRun 0 1)).map (fun s =>
        ((s.thread 0).userId, (s.thread 1).pc.checking, decide (ChecksAlone shippedConfig s (1, .go)),
          ((serverMachine shippedConfig (Fin 2) []).step s (1, .go)).isSome)) =
            some (some (lit "ENG001"), some (lit "ENG001", lit "Alice"), true, true) := by decide
  obtain ⟨s, hrun, hval⟩ := Option.map_eq_some_iff.1 hs
  simp only [Prod.mk.injEq, decide_eq_true_eq] at hval
  obtain ⟨h0, h1, hok, hsome⟩ := hval
  obtain ⟨id, hpc⟩ := eq_login_of_checking h1
  obtain ⟨s', hstep⟩ := Option.isSome_iff_exists.1 hsome
  have hr : (serverMachine shippedConfig (Fin 2) []).Reach (ChecksAlone shippedConfig) s :=
    Machine.Reach.runIf (s := serverStart shippedConfig) (.init ⟨rfl, fun _ => rfl⟩) hrun
  exact ⟨s, s', id, hrun, hstep, (one_session_per_user hr).2 1 0 id _ _ s' hpc h0 hok hstep⟩

end Users

end DistRes
