import Mathlib.Data.List.Nodup
import DistRes.Lib.Machine

/-!
# Correlated requests

Callers `T` share a table of response slots.  A caller gets a fresh id, puts a slot under the id into
the table and waits for the slot's event; one *resolver* takes the slots for which replies come in
out of the table and fills them, or fails all slots in a sweep under the table's lock; a caller that
gives up withdraws its slot.  Ids may also be spent on requests for whose reply nobody waits.

* `Correlated` — the invariant;
* `correlated_of_reachable` — it holds of every run;
* `attended_of_reachable` — no caller waits for a slot that the resolver does not know of;
* `Correlated.reply`, `Correlated.not_pending` — what a call gets, and where its id is afterwards.
-/

namespace DistRes.Lib

/-! ## The machine -/

structure Slot (R : Type*) where
  event : Bool := false
  response : Option R := none

/-- Where a caller is: it has no request, it has an id for the request `q`, it has put its slot into
the table, it has seen the event, it is about to return. -/
inductive Phase (Q R : Type*)
  | idle
  | issued (id : ℕ) (q : Q)
  | waiting (id : ℕ) (q : Q)
  | woken (id : ℕ) (q : Q)
  | done (id : ℕ) (q : Q) (reply : Option R)

/-- What the resolver is doing. -/
inductive Job (R : Type*)
  | idle
  | fill (id : ℕ) (r : R)
  | wake (id : ℕ)
  | sweep (todo : List ℕ)
  | sweepWake (id : ℕ) (todo : List ℕ)

/-- The table, its callers and its resolver. -/
structure Table (T Q R : Type*) where
  nextId : ℕ
  pending : List ℕ
  slots : ℕ → Slot R
  locked : Bool
  phase : T → Phase Q R
  job : Job R

/-- The reply of a sweep, the replies of callers that give up (for the reasons `W`), and the ids that
a reply answers. -/
structure Replies (R W : Type*) where
  lost : R
  withdrawn : W → R
  answers : R → ℕ → Bool
  unique : ∀ r i j, answers r i = true → answers r j = true → i = j

/-- What callers (the first six) and the resolver do. -/
inductive TableAct (T Q R W : Type*)
  | spend (q : Q)
  | issue (t : T) (q : Q)
  | register (t : T)
  | withdraw (t : T) (w : W)
  | see (t : T)
  | fetch (t : T)
  | ret (t : T)
  | take (id : ℕ) (r : R)
  | lock
  | work

section Machine

variable {T Q R W : Type*} [DecidableEq T] (spec : Replies R W)

namespace Table

def setPhase (s : Table T Q R) (t : T) (p : Phase Q R) : Table T Q R :=
  { s with phase := Function.update s.phase t p }

def setSlot (s : Table T Q R) (id : ℕ) (slot : Slot R) : Table T Q R :=
  { s with slots := Function.update s.slots id slot }

def respond (s : Table T Q R) (id : ℕ) (r : R) : Table T Q R :=
  s.setSlot id { s.slots id with response := some r }

def setEvent (s : Table T Q R) (id : ℕ) : Table T Q R :=
  s.setSlot id { s.slots id with event := true }

end Table

/-- The next step of what the resolver is doing. -/
def workStep (s : Table T Q R) : Job R → Option (Table T Q R)
  | .idle => none
  | .fill id r => some { s.respond id r with job := .wake id }
  | .wake id => some { s.setEvent id with job := .idle }
  | .sweep (id :: todo) => some { s.respond id spec.lost with job := .sweepWake id todo }
  | .sweepWake id todo => some { s.setEvent id with job := .sweep todo }
  | .sweep [] => some { s with pending := [], locked := false, job := .idle }

def tableStep (s : Table T Q R) : TableAct T Q R W → Option (Table T Q R)
  | .spend _ => some { s with nextId := s.nextId + 1 }
  | .issue t q =>
    match s.phase t with
    | .idle =>
      some { (s.setSlot s.nextId {}).setPhase t (.issued s.nextId q) with nextId := s.nextId + 1 }
    | _ => none
  | .register t =>
    match s.phase t, s.locked with
    | .issued id q, false => some { s.setPhase t (.waiting id q) with pending := s.pending ++ [id] }
    | _, _ => none
  | .withdraw t w =>
    match s.phase t, s.locked with
    | .waiting id q, false =>
      some { s.setPhase t (.done id q (some (spec.withdrawn w))) with pending := s.pending.erase id }
    | _, _ => none
  | .see t =>
    match s.phase t with
    | .waiting id q => if (s.slots id).event then some (s.setPhase t (.woken id q)) else none
    | _ => none
  | .fetch t =>
    match s.phase t with
    | .woken id q => some (s.setPhase t (.done id q (s.slots id).response))
    | _ => none
  | .ret t =>
    match s.phase t with
    | .done _ _ _ => some (s.setPhase t .idle)
    | _ => none
  | .take id r =>
    match s.job, s.locked with
    | .idle, false =>
      if id ∈ s.pending ∧ spec.answers r id = true then
        some { s with pending := s.pending.erase id, job := .fill id r }
      else none
    | _, _ => none
  | .lock =>
    match s.job, s.locked with
    | .idle, false => some { s with locked := true, job := .sweep s.pending }
    | _, _ => none
  | .work => workStep spec s s.job

/-- A call that has returned. -/
structure CallReturn (T Q R : Type*) where
  caller : T
  id : ℕ
  request : Q
  reply : Option R

/-- The requests that have got an id, the replies that the resolver has taken, and the calls that
have returned. -/
structure TableHistory (T Q R : Type*) where
  issued : List (ℕ × Q) := []
  taken : List (ℕ × R) := []
  returns : List (CallReturn T Q R) := []

def TableHistory.next (h : TableHistory T Q R) (s : Table T Q R) :
    TableAct T Q R W → TableHistory T Q R
  | .spend q => { h with issued := h.issued ++ [(s.nextId, q)] }
  | .issue _ q => { h with issued := h.issued ++ [(s.nextId, q)] }
  | .take id r => { h with taken := h.taken ++ [(id, r)] }
  | .ret t =>
    match s.phase t with
    | .done id q reply => { h with returns := h.returns ++ [⟨t, id, q, reply⟩] }
    | _ => h
  | _ => h

/-- The table with its history. -/
def tableMachine (T Q : Type*) [DecidableEq T] :
    Machine (Table T Q R × TableHistory T Q R) (TableAct T Q R W) :=
  (⟨fun s => s.pending = [] ∧ s.locked = false ∧ (∀ t, s.phase t = .idle) ∧ s.job = .idle ∧
      ∀ i, s.slots i = {}, tableStep spec⟩ : Machine (Table T Q R) (TableAct T Q R W)).withHistory
    ({} : TableHistory T Q R) fun h s a _ => h.next s a

end Machine

/-! ## Ids -/

/-- The id and the request that a caller has. -/
def Phase.held {Q R : Type*} : Phase Q R → Option (ℕ × Q)
  | .idle => none
  | .issued id q | .waiting id q | .woken id q | .done id q _ => some (id, q)

/-- The slots that the resolver is about to fill or has filled without setting the event. -/
def Job.targets {R : Type*} : Job R → List ℕ
  | .idle => []
  | .fill id _ | .wake id => [id]
  | .sweep todo => todo
  | .sweepWake id todo => id :: todo

section Ids

variable {T Q R : Type*}

/-- **Ids are unique.**  Every id below `nextId` is given to one request, which one caller holds until
its call returns, once. -/
structure IdInv (nextId : ℕ) (held : T → Option (ℕ × Q)) (h : TableHistory T Q R) : Prop where
  below : ∀ e ∈ h.issued, e.1 < nextId
  once : (h.issued.map Prod.fst).Nodup
  known : ∀ t e, held t = some e → e ∈ h.issued
  alone : ∀ t u e f, held t = some e → held u = some f → e.1 = f.1 → t = u
  returned : ∀ x ∈ h.returns, (x.id, x.request) ∈ h.issued ∧ ∀ t e, held t = some e → e.1 ≠ x.id
  returnedOnce : (h.returns.map CallReturn.id).Nodup

variable {nextId : ℕ} {held : T → Option (ℕ × Q)} {h h' : TableHistory T Q R} {t : T}

theorem IdInv.below_of_held (hi : IdInv nextId held h) {e : ℕ × Q} (he : held t = some e) :
    e.1 < nextId :=
  hi.below e (hi.known t e he)

theorem IdInv.spend (hi : IdInv nextId held h) (q : Q) (h1 : h'.issued = h.issued ++ [(nextId, q)])
    (h2 : h'.returns = h.returns) : IdInv (nextId + 1) held h' := by
  refine ⟨fun e he => ?_, ?_, fun t e he => ?_, hi.alone, fun x hx => ?_, ?_⟩
  · rw [h1] at he
    rcases List.mem_append.1 he with he | he
    · exact Nat.lt_succ_of_lt (hi.below e he)
    · rw [List.mem_singleton.1 he]
      exact Nat.lt_succ_self nextId
  · rw [h1, List.map_append, List.nodup_append]
    refine ⟨hi.once, by simp, fun i hm j hj => ?_⟩
    obtain ⟨e, he, rfl⟩ := List.mem_map.1 hm
    rw [List.map_singleton, List.mem_singleton] at hj
    have := hi.below e he
    have hj : j = nextId := hj
    omega
  · rw [h1]
    exact List.mem_append_left _ (hi.known t e he)
  · rw [h2] at hx
    rw [h1]
    exact ⟨List.mem_append_left _ (hi.returned x hx).1, (hi.returned x hx).2⟩
  · rw [h2]
    exact hi.returnedOnce

/-- The caller `t` gets the request that has just got an id. -/
theorem IdInv.give [DecidableEq T] (hi : IdInv nextId held h) (q : Q) (hi' : IdInv (nextId + 1) held h')
    (hmem : (nextId, q) ∈ h'.issued) (h2 : h'.returns = h.returns) :
    IdInv (nextId + 1) (Function.update held t (some (nextId, q))) h' := by
  have hnew : ∀ u e, Function.update held t (some (nextId, q)) u = some e →
      u = t ∧ e = (nextId, q) ∨ u ≠ t ∧ held u = some e := by
    intro u e he
    by_cases hu : u = t
    · rw [hu, Function.update_self] at he
      exact .inl ⟨hu, (Option.some.inj he).symm⟩
    · rw [Function.update_of_ne hu] at he
      exact .inr ⟨hu, he⟩
  refine ⟨hi'.below, hi'.once, fun u e he => ?_, fun u v e f he hf hef => ?_, fun x hx => ?_,
    hi'.returnedOnce⟩
  · rcases hnew u e he with ⟨-, rfl⟩ | ⟨-, he⟩
    · exact hmem
    · exact hi'.known u e he
  · rcases hnew u e he with ⟨rfl, rfl⟩ | ⟨-, hold⟩
    · rcases hnew v f hf with ⟨rfl, -⟩ | ⟨-, hf⟩
      · rfl
      · exact absurd hef (Nat.ne_of_gt (hi.below_of_held hf))
    · rcases hnew v f hf with ⟨-, rfl⟩ | ⟨-, hf⟩
      · exact absurd hef (Nat.ne_of_lt (hi.below_of_held hold))
      · exact hi.alone u v e f hold hf hef
  · refine ⟨(hi'.returned x hx).1, fun u e he => ?_⟩
    rcases hnew u e he with ⟨-, rfl⟩ | ⟨-, he⟩
    · rw [h2] at hx
      exact Nat.ne_of_gt (hi.below _ (hi.returned x hx).1)
    · exact (hi'.returned x hx).2 u e he

/-- The call of `t` returns. -/
theorem IdInv.ret [DecidableEq T] (hi : IdInv nextId held h) {id : ℕ} {q : Q} {reply : Option R}
    (ht : held t = some (id, q)) :
    IdInv nextId (Function.update held t none) { h with returns := h.returns ++ [⟨t, id, q, reply⟩] } := by
  have hold : ∀ u e, Function.update held t none u = some e → u ≠ t ∧ held u = some e := by
    intro u e he
    by_cases hu : u = t
    · rw [hu, Function.update_self] at he
      cases he
    · rw [Function.update_of_ne hu] at he
      exact ⟨hu, he⟩
  refine ⟨hi.below, hi.once, fun u e he => hi.known u e (hold u e he).2,
    fun u v e f he hf => hi.alone u v e f (hold u e he).2 (hold v f hf).2, fun x hx => ?_, ?_⟩
  · rcases List.mem_append.1 hx with hx | hx
    · exact ⟨(hi.returned x hx).1, fun u e he => (hi.returned x hx).2 u e (hold u e he).2⟩
    · rw [List.mem_singleton.1 hx]
      refine ⟨hi.known t _ ht, fun u e he heq => ?_⟩
      obtain ⟨hu, he⟩ := hold u e he
      exact hu (hi.alone u t e _ he ht heq)
  · rw [List.map_append, List.nodup_append]
    refine ⟨hi.returnedOnce, by simp, fun i hm j hj => ?_⟩
    obtain ⟨x, hx, rfl⟩ := List.mem_map.1 hm
    rw [List.map_singleton, List.mem_singleton] at hj
    rintro rfl
    exact (hi.returned x hx).2 t _ ht hj.symm

end Ids

/-! ## Slots -/

section Slots

variable {T Q R W : Type*} [DecidableEq T] (spec : Replies R W)

/-- The reply of the call with the given id is one that it may have, and the slot is not in the table
unless its event is set. -/
def Settled (s : Table T Q R) (h : TableHistory T Q R) (id : ℕ) (reply : Option R) : Prop :=
  (∃ r, reply = some r ∧ (r = spec.lost ∨ (∃ w, r = spec.withdrawn w) ∨ (id, r) ∈ h.taken)) ∧
    (id ∈ s.pending → (s.slots id).event = true)

/-- What the resolver relies on in the middle of a job. -/
def JobInv (s : Table T Q R) (h : TableHistory T Q R) : Job R → Prop
  | .idle => s.locked = false
  | .fill id r => s.locked = false ∧ id ∉ s.pending ∧ (id, r) ∈ h.taken
  | .wake id => s.locked = false ∧ id ∉ s.pending ∧ (s.slots id).response ≠ none
  | .sweep _ => s.locked = true
  | .sweepWake id _ => s.locked = true ∧ (s.slots id).response ≠ none

/-- **The invariant.**  An event is set after the response only, and a slot whose event is set is in
the table during a sweep only. -/
structure Correlated (s : Table T Q R) (h : TableHistory T Q R) : Prop where
  ids : IdInv s.nextId (fun t => (s.phase t).held) h
  pendingBelow : ∀ id ∈ s.pending, id < s.nextId
  pendingOnce : s.pending.Nodup
  targetsBelow : ∀ id ∈ s.job.targets, id < s.nextId
  fresh : ∀ t id q, s.phase t = .issued id q →
    id ∉ s.pending ∧ id ∉ s.job.targets ∧ (s.slots id).event = false
  job : JobInv s h s.job
  taken : ∀ e ∈ h.taken, spec.answers e.2 e.1 = true
  valid : ∀ id r, (s.slots id).response = some r → r = spec.lost ∨ (id, r) ∈ h.taken
  filled : ∀ id, (s.slots id).event = true → (s.slots id).response ≠ none
  swept : ∀ id ∈ s.pending, (s.slots id).event = true → s.locked = true
  woken : ∀ t id q, s.phase t = .woken id q → (s.slots id).event = true
  done : ∀ t id q reply, s.phase t = .done id q reply → Settled spec s h id reply
  settled : ∀ x ∈ h.returns, Settled spec s h x.id x.reply

variable {spec} {s s' : Table T Q R} {h h' : TableHistory T Q R} {t : T}

theorem held_update (p : Phase Q R) :
    (fun u => (Function.update s.phase t p u).held) =
      Function.update (fun u => (s.phase u).held) t p.held :=
  Function.comp_update Phase.held s.phase t p

theorem held_update_same {p : Phase Q R} (hp : p.held = (s.phase t).held) :
    (fun u => (Function.update s.phase t p u).held) = fun u => (s.phase u).held := by
  rw [held_update, hp]
  exact Function.update_eq_self t _

/-- A property of the callers in a phase, after the caller `t` has moved to the phase `p`. -/
theorem forall_phase_update {p : Phase Q R} {P : T → Phase Q R → Prop} (hp : P t p)
    (h : ∀ u, u ≠ t → P u (s.phase u)) : ∀ u, P u (Function.update s.phase t p u) := by
  intro u
  by_cases hu : u = t
  · rw [hu, Function.update_self]
    exact hp
  · rw [Function.update_of_ne hu]
    exact h u hu

/-! ### What is kept -/

section

omit [DecidableEq T]

theorem JobInv.keep {j : Job R} (hj : JobInv s h j) (hlock : s'.locked = s.locked)
    (hp : ∀ id ∈ j.targets, id ∉ s.pending → id ∉ s'.pending) (ht : ∀ e ∈ h.taken, e ∈ h'.taken)
    (hr : ∀ id ∈ j.targets, (s.slots id).response ≠ none → (s'.slots id).response ≠ none) :
    JobInv s' h' j := by
  cases j with
  | idle => exact hlock.trans hj
  | fill id r =>
    exact ⟨hlock.trans hj.1, hp id (List.mem_singleton_self id) hj.2.1, ht _ hj.2.2⟩
  | wake id =>
    have hm : id ∈ (Job.wake id : Job R).targets := List.mem_singleton_self id
    exact ⟨hlock.trans hj.1, hp id hm hj.2.1, hr id hm hj.2.2⟩
  | sweep todo => exact hlock.trans hj
  | sweepWake id todo => exact ⟨hlock.trans hj.1, hr id List.mem_cons_self hj.2⟩

theorem Settled.keep {id : ℕ} {reply : Option R} (hs : Settled spec s h id reply)
    (ht : ∀ e ∈ h.taken, e ∈ h'.taken)
    (hp : id ∈ s'.pending → id ∈ s.pending ∧ (s'.slots id).event = (s.slots id).event) :
    Settled spec s' h' id reply := by
  obtain ⟨⟨r, hr, hor⟩, hev⟩ := hs
  refine ⟨⟨r, hr, hor.imp_right fun h => h.imp_right (ht _)⟩, fun hm => ?_⟩
  rw [(hp hm).2]
  exact hev (hp hm).1

/-- An id that somebody holds or that has been returned is not the next one. -/
theorem Correlated.lt_of_held (hi : Correlated spec s h) {id : ℕ} {q : Q}
    (ht : (s.phase t).held = some (id, q)) : id < s.nextId :=
  hi.ids.below _ (hi.ids.known t (id, q) ht)

end

/-- A caller goes on, with the same request. -/
theorem Correlated.setPhase (hi : Correlated spec s h) {p : Phase Q R}
    (hheld : p.held = (s.phase t).held) (hnew : ∀ id q, p ≠ .issued id q)
    (hwoken : ∀ id q, p = .woken id q → (s.slots id).event = true)
    (hdone : ∀ id q reply, p = .done id q reply → Settled spec s h id reply) :
    Correlated spec (s.setPhase t p) h := by
  refine { hi with
    ids := ?_
    fresh := ?_
    woken := ?_
    done := ?_ }
  · rw [show (fun u => ((s.setPhase t p).phase u).held) = fun u => (s.phase u).held from
      held_update_same hheld]
    exact hi.ids
  · exact forall_phase_update (P := fun _ x => ∀ id q, x = .issued id q → id ∉ s.pending ∧
      id ∉ s.job.targets ∧ (s.slots id).event = false) (fun id q hp => absurd hp (hnew id q))
      fun u _ => hi.fresh u
  · exact forall_phase_update (P := fun _ x => ∀ id q, x = .woken id q → (s.slots id).event = true)
      hwoken fun u _ => hi.woken u
  · exact forall_phase_update (P := fun _ x => ∀ id q reply, x = .done id q reply →
      Settled spec s h id reply) hdone fun u _ => hi.done u

omit [DecidableEq T] in
/-- Slots leave the table. -/
theorem Correlated.shrink (hi : Correlated spec s h) {pending : List ℕ}
    (hsub : pending.Sublist s.pending) : Correlated spec { s with pending } h where
  ids := hi.ids
  pendingBelow id hm := hi.pendingBelow id (hsub.subset hm)
  pendingOnce := hi.pendingOnce.sublist hsub
  targetsBelow := hi.targetsBelow
  fresh t id q ht := ⟨fun hm => (hi.fresh t id q ht).1 (hsub.subset hm), (hi.fresh t id q ht).2⟩
  job := hi.job.keep rfl (fun _ _ hn hm => hn (hsub.subset hm)) (fun _ he => he) fun _ _ hr => hr
  taken := hi.taken
  valid := hi.valid
  filled := hi.filled
  swept id hm := hi.swept id (hsub.subset hm)
  woken := hi.woken
  done t id q reply ht := (hi.done t id q reply ht).keep (fun _ he => he) fun hm => ⟨hsub.subset hm, rfl⟩
  settled x hx := (hi.settled x hx).keep (fun _ he => he) fun hm => ⟨hsub.subset hm, rfl⟩

/-! ### Steps of callers -/

omit [DecidableEq T] in
theorem Correlated.spend (hi : Correlated spec s h) (q : Q) :
    Correlated spec { s with nextId := s.nextId + 1 }
      { h with issued := h.issued ++ [(s.nextId, q)] } :=
  { hi with
    ids := hi.ids.spend q rfl rfl
    pendingBelow := fun id hm => Nat.lt_succ_of_lt (hi.pendingBelow id hm)
    targetsBelow := fun id hm => Nat.lt_succ_of_lt (hi.targetsBelow id hm) }

theorem Correlated.issue (hi : Correlated spec s h) (q : Q) :
    Correlated spec
      { (s.setSlot s.nextId {}).setPhase t (.issued s.nextId q) with nextId := s.nextId + 1 }
      { h with issued := h.issued ++ [(s.nextId, q)] } := by
  generalize hs' : ({ (s.setSlot s.nextId {}).setPhase t (.issued s.nextId q) with
    nextId := s.nextId + 1 } : Table T Q R) = s'
  have hphase : s'.phase = Function.update s.phase t (.issued s.nextId q) := by rw [← hs']; rfl
  have hslots : s'.slots = Function.update s.slots s.nextId {} := by rw [← hs']; rfl
  have hpending : s'.pending = s.pending := by rw [← hs']; rfl
  have hjob : s'.job = s.job := by rw [← hs']; rfl
  have hlocked : s'.locked = s.locked := by rw [← hs']; rfl
  have hnext : s'.nextId = s.nextId + 1 := by rw [← hs']
  have hslot : ∀ id, id < s.nextId → s'.slots id = s.slots id := fun id hid => by
    rw [hslots, Function.update_of_ne (Nat.ne_of_lt hid)]
  have hnew : s'.slots s.nextId = {} := by rw [hslots, Function.update_self]
  have hold : ∀ u p, s'.phase u = p → p ≠ .issued s.nextId q → s.phase u = p := by
    intro u p hu hp
    by_cases hut : u = t
    · rw [hphase, hut, Function.update_self] at hu
      exact absurd hu.symm hp
    · rw [← hu, hphase, Function.update_of_ne hut]
  have hsettled : ∀ id reply, Settled spec s h id reply →
      Settled spec s' { h with issued := h.issued ++ [(s.nextId, q)] } id reply := by
    refine fun id reply hs => hs.keep (fun _ he => he) fun hm => ?_
    rw [hpending] at hm
    exact ⟨hm, by rw [hslot id (hi.pendingBelow id hm)]⟩
  constructor
  case ids =>
    rw [hnext, hphase, held_update]
    exact hi.ids.give q (hi.ids.spend q rfl rfl) (List.mem_append_right _ (List.mem_singleton_self _)) rfl
  case pendingBelow =>
    rw [hpending, hnext]
    exact fun id hm => Nat.lt_succ_of_lt (hi.pendingBelow id hm)
  case pendingOnce =>
    rw [hpending]
    exact hi.pendingOnce
  case targetsBelow =>
    rw [hjob, hnext]
    exact fun id hm => Nat.lt_succ_of_lt (hi.targetsBelow id hm)
  case fresh =>
    intro u id q' hu
    rw [hpending, hjob]
    by_cases hid : id = s.nextId
    · rw [hid, hnew]
      exact ⟨fun hm => Nat.lt_irrefl _ (hi.pendingBelow _ hm),
        fun hm => Nat.lt_irrefl _ (hi.targetsBelow _ hm), rfl⟩
    · have hu' : s.phase u = .issued id q' := hold u _ hu fun heq => hid (Phase.issued.inj heq).1
      rw [hslot id (hi.lt_of_held (by rw [hu']; rfl))]
      exact hi.fresh u id q' hu'
  case job =>
    rw [hjob]
    refine hi.job.keep hlocked (fun _ _ hn => hpending ▸ hn) (fun _ he => he) fun id hm hr => ?_
    rw [hslot id (hi.targetsBelow id hm)]
    exact hr
  case taken => exact hi.taken
  case valid =>
    intro id r hr
    by_cases hid : id = s.nextId
    · rw [hid, hnew] at hr
      cases hr
    · rw [hslots, Function.update_of_ne hid] at hr
      exact hi.valid id r hr
  case filled =>
    intro id hev
    by_cases hid : id = s.nextId
    · rw [hid, hnew] at hev
      cases hev
    · rw [hslots, Function.update_of_ne hid] at hev ⊢
      exact hi.filled id hev
  case swept =>
    intro id hm hev
    rw [hpending] at hm
    rw [hslot id (hi.pendingBelow id hm)] at hev
    rw [hlocked]
    exact hi.swept id hm hev
  case woken =>
    intro u id q' hu
    have hu' : s.phase u = .woken id q' := hold u _ hu nofun
    rw [hslot id (hi.lt_of_held (by rw [hu']; rfl))]
    exact hi.woken u id q' hu'
  case done => exact fun u id q' reply hu => hsettled id reply (hi.done u id q' reply (hold u _ hu nofun))
  case settled => exact fun x hx => hsettled x.id x.reply (hi.settled x hx)

theorem Correlated.register (hi : Correlated spec s h) {id : ℕ} {q : Q}
    (ht : s.phase t = .issued id q) :
    Correlated spec { s.setPhase t (.waiting id q) with pending := s.pending ++ [id] } h := by
  obtain ⟨hnot, htarget, hev⟩ := hi.fresh t id q ht
  have hheld : (s.phase t).held = some (id, q) := by rw [ht]; rfl
  -- nobody else has the id
  have hother : ∀ u q', u ≠ t → (s.phase u).held ≠ some (id, q') := fun u q' hu hm =>
    hu (hi.ids.alone u t _ _ hm hheld rfl)
  have hi' : Correlated spec (s.setPhase t (.waiting id q)) h :=
    hi.setPhase (by rw [ht]; rfl) (fun _ _ hp => nomatch hp) (fun _ _ hp => nomatch hp)
      fun _ _ _ hp => nomatch hp
  have hsettled : ∀ i reply, i ≠ id → Settled spec s h i reply →
      Settled spec { s.setPhase t (.waiting id q) with pending := s.pending ++ [id] } h i reply := by
    intro i reply hne hs
    refine hs.keep (fun _ he => he) fun hm => ⟨?_, rfl⟩
    rcases List.mem_append.1 hm with hm | hm
    · exact hm
    · exact absurd (List.mem_singleton.1 hm) hne
  constructor
  case ids => exact hi'.ids
  case pendingBelow =>
    intro i hm
    rcases List.mem_append.1 hm with hm | hm
    · exact hi.pendingBelow i hm
    · rw [List.mem_singleton.1 hm]
      exact hi.lt_of_held hheld
  case pendingOnce =>
    rw [List.nodup_append]
    refine ⟨hi.pendingOnce, List.nodup_singleton id, fun i hm j hj => ?_⟩
    rw [List.mem_singleton.1 hj]
    rintro rfl
    exact hnot hm
  case targetsBelow => exact hi.targetsBelow
  case fresh =>
    refine forall_phase_update (P := fun _ x => ∀ i q, x = .issued i q → i ∉ s.pending ++ [id] ∧
      i ∉ s.job.targets ∧ (s.slots i).event = false) (fun _ _ hp => nomatch hp) fun u hu i q' hp => ?_
    refine ⟨fun hm => ?_, (hi.fresh u i q' hp).2⟩
    rcases List.mem_append.1 hm with hm | hm
    · exact (hi.fresh u i q' hp).1 hm
    · rw [List.mem_singleton.1 hm] at hp
      exact hother u q' hu (by rw [hp]; rfl)
  case job =>
    refine hi.job.keep rfl (fun i hi' hn hm => ?_) (fun _ he => he) fun _ _ hr => hr
    rcases List.mem_append.1 hm with hm | hm
    · exact hn hm
    · rw [List.mem_singleton.1 hm] at hi'
      exact htarget hi'
  case taken => exact hi.taken
  case valid => exact hi.valid
  case filled => exact hi.filled
  case swept =>
    intro i hm hi'
    rcases List.mem_append.1 hm with hm | hm
    · exact hi.swept i hm hi'
    · rw [List.mem_singleton.1 hm] at hi'
      exact absurd (hi'.symm.trans hev) (by decide)
  case woken => exact hi'.woken
  case done =>
    refine forall_phase_update (P := fun _ x => ∀ i q reply, x = .done i q reply →
      Settled spec _ _ i reply) (fun _ _ _ hp => nomatch hp) fun u hu i q' reply hp => ?_
    refine hsettled i reply ?_ (hi.done u i q' reply hp)
    rintro rfl
    exact hother u q' hu (by rw [hp]; rfl)
  case settled =>
    intro x hx
    exact hsettled x.id x.reply (Ne.symm ((hi.ids.returned x hx).2 t _ hheld)) (hi.settled x hx)

theorem Correlated.withdraw (hi : Correlated spec s h) {id : ℕ} {q : Q}
    (ht : s.phase t = .waiting id q) (w : W) :
    Correlated spec { s.setPhase t (.done id q (some (spec.withdrawn w))) with
      pending := s.pending.erase id } h := by
  have hi' := hi.shrink (List.erase_sublist (a := id))
  refine hi'.setPhase (by rw [show _ = s.phase t from rfl, ht]; rfl) (fun _ _ hp => nomatch hp)
    (fun _ _ hp => nomatch hp) ?_
  rintro _ _ _ ⟨⟩
  exact ⟨⟨_, rfl, .inr (.inl ⟨w, rfl⟩)⟩, fun hm => absurd hm hi.pendingOnce.not_mem_erase⟩

theorem Correlated.fetch (hi : Correlated spec s h) {id : ℕ} {q : Q} (ht : s.phase t = .woken id q) :
    Correlated spec (s.setPhase t (.done id q (s.slots id).response)) h := by
  have hev := hi.woken t id q ht
  refine hi.setPhase (by rw [ht]; rfl) (fun _ _ hp => nomatch hp) (fun _ _ hp => nomatch hp) ?_
  rintro _ _ _ ⟨⟩
  refine ⟨?_, fun _ => hev⟩
  obtain ⟨r, hr⟩ := Option.ne_none_iff_exists'.1 (hi.filled id hev)
  exact ⟨r, hr, (hi.valid id r hr).imp_right .inr⟩

theorem Correlated.ret (hi : Correlated spec s h) {id : ℕ} {q : Q} {reply : Option R}
    (ht : s.phase t = .done id q reply) :
    Correlated spec (s.setPhase t .idle) { h with returns := h.returns ++ [⟨t, id, q, reply⟩] } := by
  refine { hi with
    ids := ?_
    fresh := ?_
    woken := ?_
    done := ?_
    settled := ?_ }
  · rw [show (fun u => ((s.setPhase t .idle).phase u).held) = _ from held_update _]
    exact hi.ids.ret (by rw [ht]; rfl)
  · exact forall_phase_update (P := fun _ x => ∀ id q, x = .issued id q → id ∉ s.pending ∧
      id ∉ s.job.targets ∧ (s.slots id).event = false) (fun _ _ hp => nomatch hp)
      fun u _ => hi.fresh u
  · exact forall_phase_update (P := fun _ x => ∀ id q, x = .woken id q → (s.slots id).event = true)
      (fun _ _ hp => nomatch hp) fun u _ => hi.woken u
  · exact forall_phase_update (P := fun _ x => ∀ id q reply, x = .done id q reply →
      Settled spec s h id reply) (fun _ _ _ hp => nomatch hp) fun u _ => hi.done u
  · intro x hx
    rcases List.mem_append.1 hx with hx | hx
    · exact hi.settled x hx
    · rw [List.mem_singleton.1 hx]
      exact hi.done t id q reply ht

/-! ### Steps of the resolver -/

section

omit [DecidableEq T]

theorem Correlated.take (hi : Correlated spec s h) {id : ℕ} {r : R} (hl : s.locked = false)
    (hid : id ∈ s.pending) (hr : spec.answers r id = true) :
    Correlated spec { s with pending := s.pending.erase id, job := .fill id r }
      { h with taken := h.taken ++ [(id, r)] } := by
  have hi' := hi.shrink (List.erase_sublist (a := id))
  have hmem : ∀ e ∈ h.taken, e ∈ h.taken ++ [(id, r)] := fun e he => List.mem_append_left _ he
  refine { hi' with
    ids := ?_
    targetsBelow := ?_
    fresh := ?_
    job := ?_
    taken := ?_
    valid := ?_
    done := ?_
    settled := ?_ }
  · exact ⟨hi.ids.below, hi.ids.once, hi.ids.known, hi.ids.alone, hi.ids.returned, hi.ids.returnedOnce⟩
  · intro i hm
    rw [List.mem_singleton.1 hm]
    exact hi.pendingBelow id hid
  · intro t i q ht
    obtain ⟨h1, -, h3⟩ := hi.fresh t i q ht
    refine ⟨fun hm => h1 (List.mem_of_mem_erase hm), fun hm => ?_, h3⟩
    rw [List.mem_singleton.1 hm] at h1
    exact h1 hid
  · exact ⟨hl, hi.pendingOnce.not_mem_erase, List.mem_append_right _ (List.mem_singleton_self _)⟩
  · intro e he
    rcases List.mem_append.1 he with he | he
    · exact hi.taken e he
    · rw [List.mem_singleton.1 he]
      exact hr
  · exact fun i r' hr' => (hi.valid i r' hr').imp_right (hmem _)
  · exact fun t i q reply ht => (hi'.done t i q reply ht).keep hmem fun hm => ⟨hm, rfl⟩
  · exact fun x hx => (hi'.settled x hx).keep hmem fun hm => ⟨hm, rfl⟩

theorem Correlated.lock (hi : Correlated spec s h) :
    Correlated spec { s with locked := true, job := .sweep s.pending } h :=
  { hi with
    targetsBelow := hi.pendingBelow
    fresh := fun t id q ht => ⟨(hi.fresh t id q ht).1, (hi.fresh t id q ht).1, (hi.fresh t id q ht).2.2⟩
    job := rfl
    swept := fun _ _ _ => rfl }

/-- The resolver fills a slot. -/
theorem Correlated.respond (hi : Correlated spec s h) {id : ℕ} {r : R}
    (hr : r = spec.lost ∨ (id, r) ∈ h.taken) {j : Job R} (hj : JobInv (s.respond id r) h j)
    (htargets : j.targets = s.job.targets) :
    Correlated spec { s.respond id r with job := j } h := by
  have hev : ∀ i, ((s.respond id r).slots i).event = (s.slots i).event := by
    intro i
    by_cases hid : i = id
    · subst hid
      simp [Table.respond, Table.setSlot]
    · simp [Table.respond, Table.setSlot, hid]
  have hresp : ∀ i, ((s.respond id r).slots i).response =
      if i = id then some r else (s.slots i).response := by
    intro i
    by_cases hid : i = id
    · subst hid
      simp [Table.respond, Table.setSlot]
    · simp [Table.respond, Table.setSlot, hid]
  refine { hi with
    targetsBelow := ?_
    fresh := ?_
    job := ?_
    valid := ?_
    filled := ?_
    swept := ?_
    woken := ?_
    done := ?_
    settled := ?_ }
  · exact fun i hm => hi.targetsBelow i (htargets ▸ hm)
  · intro t i q ht
    obtain ⟨h1, h2, h3⟩ := hi.fresh t i q ht
    exact ⟨h1, fun hm => h2 (htargets ▸ hm), (hev i).trans h3⟩
  · exact hj
  · intro i r' hr'
    rw [hresp] at hr'
    split at hr'
    · rename_i hid
      cases hr'
      exact hid ▸ hr
    · exact hi.valid i r' hr'
  · intro i hi'
    rw [hresp]
    split
    · exact Option.some_ne_none r
    · exact hi.filled i ((hev i).symm.trans hi')
  · exact fun i hm hi' => hi.swept i hm ((hev i).symm.trans hi')
  · exact fun t i q ht => (hev i).trans (hi.woken t i q ht)
  · exact fun t i q reply ht => (hi.done t i q reply ht).keep (fun _ he => he) fun hm => ⟨hm, hev i⟩
  · exact fun x hx => (hi.settled x hx).keep (fun _ he => he) fun hm => ⟨hm, hev x.id⟩

/-- The resolver sets the event of a slot that it has filled. -/
theorem Correlated.setEvent (hi : Correlated spec s h) {id : ℕ} (hid : id ∈ s.job.targets)
    (hr : (s.slots id).response ≠ none) (hl : id ∈ s.pending → s.locked = true) {j : Job R}
    (hj : JobInv (s.setEvent id) h j) (htargets : ∀ i ∈ j.targets, i ∈ s.job.targets) :
    Correlated spec { s.setEvent id with job := j } h := by
  have hev : ∀ i, ((s.setEvent id).slots i).event = if i = id then true else (s.slots i).event := by
    intro i
    by_cases hid : i = id
    · subst hid
      simp [Table.setEvent, Table.setSlot]
    · simp [Table.setEvent, Table.setSlot, hid]
  have hresp : ∀ i, ((s.setEvent id).slots i).response = (s.slots i).response := by
    intro i
    by_cases hid : i = id
    · subst hid
      simp [Table.setEvent, Table.setSlot]
    · simp [Table.setEvent, Table.setSlot, hid]
  have hmono : ∀ i, (s.slots i).event = true → ((s.setEvent id).slots i).event = true := by
    intro i hi'
    rw [hev]
    split
    · rfl
    · exact hi'
  have hsettled : ∀ i reply, Settled spec s h i reply →
      Settled spec { s.setEvent id with job := j } h i reply :=
    fun i reply hs => ⟨hs.1, fun hm => hmono i (hs.2 hm)⟩
  refine { hi with
    targetsBelow := ?_
    fresh := ?_
    job := ?_
    valid := ?_
    filled := ?_
    swept := ?_
    woken := ?_
    done := ?_
    settled := ?_ }
  · exact fun i hm => hi.targetsBelow i (htargets i hm)
  · intro t i q ht
    obtain ⟨h1, h2, h3⟩ := hi.fresh t i q ht
    refine ⟨h1, fun hm => h2 (htargets i hm), ?_⟩
    rw [hev, if_neg (by rintro rfl; exact h2 hid)]
    exact h3
  · exact hj
  · exact fun i r hr' => hi.valid i r ((hresp i).symm.trans hr')
  · intro i hi'
    rw [hresp]
    rw [hev] at hi'
    split at hi'
    · rename_i he
      exact he ▸ hr
    · exact hi.filled i hi'
  · intro i hm hi'
    rw [hev] at hi'
    split at hi'
    · rename_i he
      subst he
      exact hl hm
    · exact hi.swept i hm hi'
  · exact fun t i q ht => hmono i (hi.woken t i q ht)
  · exact fun t i q reply ht => hsettled i reply (hi.done t i q reply ht)
  · exact fun x hx => hsettled x.id x.reply (hi.settled x hx)

theorem Correlated.work (hi : Correlated spec s h) (hs : workStep spec s s.job = some s') :
    Correlated spec s' h := by
  have hjob := hi.job
  generalize hj : s.job = j at hs hjob
  match j, hs, hjob with
  | .fill id r, hs, ⟨hl, hp, hm⟩ =>
    cases hs
    refine hi.respond (.inr hm) ⟨hl, hp, ?_⟩ (by rw [hj]; rfl)
    simp [Table.respond, Table.setSlot]
  | .wake id, hs, ⟨hl, hp, hr⟩ =>
    cases hs
    exact hi.setEvent (by rw [hj]; exact List.mem_singleton_self id) hr (fun hm => absurd hm hp) hl
      fun _ hm => nomatch hm
  | .sweep (id :: todo), hs, hl =>
    cases hs
    refine hi.respond (.inl rfl) ⟨hl, ?_⟩ (by rw [hj]; rfl)
    simp [Table.respond, Table.setSlot]
  | .sweepWake id todo, hs, ⟨hl, hr⟩ =>
    cases hs
    exact hi.setEvent (by rw [hj]; exact List.mem_cons_self) hr (fun _ => hl) hl
      fun i hm => by rw [hj]; exact List.mem_cons_of_mem _ hm
  | .sweep [], hs, hl =>
    cases hs
    have hi' := hi.shrink (List.nil_sublist s.pending)
    exact { hi' with
      targetsBelow := fun _ hm => nomatch hm
      fresh := fun t id q ht => ⟨List.not_mem_nil, List.not_mem_nil, (hi.fresh t id q ht).2.2⟩
      job := rfl
      swept := fun _ hm => nomatch hm }

end

/-! ## Every run -/

omit [DecidableEq T] in
theorem correlated_init (hp : s.pending = []) (hl : s.locked = false) (hphase : ∀ t, s.phase t = .idle)
    (hj : s.job = .idle) (hslots : ∀ i, s.slots i = {}) : Correlated spec s {} := by
  have hheld : ∀ t e, (s.phase t).held ≠ some e := by
    intro t e
    rw [hphase]
    exact nofun
  constructor
  case ids =>
    exact ⟨nofun, List.nodup_nil, fun t e he => absurd he (hheld t e),
      fun t _ e _ he => absurd he (hheld t e), nofun, List.nodup_nil⟩
  case job => rw [hj]; exact hl
  case valid => intro id r hr; rw [hslots] at hr; cases hr
  case filled => intro id hev; rw [hslots] at hev; cases hev
  all_goals simp [hp, hj, hphase, Job.targets]

/-- **One step** keeps the invariant. -/
theorem Correlated.step (hi : Correlated spec s h) {a : TableAct T Q R W}
    (hs : tableStep spec s a = some s') : Correlated spec s' (h.next s a) := by
  cases a with
  | spend q =>
    cases hs
    exact hi.spend q
  | issue t q =>
    simp only [tableStep] at hs
    split at hs <;> cases hs
    exact hi.issue q
  | register t =>
    simp only [tableStep] at hs
    split at hs <;> cases hs
    rename_i ht hl
    exact hi.register ht
  | withdraw t w =>
    simp only [tableStep] at hs
    split at hs <;> cases hs
    rename_i ht hl
    exact hi.withdraw ht w
  | see t =>
    simp only [tableStep] at hs
    split at hs
    · rename_i id q ht
      split at hs <;> cases hs
      rename_i hev
      refine hi.setPhase (by rw [ht]; rfl) (fun _ _ hp => nomatch hp) ?_ fun _ _ _ hp => nomatch hp
      rintro _ _ ⟨⟩
      exact hev
    · cases hs
  | fetch t =>
    simp only [tableStep] at hs
    split at hs <;> cases hs
    rename_i ht
    exact hi.fetch ht
  | ret t =>
    simp only [tableStep] at hs
    split at hs <;> cases hs
    rename_i ht
    simp only [TableHistory.next, ht]
    exact hi.ret ht
  | take id r =>
    simp only [tableStep] at hs
    split at hs
    · rename_i hl
      split at hs <;> cases hs
      rename_i hc
      exact hi.take hl hc.1 hc.2
    · cases hs
  | lock =>
    simp only [tableStep] at hs
    split at hs <;> cases hs
    exact hi.lock
  | work => exact hi.work hs

theorem correlated_of_reachable {p : Table T Q R × TableHistory T Q R}
    (hr : (tableMachine spec T Q).Reachable p) : Correlated spec p.1 p.2 := by
  refine hr.invariant (fun p => Correlated spec p.1 p.2) ?_ ?_
  · rintro ⟨s, h⟩ ⟨⟨hp, hl, hphase, hj, hslots⟩, rfl⟩
    exact correlated_init hp hl hphase hj hslots
  · rintro ⟨s, h⟩ a ⟨s', h'⟩ - hi hs
    obtain ⟨hstep, hh⟩ := Machine.withHistory_step.1 hs
    simp only at hh hi hstep ⊢
    subst hh
    exact hi.step hstep

/-! ## Nobody waits for nothing -/

/-- The event of the id is set, or the resolver is about to set it. -/
def Table.Attends (s : Table T Q R) (id : ℕ) : Prop :=
  id ∈ s.job.targets ∨ (s.slots id).event = true

/-- The resolver is in its sweep. -/
def Job.sweeping : Job R → Bool
  | .sweep _ | .sweepWake _ _ => true
  | _ => false

/-- **No caller is forgotten.**  A slot that somebody waits for is in the table, or the resolver
attends to it; and a sweep attends to all that is in the table. -/
structure Attended (s : Table T Q R) : Prop where
  waiting : ∀ t id q, s.phase t = .waiting id q → id ∈ s.pending ∨ s.Attends id
  sweeping : s.job.sweeping = true → ∀ id ∈ s.pending, s.Attends id

theorem Attended.setPhase (hw : Attended s) {p : Phase Q R}
    (hp : ∀ id q, p = .waiting id q → id ∈ s.pending ∨ s.Attends id) : Attended (s.setPhase t p) where
  waiting := forall_phase_update (P := fun _ x => ∀ id q, x = .waiting id q →
    id ∈ s.pending ∨ s.Attends id) hp fun u _ => hw.waiting u
  sweeping := hw.sweeping

omit [DecidableEq T] in
/-- A sweep holds the lock. -/
theorem Correlated.not_sweeping (hi : Correlated spec s h) (hl : s.locked = false) :
    s.job.sweeping = false := by
  have hjob := hi.job
  cases hj : s.job with
  | sweep todo =>
    rw [hj] at hjob
    exact absurd (hjob.symm.trans hl) nofun
  | sweepWake id todo =>
    rw [hj] at hjob
    exact absurd (hjob.1.symm.trans hl) nofun
  | _ => rfl

omit [DecidableEq T] in
theorem Attended.work (hw : Attended s) (hs : workStep spec s s.job = some s') : Attended s' := by
  have hsweep := hw.sweeping
  have hwait := hw.waiting
  simp only [Table.Attends] at hsweep hwait
  generalize hj : s.job = j at hs hsweep hwait
  -- the events of a step of the resolver, with its targets afterwards
  have move : ∀ {s' : Table T Q R}, s'.phase = s.phase → s'.pending = s.pending →
      (∀ id, id ∈ j.targets ∨ (s.slots id).event = true → s'.Attends id) →
      (s'.job.sweeping = true → j.sweeping = true) → Attended s' := by
    intro s' h1 h2 h3 h4
    refine ⟨fun t id q ht => ?_, fun hsw id hm => ?_⟩
    · rw [h1] at ht
      rw [h2]
      exact (hwait t id q ht).imp_right (h3 id)
    · rw [h2] at hm
      exact h3 id (hsweep (h4 hsw) id hm)
  have responds : ∀ {r : R} {i id : ℕ}, ((s.respond i r).slots id).event = (s.slots id).event := by
    intro r i id
    by_cases hid : id = i
    · subst hid
      simp [Table.respond, Table.setSlot]
    · simp [Table.respond, Table.setSlot, hid]
  have sets : ∀ {i id : ℕ}, id = i ∨ (s.slots id).event = true → ((s.setEvent i).slots id).event = true := by
    intro i id hor
    by_cases hid : id = i
    · subst hid
      simp [Table.setEvent, Table.setSlot]
    · simpa [Table.setEvent, Table.setSlot, hid] using hor
  match j, hs with
  | .fill id r, hs =>
    cases hs
    exact move rfl rfl (fun i hor => hor.imp_right fun hev => responds.trans hev) nofun
  | .wake id, hs =>
    cases hs
    exact move rfl rfl (fun i hor => .inr (sets (hor.imp_left List.mem_singleton.1))) nofun
  | .sweep (id :: todo), hs =>
    cases hs
    exact move rfl rfl (fun i hor => hor.imp_right fun hev => responds.trans hev) fun _ => rfl
  | .sweepWake id todo, hs =>
    cases hs
    refine move rfl rfl (fun i hor => ?_) fun _ => rfl
    rcases hor with hm | hev
    · rcases List.mem_cons.1 hm with hid | hm
      · exact .inr (sets (.inl hid))
      · exact .inl hm
    · exact .inr (sets (.inr hev))
  | .sweep [], hs =>
    cases hs
    refine ⟨fun t id q ht => .inr (.inr ?_), nofun⟩
    rcases hwait t id q ht with hm | hm | hev
    · exact (hsweep rfl id hm).resolve_left List.not_mem_nil
    · cases hm
    · exact hev

theorem Attended.step (hw : Attended s) (hi : Correlated spec s h) {a : TableAct T Q R W}
    (hs : tableStep spec s a = some s') : Attended s' := by
  cases a with
  | spend q =>
    cases hs
    exact ⟨hw.waiting, hw.sweeping⟩
  | issue t q =>
    simp only [tableStep] at hs
    split at hs <;> cases hs
    -- the new slot is nobody's yet
    have keep : ∀ id < s.nextId, s.Attends id → ((s.setSlot s.nextId {}).Attends id) := by
      intro id hlt hat
      simpa [Table.Attends, Table.setSlot, Nat.ne_of_lt hlt] using hat
    refine ⟨?_, fun hsw id hm => keep id (hi.pendingBelow id hm) (hw.sweeping hsw id hm)⟩
    refine forall_phase_update (P := fun _ x => ∀ id q, x = .waiting id q → id ∈ s.pending ∨
      (s.setSlot s.nextId {}).Attends id) nofun fun u _ id q' hu => ?_
    have hu : s.phase u = .waiting id q' := hu
    exact (hw.waiting u id q' hu).imp_right (keep id (hi.lt_of_held (by rw [hu]; rfl)))
  | register t =>
    simp only [tableStep] at hs
    split at hs <;> cases hs
    rename_i id q ht hl
    refine ⟨?_, fun hsw => ?_⟩
    · refine forall_phase_update (P := fun _ x => ∀ i q, x = .waiting i q → i ∈ s.pending ++ [id] ∨
        s.Attends i) ?_ fun u _ i q' hu => ?_
      · rintro _ _ ⟨⟩
        exact .inl (List.mem_append_right _ (List.mem_singleton_self id))
      · exact (hw.waiting u i q' hu).imp_left (List.mem_append_left _)
    · have hsw : s.job.sweeping = true := hsw
      rw [hi.not_sweeping hl] at hsw
      cases hsw
  | withdraw t w =>
    simp only [tableStep] at hs
    split at hs <;> cases hs
    rename_i id q ht hl
    refine ⟨?_, fun hsw => ?_⟩
    · refine forall_phase_update (P := fun _ x => ∀ i q, x = .waiting i q → i ∈ s.pending.erase id ∨
        s.Attends i) nofun fun u hu i q' hui => ?_
      refine (hw.waiting u i q' hui).imp_left fun hm => (List.mem_erase_of_ne ?_).2 hm
      rintro rfl
      exact hu (hi.ids.alone u t (i, q') (i, q) (by simp only [hui]; rfl) (by simp only [ht]; rfl) rfl)
    · have hsw : s.job.sweeping = true := hsw
      rw [hi.not_sweeping hl] at hsw
      cases hsw
  | see t =>
    simp only [tableStep] at hs
    split at hs
    · split at hs <;> cases hs
      exact hw.setPhase nofun
    · cases hs
  | fetch t | ret t =>
    simp only [tableStep] at hs
    split at hs <;> cases hs
    exact hw.setPhase nofun
  | take id r =>
    simp only [tableStep] at hs
    split at hs
    · rename_i hj hl
      split at hs <;> cases hs
      refine ⟨fun t i q ht => ?_, nofun⟩
      have hor := hw.waiting t i q ht
      simp only [Table.Attends, hj] at hor
      rcases hor with hm | hm | hev
      · by_cases hid : i = id
        · exact .inr (.inl (List.mem_singleton.2 hid))
        · exact .inl ((List.mem_erase_of_ne hid).2 hm)
      · cases hm
      · exact .inr (.inr hev)
    · cases hs
  | lock =>
    simp only [tableStep] at hs
    split at hs <;> cases hs
    rename_i hj hl
    refine ⟨fun t i q ht => ?_, fun _ i hm => .inl hm⟩
    have hor := hw.waiting t i q ht
    simp only [Table.Attends, hj] at hor
    rcases hor with hm | hm | hev
    · exact .inl hm
    · cases hm
    · exact .inr (.inr hev)
  | work => exact hw.work hs

theorem attended_of_reachable {p : Table T Q R × TableHistory T Q R}
    (hr : (tableMachine spec T Q).Reachable p) : Attended p.1 := by
  refine hr.invariant (fun p => Attended p.1) ?_ ?_
  · rintro ⟨s, h⟩ ⟨⟨-, -, hphase, hj, -⟩, -⟩
    refine ⟨fun t id q ht => ?_, fun hsw => ?_⟩
    · rw [hphase] at ht
      cases ht
    · have hj : s.job = .idle := hj
      rw [hj] at hsw
      cases hsw
  · rintro ⟨s, h⟩ a ⟨s', h'⟩ hr hw hs
    exact hw.step (correlated_of_reachable hr) (Machine.withHistory_step.1 hs).1

/-! ## What callers observe -/

omit [DecidableEq T] in
/-- A call that has returned has a reply: that of a sweep, one of its own, or one that was taken for
its id. -/
theorem Correlated.reply (hi : Correlated spec s h) {x : CallReturn T Q R} (hx : x ∈ h.returns) :
    ∃ r, x.reply = some r ∧ (r = spec.lost ∨ (∃ w, r = spec.withdrawn w) ∨ (x.id, r) ∈ h.taken) :=
  (hi.settled x hx).1

omit [DecidableEq T] in
/-- The id of a call that has returned is in the table during a sweep only. -/
theorem Correlated.locked_of_pending (hi : Correlated spec s h) {x : CallReturn T Q R}
    (hx : x ∈ h.returns) (hm : x.id ∈ s.pending) : s.locked = true :=
  hi.swept x.id hm ((hi.settled x hx).2 hm)

theorem mem_pending_of_step {a : TableAct T Q R W} (hs : tableStep spec s a = some s') {id : ℕ}
    (hm : id ∈ s'.pending) : id ∈ s.pending ∨ ∃ t q, s.phase t = .issued id q := by
  cases a with
  | register t =>
    simp only [tableStep] at hs
    split at hs <;> cases hs
    rename_i ht hl
    rcases List.mem_append.1 hm with hm | hm
    · exact .inl hm
    · rw [List.mem_singleton.1 hm]
      exact .inr ⟨_, _, ht⟩
  | withdraw t w =>
    simp only [tableStep] at hs
    split at hs <;> cases hs
    exact .inl (List.mem_of_mem_erase hm)
  | take i r =>
    simp only [tableStep] at hs
    split at hs
    · split at hs <;> cases hs
      exact .inl (List.mem_of_mem_erase hm)
    · cases hs
  | work =>
    simp only [tableStep] at hs
    generalize s.job = j at hs
    cases j with
    | sweep todo =>
      cases todo with
      | nil =>
        cases hs
        cases hm
      | cons id todo =>
        cases hs
        exact .inl hm
    | idle => cases hs
    | _ =>
      cases hs
      exact .inl hm
  | spend q =>
    cases hs
    exact .inl hm
  | _ =>
    simp only [tableStep] at hs
    repeat' split at hs
    all_goals cases hs
    exact .inl hm

/-- The id of a call that has returned does not come into the table again. -/
theorem Correlated.not_pending_again (hi : Correlated spec s h) {x : CallReturn T Q R}
    (hx : x ∈ h.returns) (hn : x.id ∉ s.pending) {a : TableAct T Q R W}
    (hs : tableStep spec s a = some s') : x.id ∉ s'.pending := by
  intro hm
  rcases mem_pending_of_step hs hm with hm | ⟨t, q, ht⟩
  · exact hn hm
  · exact (hi.ids.returned x hx).2 t (x.id, q) (by rw [ht]; rfl) rfl

end Slots

end DistRes.Lib
