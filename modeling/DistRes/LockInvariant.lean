import DistRes.DataLayer

/-!
# Counters of the readers-writer lock

A thread has one of four *roles* towards the lock: it is between a successful `acquire_read` and
its `release_read` (`reader`), between a successful `acquire_write` and its `release_write`
(`writer`), inside the waiting loop of `acquire_write` (`waiting`), or none of these (`out`).

* `Moves` is everything that a step does to the three counters, by the role that the thread leaves
  and the role that it takes up, and `callStep_moves` says that it is all;
* `LockInv` ties the counters to the numbers of threads in the roles; `WaitInv` ties the wait sets
  to the threads that are inside `wait`.
-/

namespace DistRes

open Lib

/-! ## Roles -/

inductive Role
  | out
  | waiting
  | reader
  | writer
  deriving DecidableEq

def ReadPc.role : ReadPc → Role
  | .callback | .load | .stamp _ | .release _ => .reader
  | .acquire _ | .refused | .done _ => .out

def WritePc.role : WritePc → Role
  | .acquire .wait | .acquire .woken => .waiting
  | .callback | .openFile | .append _ _ | .bump _ | .release _ => .writer
  | .acquire .enter | .acquire (.returned _) | .refused | .done _ => .out

/-- The role of a thread towards the lock. -/
def Call.role : Call → Role
  | .idle => .out
  | .read pc => pc.role
  | .write _ _ pc => pc.role

/-! ## What a step does to the counters -/

section Moves

variable {T : Type}

/-- The three counters: `_active_readers`, `_active_writers`, `_waiting_writers`. -/
def ReadWriteLock.counts (l : ReadWriteLock T) : ℤ × ℤ × ℤ :=
  (l.activeReaders, l.activeWriters, l.waitingWriters)

/-- **What a step does to the counters**, by the roles of the thread before and after it. -/
inductive Moves : ℤ × ℤ × ℤ → Role → ℤ × ℤ × ℤ → Role → Prop
  | stay (n : ℤ × ℤ × ℤ) (r : Role) : Moves n r n r
  | startReading {ar aw ww : ℤ} : aw ≤ 0 → ww ≤ 0 → Moves (ar, aw, ww) .out (ar + 1, aw, ww) .reader
  | stopReading (ar aw ww : ℤ) : Moves (ar, aw, ww) .reader (ar - 1, aw, ww) .out
  | startWaiting (ar aw ww : ℤ) : Moves (ar, aw, ww) .out (ar, aw, ww + 1) .waiting
  | giveUp (ar aw ww : ℤ) : Moves (ar, aw, ww) .waiting (ar, aw, ww - 1) .out
  | startWriting {ar aw ww : ℤ} : ar ≤ 0 → aw ≤ 0 → Moves (ar, aw, ww) .out (ar, aw + 1, ww) .writer
  | stopWaiting {ar aw ww : ℤ} : ar ≤ 0 → aw ≤ 0 →
      Moves (ar, aw, ww) .waiting (ar, aw + 1, ww - 1) .writer
  | stopWriting (ar aw ww : ℤ) : Moves (ar, aw, ww) .writer (ar, aw - 1, ww) .out

variable [DecidableEq T]

omit [DecidableEq T] in
theorem readPass_moves (l : ReadWriteLock T) (t : T) (e : Bool) :
    Moves l.counts .out (l.readPass t e).1.counts (ReadPc.ofAcquire (l.readPass t e).2).role := by
  unfold ReadWriteLock.readPass
  split_ifs with h he
  · exact .stay _ _
  · exact .stay _ _
  · exact .startReading (by omega) (by omega)

theorem acquireRead_moves {l l' : ReadWriteLock T} {t : T} {e : Bool} {p q : Acquire}
    (h : l.acquireRead t e p = some (l', q)) :
    Moves l.counts .out l'.counts (ReadPc.ofAcquire q).role := by
  cases p with
  | enter =>
    have := readPass_moves l t e
    simp only [ReadWriteLock.acquireRead, Option.some.injEq] at h
    rwa [h] at this
  | wait =>
    have := readPass_moves l t e
    simp only [ReadWriteLock.acquireRead, Option.ite_none_left_eq_some, Option.some.injEq] at h
    rwa [h.2] at this
  | woken =>
    have := readPass_moves { l with readersOk := l.readersOk.erase t } t e
    simp only [ReadWriteLock.acquireRead, Option.some.injEq] at h
    rwa [h] at this
  | returned b => cases h

section

omit [DecidableEq T]

theorem releaseRead_counts (l : ReadWriteLock T) (k : ℕ) :
    (l.releaseRead k).counts = (l.activeReaders - 1, l.activeWriters, l.waitingWriters) := by
  unfold ReadWriteLock.releaseRead
  split_ifs <;> rfl

/-- A pass of a thread that is in the loop already. -/
theorem writePass_moves (l : ReadWriteLock T) (t : T) (e : Bool) :
    Moves l.counts .waiting (l.writePass t e).1.counts (WritePc.ofAcquire (l.writePass t e).2).role := by
  unfold ReadWriteLock.writePass
  split_ifs with h he
  · exact .giveUp _ _ _
  · exact .stay _ _
  · exact .stopWaiting (by omega) (by omega)

/-- The first pass, which counts the thread as waiting before it tests the loop condition. -/
theorem writePass_moves_enter (l : ReadWriteLock T) (t : T) (e : Bool) :
    Moves l.counts .out ({ l with waitingWriters := l.waitingWriters + 1 }.writePass t e).1.counts
      (WritePc.ofAcquire ({ l with waitingWriters := l.waitingWriters + 1 }.writePass t e).2).role := by
  obtain ⟨rs, ws, ar, aw, ww⟩ := l
  simp only [ReadWriteLock.writePass, ReadWriteLock.counts]
  split_ifs with h he
  · have hww : ww + 1 - 1 = ww := by omega
    simp only [hww]
    exact .stay _ _
  · exact .startWaiting _ _ _
  · have hww : ww + 1 - 1 = ww := by omega
    simp only [hww]
    exact .startWriting (by omega) (by omega)

end

theorem acquireWrite_moves {l l' : ReadWriteLock T} {t : T} {e : Bool} {p q : Acquire}
    (h : l.acquireWrite t e p = some (l', q)) :
    Moves l.counts (WritePc.acquire p).role l'.counts (WritePc.ofAcquire q).role := by
  cases p with
  | enter =>
    have := writePass_moves_enter l t e
    simp only [ReadWriteLock.acquireWrite, Option.some.injEq] at h
    rwa [h] at this
  | wait =>
    have := writePass_moves l t e
    simp only [ReadWriteLock.acquireWrite, Option.ite_none_left_eq_some, Option.some.injEq] at h
    rwa [h.2] at this
  | woken =>
    have := writePass_moves { l with writersOk := l.writersOk.erase t } t e
    simp only [ReadWriteLock.acquireWrite, Option.some.injEq] at h
    rwa [h] at this
  | returned b => cases h

theorem readResource_moves {t : T} {d d' : DataLayer T} {pc pc' : ReadPc} {a : DataAct}
    (h : readResource t d pc a = some (d', pc')) :
    Moves d.rwLock.counts pc.role d'.rwLock.counts pc'.role := by
  cases readResource_cases h with
  | acquire p q expired l hl => exact acquireRead_moves hl
  | released o k =>
    rw [show DataLayer.rwLock _ = _ from rfl, releaseRead_counts]
    exact .stopReading _ _ _
  | _ => exact .stay _ _

theorem writeResource_moves {t : T} {u x : Text} {d d' : DataLayer T} {pc pc' : WritePc} {a : DataAct}
    (h : writeResource t u x d pc a = some (d', pc')) :
    Moves d.rwLock.counts pc.role d'.rwLock.counts pc'.role := by
  cases writeResource_cases h with
  | acquire p q expired l hl => exact acquireWrite_moves hl
  | released o k => exact .stopWriting _ _ _
  | _ => exact .stay _ _

/-- **Inversion.**  `Moves` is all that a step of a thread does to the counters. -/
theorem callStep_moves {t : T} {d d' : DataLayer T} {c c' : Call} {a : CallAct}
    (h : callStep t d c a = some (d', c')) :
    Moves d.rwLock.counts c.role d'.rwLock.counts c'.role := by
  unfold callStep at h
  split at h
  all_goals try (cases h <;> exact .stay _ _)
  · obtain ⟨⟨d1, pc1⟩, hr, he⟩ := Option.map_eq_some_iff.1 h
    cases he
    exact readResource_moves hr
  · obtain ⟨⟨d1, pc1⟩, hr, he⟩ := Option.map_eq_some_iff.1 h
    cases he
    exact writeResource_moves hr

end Moves

/-! ## The counters in reachable states -/

section Counters

variable {T : Type} [DecidableEq T] [Fintype T]

/-- **The invariant of the counters.**  Each of them is the number of threads in its role, and a
writer is alone. -/
structure LockInv (l : ReadWriteLock T) (th : T → Call) : Prop where
  readers : l.activeReaders = count (fun c : Call => c.role = .reader) th
  writers : l.activeWriters = count (fun c : Call => c.role = .writer) th
  waiting : l.waitingWriters = count (fun c : Call => c.role = .waiting) th
  alone : 0 < l.activeWriters → l.activeWriters = 1 ∧ l.activeReaders = 0

/-- The change of the number of threads in the role `q` when a thread goes from `r` to `r'`. -/
theorem count_role_update {th : T → Call} {t : T} {c : Call} (q : Role) :
    (count (fun c : Call => c.role = q) (Function.update th t c) : ℤ) =
      count (fun c : Call => c.role = q) th + (if c.role = q then 1 else 0) -
        (if (th t).role = q then 1 else 0) := by
  have := count_update (fun c : Call => c.role = q) th t c
  split_ifs at this ⊢ <;> omega

/-- **One step keeps the invariant.** -/
theorem LockInv.step {l l' : ReadWriteLock T} {th : T → Call} {t : T} {c : Call}
    (h : LockInv l th) (hm : Moves l.counts (th t).role l'.counts c.role) :
    LockInv l' (Function.update th t c) := by
  obtain ⟨hr, hw, hq, ha⟩ := h
  obtain ⟨rs, ws, ar, aw, ww⟩ := l
  obtain ⟨rs', ws', ar', aw', ww'⟩ := l'
  simp only [ReadWriteLock.counts] at hm hr hw hq ha
  generalize hrole : (th t).role = r at hm
  generalize hrole' : c.role = r' at hm
  have key : ∀ q : Role, (count (fun c : Call => c.role = q) (Function.update th t c) : ℤ) =
      count (fun c : Call => c.role = q) th + (if r' = q then 1 else 0) - (if r = q then 1 else 0) :=
    fun q => by rw [count_role_update, hrole, hrole']
  have kr := key .reader
  have kw := key .writer
  have kq := key .waiting
  cases hm with
  | stay =>
    refine ⟨?_, ?_, ?_, ha⟩
    · rw [kr]; dsimp only; omega
    · rw [kw]; dsimp only; omega
    · rw [kq]; dsimp only; omega
  | _ =>
    simp only [reduceCtorEq, if_true, if_false] at kr kw kq
    refine ⟨?_, ?_, ?_, ?_⟩ <;> dsimp only <;> omega

end Counters

/-! ## The wait sets -/

section WaitSets

variable {T : Type} [DecidableEq T]

/-- Inside `_readers_ok.wait`. -/
def Call.waitsRead : Call → Bool
  | .read (.acquire .wait) | .read (.acquire .woken) => true
  | _ => false

/-- Inside `_writers_ok.wait`. -/
def Call.waitsWrite : Call → Bool
  | .write _ _ (.acquire .wait) | .write _ _ (.acquire .woken) => true
  | _ => false

/-- What a step of `t` does to a wait set, `w` saying whether `t` is inside the wait afterwards. -/
inductive WaitMoves (t : T) (ws ws' : List T) (w : Bool) : Prop
  | shrink : ws'.Sublist ws → (t ∈ ws' → w = true) → WaitMoves t ws ws' w
  | join : ws' = ws.erase t ++ [t] → w = true → WaitMoves t ws ws' w

theorem WaitMoves.same {t : T} {ws : List T} {w w' : Bool} (hw : t ∈ ws → w = true)
    (h : w = true → w' = true) : WaitMoves t ws ws w' :=
  .shrink (List.Sublist.refl ws) fun ht => h (hw ht)

/-- A wait set that `t` is not in may lose members. -/
theorem WaitMoves.outside {t : T} {ws ws' : List T} {w : Bool} (hs : ws'.Sublist ws) (ht : t ∉ ws) :
    WaitMoves t ws ws' w :=
  .shrink hs fun h => absurd (hs.subset h) ht

omit [DecidableEq T] in
theorem notify_sublist (k : ℕ) (ws : List T) : (ReadWriteLock.notify k ws).Sublist ws :=
  List.eraseIdx_sublist _ _

theorem acquireRead_waits {l l' : ReadWriteLock T} {t : T} {e : Bool} {p q : Acquire}
    (h : l.acquireRead t e p = some (l', q)) (hn : l.readersOk.Nodup)
    (hw : t ∈ l.readersOk → (Call.read (.acquire p)).waitsRead = true) :
    WaitMoves t l.readersOk l'.readersOk (Call.read (.ofAcquire q)).waitsRead ∧
      l'.writersOk = l.writersOk := by
  cases p with
  | enter =>
    have ht : t ∉ l.readersOk := fun ht => by simpa [Call.waitsRead] using hw ht
    simp only [ReadWriteLock.acquireRead, Option.some.injEq, ReadWriteLock.readPass] at h
    split_ifs at h <;> cases h
    · exact ⟨.outside (List.Sublist.refl _) ht, rfl⟩
    · exact ⟨.join (by rw [List.erase_of_not_mem ht]) rfl, rfl⟩
    · exact ⟨.outside (List.Sublist.refl _) ht, rfl⟩
  | wait =>
    simp only [ReadWriteLock.acquireRead, Option.ite_none_left_eq_some, Option.some.injEq,
      ReadWriteLock.readPass] at h
    obtain ⟨ht, h⟩ := h
    split_ifs at h <;> cases h
    · exact ⟨.outside (List.Sublist.refl _) ht, rfl⟩
    · exact ⟨.join (by rw [List.erase_of_not_mem ht]) rfl, rfl⟩
    · exact ⟨.outside (List.Sublist.refl _) ht, rfl⟩
  | woken =>
    have ht : t ∉ l.readersOk.erase t := hn.not_mem_erase
    simp only [ReadWriteLock.acquireRead, Option.some.injEq, ReadWriteLock.readPass] at h
    split_ifs at h <;> cases h
    · exact ⟨.shrink List.erase_sublist fun h => absurd h ht, rfl⟩
    · exact ⟨.join rfl rfl, rfl⟩
    · exact ⟨.shrink List.erase_sublist fun h => absurd h ht, rfl⟩
  | returned b => cases h

theorem acquireWrite_waits {l l' : ReadWriteLock T} {t : T} {e : Bool} {p q : Acquire} {u x : Text}
    (h : l.acquireWrite t e p = some (l', q)) (hn : l.writersOk.Nodup)
    (hw : t ∈ l.writersOk → (Call.write u x (.acquire p)).waitsWrite = true) :
    WaitMoves t l.writersOk l'.writersOk (Call.write u x (.ofAcquire q)).waitsWrite ∧
      l'.readersOk = l.readersOk := by
  cases p with
  | enter =>
    have ht : t ∉ l.writersOk := fun ht => by simpa [Call.waitsWrite] using hw ht
    simp only [ReadWriteLock.acquireWrite, Option.some.injEq, ReadWriteLock.writePass] at h
    split_ifs at h <;> cases h
    · exact ⟨.outside (List.Sublist.refl _) ht, rfl⟩
    · exact ⟨.join (by rw [List.erase_of_not_mem ht]) rfl, rfl⟩
    · exact ⟨.outside (List.Sublist.refl _) ht, rfl⟩
  | wait =>
    simp only [ReadWriteLock.acquireWrite, Option.ite_none_left_eq_some, Option.some.injEq,
      ReadWriteLock.writePass] at h
    obtain ⟨ht, h⟩ := h
    split_ifs at h <;> cases h
    · exact ⟨.outside (List.Sublist.refl _) ht, rfl⟩
    · exact ⟨.join (by rw [List.erase_of_not_mem ht]) rfl, rfl⟩
    · exact ⟨.outside (List.Sublist.refl _) ht, rfl⟩
  | woken =>
    have ht : t ∉ l.writersOk.erase t := hn.not_mem_erase
    simp only [ReadWriteLock.acquireWrite, Option.some.injEq, ReadWriteLock.writePass] at h
    split_ifs at h <;> cases h
    · exact ⟨.shrink List.erase_sublist fun h => absurd h ht, rfl⟩
    · exact ⟨.join rfl rfl, rfl⟩
    · exact ⟨.shrink List.erase_sublist fun h => absurd h ht, rfl⟩
  | returned b => cases h

/-- **The invariant of the wait sets.**  A thread is in a wait set at most once, and only while it
is inside the wait. -/
structure WaitInv (l : ReadWriteLock T) (th : T → Call) : Prop where
  readersNodup : l.readersOk.Nodup
  readers : ∀ t ∈ l.readersOk, (th t).waitsRead = true
  writersNodup : l.writersOk.Nodup
  writers : ∀ t ∈ l.writersOk, (th t).waitsWrite = true

theorem callStep_waits {t : T} {d d' : DataLayer T} {th : T → Call} {c' : Call} {a : CallAct}
    (hi : WaitInv d.rwLock th) (h : callStep t d (th t) a = some (d', c')) :
    WaitMoves t d.rwLock.readersOk d'.rwLock.readersOk c'.waitsRead ∧
      WaitMoves t d.rwLock.writersOk d'.rwLock.writersOk c'.waitsWrite := by
  have hr := hi.readers t
  have hw := hi.writers t
  generalize th t = c at h hr hw
  -- a call of the other kind is in neither wait, so only its own condition needs a look
  unfold callStep at h
  split at h
  · cases h
    exact ⟨.same hr (by simp [Call.waitsRead]), .same hw (by simp [Call.waitsWrite])⟩
  · cases h
    exact ⟨.same hr (by simp [Call.waitsRead]), .same hw (by simp [Call.waitsWrite])⟩
  · obtain ⟨⟨d1, pc1⟩, hs, he⟩ := Option.map_eq_some_iff.1 h
    cases he
    cases readResource_cases hs with
    | acquire p q expired l hl =>
      obtain ⟨h1, h2⟩ := acquireRead_waits hl hi.readersNodup hr
      refine ⟨h1, ?_⟩
      simp only [h2]
      exact .same hw (by simp [Call.waitsWrite])
    | released o k =>
      have hw : t ∉ d.rwLock.writersOk := fun ht => by simpa [Call.waitsWrite] using hw ht
      simp only [ReadWriteLock.releaseRead]
      split_ifs
      · exact ⟨.same hr (by simp [Call.waitsRead]), .outside (notify_sublist _ _) hw⟩
      · exact ⟨.same hr (by simp [Call.waitsRead]), .outside (List.Sublist.refl _) hw⟩
    | _ => exact ⟨.same hr (by simp [Call.waitsRead]), .same hw (by simp [Call.waitsWrite])⟩
  · obtain ⟨⟨d1, pc1⟩, hs, he⟩ := Option.map_eq_some_iff.1 h
    cases he
    cases writeResource_cases hs with
    | acquire p q expired l hl =>
      obtain ⟨h1, h2⟩ := acquireWrite_waits hl hi.writersNodup hw
      refine ⟨?_, h1⟩
      simp only [h2]
      exact .same hr (by simp [Call.waitsRead])
    | released o k =>
      have hw : t ∉ d.rwLock.writersOk := fun ht => by simpa [Call.waitsWrite] using hw ht
      exact ⟨.shrink (List.nil_sublist _) (by simp [ReadWriteLock.releaseWrite]),
        .outside (notify_sublist _ _) hw⟩
    | _ => exact ⟨.same hr (by simp [Call.waitsRead]), .same hw (by simp [Call.waitsWrite])⟩
  · cases h
    exact ⟨.same hr (by simp [Call.waitsRead]), .same hw (by simp [Call.waitsWrite])⟩
  · cases h
    exact ⟨.same hr (by simp [Call.waitsRead]), .same hw (by simp [Call.waitsWrite])⟩
  · cases h

/-- One wait set after one step. -/
theorem WaitMoves.keeps {t : T} {ws ws' : List T} {W : Call → Bool} {th : T → Call} {c : Call}
    (hm : WaitMoves t ws ws' (W c)) (hn : ws.Nodup) (hw : ∀ u ∈ ws, W (th u) = true) :
    ws'.Nodup ∧ ∀ u ∈ ws', W (Function.update th t c u) = true := by
  have other : ∀ u ∈ ws, u ≠ t → W (Function.update th t c u) = true := fun u hu hne => by
    rw [Function.update_of_ne hne]
    exact hw u hu
  cases hm with
  | shrink hs ht =>
    refine ⟨hn.sublist hs, fun u hu => ?_⟩
    by_cases hut : u = t
    · subst hut
      rw [Function.update_self]
      exact ht hu
    · exact other u (hs.subset hu) hut
  | join he ht =>
    subst he
    refine ⟨?_, fun u hu => ?_⟩
    · rw [List.nodup_append]
      refine ⟨hn.erase t, by simp, fun a ha b hb hab => ?_⟩
      rw [List.mem_singleton] at hb
      subst hab hb
      exact hn.not_mem_erase ha
    · by_cases hut : u = t
      · subst hut
        rw [Function.update_self]
        exact ht
      · rcases List.mem_append.1 hu with hu | hu
        · exact other u (List.mem_of_mem_erase hu) hut
        · exact absurd (List.mem_singleton.1 hu) hut

theorem WaitInv.step {t : T} {d d' : DataLayer T} {th : T → Call} {c' : Call} {a : CallAct}
    (hi : WaitInv d.rwLock th) (h : callStep t d (th t) a = some (d', c')) :
    WaitInv d'.rwLock (Function.update th t c') := by
  obtain ⟨hr, hw⟩ := callStep_waits hi h
  obtain ⟨r1, r2⟩ := hr.keeps hi.readersNodup hi.readers
  obtain ⟨w1, w2⟩ := hw.keeps hi.writersNodup hi.writers
  exact ⟨r1, r2, w1, w2⟩

end WaitSets

/-! ## Reachable states -/

section Reachable

variable {T : Type} [DecidableEq T] [Fintype T] {file : Bytes}

omit [DecidableEq T] in
theorem lockInv_init {d : DataLayer T} {th : T → Call} (hd : d = { file := file })
    (hth : ∀ t, th t = .idle) : LockInv d.rwLock th := by
  have none : ∀ q : Role, q ≠ .out → count (fun c : Call => c.role = q) th = 0 := fun q hq =>
    (count_eq_zero _).2 fun t ht => hq (by rw [← ht, hth t]; rfl)
  subst hd
  exact ⟨by rw [none _ (by decide)]; rfl, by rw [none _ (by decide)]; rfl,
    by rw [none _ (by decide)]; rfl, fun h => absurd h (lt_irrefl 0)⟩

theorem lockInv_of_reachable {s : Pool.State T (DataLayer T) Call}
    (h : (dataMachine T file).Reachable s) : LockInv s.shared.rwLock s.thread := by
  refine h.invariant (fun s => LockInv s.shared.rwLock s.thread)
    (fun s hs => lockInv_init hs.1 hs.2) ?_
  intro s a s' _ ih hs
  obtain ⟨d, c, hstep, rfl⟩ := Pool.machine_step.1 hs
  exact ih.step (callStep_moves hstep)

omit [Fintype T] in
theorem waitInv_of_reachable {s : Pool.State T (DataLayer T) Call}
    (h : (dataMachine T file).Reachable s) : WaitInv s.shared.rwLock s.thread := by
  refine h.invariant (fun s => WaitInv s.shared.rwLock s.thread) ?_ ?_
  · rintro s ⟨hs, -⟩
    rw [show s.shared = { file := file } from hs]
    exact ⟨List.nodup_nil, by simp, List.nodup_nil, by simp⟩
  · intro s a s' _ ih hs
    obtain ⟨d, c, hstep, rfl⟩ := Pool.machine_step.1 hs
    exact ih.step hstep

omit [DecidableEq T] in
/-- **Exclusion.**  A writer is the only thread between acquire and release. -/
theorem LockInv.writer_alone {l : ReadWriteLock T} {th : T → Call} (h : LockInv l th) {t u : T}
    (ht : (th t).role = .writer) : ((th u).role = .writer → t = u) ∧ (th u).role ≠ .reader := by
  have hpos : 0 < count (fun c : Call => c.role = .writer) th := (count_pos _).2 ⟨t, ht⟩
  obtain ⟨h1, h0⟩ := h.alone (by rw [h.writers]; omega)
  constructor
  · intro hu
    have hle : count (fun c : Call => c.role = .writer) th ≤ 1 := by have := h.writers; omega
    exact (count_le_one _).1 hle t u ht hu
  · intro hu
    have : 0 < count (fun c : Call => c.role = .reader) th := (count_pos _).2 ⟨u, hu⟩
    have := h.readers
    omega

/-- **The readers-writer lock over all interleavings.**  In every reachable state a writer is alone,
the three counters are the numbers of threads in the three roles, a thread whose acquire has given
up is in no role and no wait set, and when no call is in progress the counters are zero. -/
theorem lock_counters_exact {s : Pool.State T (DataLayer T) Call}
    (h : (dataMachine T file).Reachable s) :
    (∀ t u, (s.thread t).role = .writer → (s.thread u).role = .writer → t = u) ∧
    (∀ t u, (s.thread t).role = .writer → (s.thread u).role ≠ .reader) ∧
    s.shared.rwLock.activeReaders = count (fun c : Call => c.role = .reader) s.thread ∧
    s.shared.rwLock.activeWriters = count (fun c : Call => c.role = .writer) s.thread ∧
    s.shared.rwLock.waitingWriters = count (fun c : Call => c.role = .waiting) s.thread ∧
    (∀ t, s.thread t = .read .refused ∨ (∃ u x, s.thread t = .write u x .refused) →
      (s.thread t).role = .out ∧ t ∉ s.shared.rwLock.readersOk ∧ t ∉ s.shared.rwLock.writersOk) ∧
    ((∀ t, s.thread t = .idle) → s.shared.rwLock.counts = (0, 0, 0)) := by
  have hl := lockInv_of_reachable h
  have hw := waitInv_of_reachable h
  refine ⟨fun t u ht hu => (hl.writer_alone ht).1 hu, fun t u ht => (hl.writer_alone ht).2,
    hl.readers, hl.writers, hl.waiting, ?_, ?_⟩
  · intro t ht
    refine ⟨?_, fun hm => ?_, fun hm => ?_⟩
    · rcases ht with ht | ⟨u, x, ht⟩ <;> rw [ht] <;> rfl
    · have := hw.readers t hm
      rcases ht with ht | ⟨u, x, ht⟩ <;> rw [ht] at this <;> cases this
    · have := hw.writers t hm
      rcases ht with ht | ⟨u, x, ht⟩ <;> rw [ht] at this <;> cases this
  · intro hidle
    have none : ∀ q : Role, q ≠ .out → count (fun c : Call => c.role = q) s.thread = 0 :=
      fun q hq => (count_eq_zero _).2 fun t ht => hq (by rw [← ht, hidle t]; rfl)
    simp only [ReadWriteLock.counts, hl.readers, hl.writers, hl.waiting, none _ (show Role.reader ≠
      .out by decide), none _ (show Role.writer ≠ .out by decide),
      none _ (show Role.waiting ≠ .out by decide)]
    rfl

end Reachable

/-! ### A run -/

/-- `t` reads; `v` queues up for writing behind it, wakes when its time is up and gives up; `w` was
held back and gives up as well. -/
def timeoutRun {T : Type} (t v w : T) : List (T × CallAct) :=
  [(t, .call .read), (t, .step (.lock false)), (v, .call (.write [] [])), (v, .step (.lock false)),
    (w, .call .read), (w, .step (.lock true)), (v, .step .wake), (v, .step (.lock true))]

/-- The start of a run with three threads. -/
def startThree : Pool.State (Fin 3) (DataLayer (Fin 3)) Call :=
  ⟨{ file := [] }, fun _ => .idle⟩

theorem timeoutRun_counts :
    ∃ s, (dataMachine (Fin 3) []).run startThree (timeoutRun 0 1 2) = some s ∧
      s.shared.rwLock.activeReaders = count (fun c : Call => c.role = .reader) s.thread ∧
      s.shared.rwLock.counts = (1, 0, 0) := by
  have hs : ((dataMachine (Fin 3) []).run startThree (timeoutRun 0 1 2)).isSome = true := by decide
  obtain ⟨s, hrun⟩ := Option.isSome_iff_exists.1 hs
  have hr : (dataMachine (Fin 3) []).Reachable s :=
    Machine.Reachable.run (s := startThree) (.init ⟨rfl, fun _ => rfl⟩) hrun
  refine ⟨s, hrun, (lock_counters_exact hr).2.2.1, ?_⟩
  have : ((dataMachine (Fin 3) []).run startThree (timeoutRun 0 1 2)).map (·.shared.rwLock.counts) =
      some (1, 0, 0) := by decide
  rw [hrun] at this
  simpa using this

end DistRes
