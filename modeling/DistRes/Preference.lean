import DistRes.Wakeups

/-!
# Writers are not bypassed

While a writer waits, `_waiting_writers` counts it, and every reader that takes the mutex finds it
there.

* `no_reader_admitted` — one step beside a waiting writer;
* `writer_not_bypassed` — the interval from the registration of a writer until it is admitted or gives
  up.
-/

namespace DistRes

open Lib

section Preference

variable {T : Type} [DecidableEq T] [Fintype T] {s s' s₀ s₁ : Pool.State T (ReadWriteLock T) LockUse}
  {t r : T} {a : T × LockAct}

/-! ## One step -/

theorem reading_of_role {u : LockUse} (h : u.call.role = .reader) : u = .reading := by
  cases u with
  | reading => rfl
  | acquireWrite p => cases p <;> cases h
  | _ => cases h

theorem writing_of_role {u : LockUse} (h : u.call.role = .writer) : u = .writing := by
  cases u with
  | writing => rfl
  | acquireWrite p => cases p <;> cases h
  | _ => cases h

/-- A thread that waits in `acquire_write` is counted. -/
theorem waiting_pos (hr : (lockMachine T).Reachable s) (ht : WriterWaits s t) :
    0 < s.shared.waitingWriters := by
  refine (lockInv_of_lock hr).1.waiting_pos (t := t) ?_
  rcases ht with ht | ht <;> simp only [ht] <;> rfl

omit [Fintype T] in
/-- A step of a lock whose writers are counted lets no reader in. -/
theorem LockStep.keeps_out {l l' : ReadWriteLock T} {u u' : LockUse} {b : LockAct}
    (hs : LockStep t l u b l' u') (hw : 0 < l.waitingWriters) :
    (u' = .reading → u = .reading) ∧ l'.activeReaders ≤ l.activeReaders := by
  cases hs with
  | readIn p expired hp hfree => exact absurd (.inr hw) hfree
  | releaseRead k =>
    have hcounts := releaseRead_counts l k
    simp only [ReadWriteLock.counts, Prod.mk.injEq] at hcounts
    refine ⟨fun h => ?_, by omega⟩
    cases h
  | callRead | callWrite | wakeRead | wakeWrite | readWait | readOut | writeIn | writeWait | writeOut
  | releaseWrite =>
    refine ⟨fun h => ?_, le_rfl⟩
    cases h

/-- **No reader is admitted** beside a waiting writer. -/
theorem no_reader_admitted (hr : (lockMachine T).Reachable s) (ht : WriterWaits s t)
    (hs : (lockMachine T).step s a = some s') :
    (∀ r, s'.thread r = .reading → s.thread r = .reading) ∧
      s'.shared.activeReaders ≤ s.shared.activeReaders := by
  obtain ⟨l, u, hstep, rfl⟩ := Pool.machine_step.1 hs
  obtain ⟨hin, hle⟩ := (lockStep_cases hstep).keeps_out (waiting_pos hr ht)
  refine ⟨?_, hle⟩
  exact (Function.forall_update_iff s.thread fun r u => u = .reading → s.thread r = .reading).2
    ⟨hin, fun _ _ hread => hread⟩

/-- Whoever keeps a waiting writer out is inside. -/
theorem held_up {expired : Bool} (hr : (lockMachine T).Reachable s) (ht : WriterWaits s t)
    (hs : (lockMachine T).step s (t, .lock expired) = some s') (hout : s'.thread t ≠ .writing) :
    (∃ r, s.thread r = .reading) ∨ ∃ w, s.thread w = .writing := by
  obtain ⟨l, u, hstep, rfl⟩ := Pool.machine_step.1 hs
  simp only [Function.update_self] at hout
  have hl := (lockInv_of_lock hr).1
  have inside : s.shared.activeReaders > 0 ∨ s.shared.activeWriters > 0 →
      (∃ r, s.thread r = .reading) ∨ ∃ w, s.thread w = .writing := by
    rintro (h | h)
    · rw [hl.readers] at h
      obtain ⟨r, hrole⟩ := (count_pos _).1 (Int.natCast_pos.1 h)
      exact .inl ⟨r, reading_of_role hrole⟩
    · rw [hl.writers] at h
      obtain ⟨w, hrole⟩ := (count_pos _).1 (Int.natCast_pos.1 h)
      exact .inr ⟨w, writing_of_role hrole⟩
  have hcases := lockStep_cases hstep
  rcases ht with ht | ht
  all_goals
    rw [ht] at hcases
    cases hcases with
    | writeIn => exact absurd rfl hout
    | writeWait _ _ hfull => exact inside hfull
    | writeOut _ _ hfull => exact inside hfull

/-! ## The whole wait -/

/-- The lock from `s₁` on, as long as the thread `t` waits: the states of the wait, and the one in
which it ends. -/
abbrev Waiting (s₁ : Pool.State T (ReadWriteLock T) LockUse) (t : T)
    (s : Pool.State T (ReadWriteLock T) LockUse) : Prop :=
  ((lockMachine T).startingAt s₁).Reach (fun s _ => WriterWaits s t) s

/-- Nobody has come in to read since `s₁`. -/
theorem readers_of_waiting (hr : (lockMachine T).Reachable s₁) (hs : Waiting s₁ t s) :
    (∀ r, s.thread r = .reading → s₁.thread r = .reading) ∧
      s.shared.activeReaders ≤ s₁.shared.activeReaders := by
  refine hs.invariant (fun s => (∀ r, s.thread r = .reading → s₁.thread r = .reading) ∧
    s.shared.activeReaders ≤ s₁.shared.activeReaders) ?_ ?_
  · rintro s hs
    have hs : s = s₁ := hs
    subst hs
    exact ⟨fun _ => id, le_rfl⟩
  · rintro s a s' hs ⟨hin, hle⟩ ht hstep
    obtain ⟨hin', hle'⟩ := no_reader_admitted (hr.trans hs) ht hstep
    exact ⟨fun r hread => hin r (hin' r hread), hle'.trans hle⟩

omit [Fintype T] in
/-- The step in which a thread registers lets nobody in to read. -/
theorem LockStep.registers {l l' : ReadWriteLock T} {u' : LockUse} {expired : Bool}
    (hs : LockStep t l (.acquireWrite .enter) (.lock expired) l' u') :
    u' ≠ .reading ∧ l'.activeReaders = l.activeReaders := by
  cases hs <;> exact ⟨nofun, rfl⟩

/-- **Zero bypass.**  From the step in which `t` registers in `acquire_write` to the one in which this
call is admitted or gives up: no step admits a reader, `_active_readers` never increases, and what
keeps `t` out is a reader that was inside when it registered, or another writer. -/
theorem writer_not_bypassed {expired : Bool} (hr : (lockMachine T).Reachable s₀)
    (ht : s₀.thread t = .acquireWrite .enter)
    (hreg : (lockMachine T).step s₀ (t, .lock expired) = some s₁) (hs : Waiting s₁ t s) :
    ((∀ r, s.thread r = .reading → s₀.thread r = .reading) ∧
      s.shared.activeReaders ≤ s₀.shared.activeReaders) ∧
    (WriterWaits s t → ∀ a s', (lockMachine T).step s a = some s' →
      (∀ r, s'.thread r = .reading → s.thread r = .reading) ∧
      s'.shared.activeReaders ≤ s.shared.activeReaders) ∧
    (WriterWaits s t → ∀ e s', (lockMachine T).step s (t, .lock e) = some s' →
      s'.thread t ≠ .writing → (∃ r, s.thread r = .reading ∧ s₀.thread r = .reading) ∨
        ∃ w, s.thread w = .writing) := by
  have hr₁ : (lockMachine T).Reachable s₁ := hr.step hreg
  obtain ⟨hin, hle⟩ := readers_of_waiting hr₁ hs
  have hfirst : (∀ r, s₁.thread r = .reading → s₀.thread r = .reading) ∧
      s₁.shared.activeReaders = s₀.shared.activeReaders := by
    obtain ⟨l, u, hstep, rfl⟩ := Pool.machine_step.1 hreg
    have hstep : lockStep t s₀.shared (s₀.thread t) (.lock expired) = some (l, u) := hstep
    rw [ht] at hstep
    obtain ⟨hne, heq⟩ := (lockStep_cases hstep).registers
    exact ⟨(Function.forall_update_iff s₀.thread fun r u => u = .reading → s₀.thread r = .reading).2
      ⟨fun h => absurd h hne, fun _ _ hread => hread⟩, heq⟩
  refine ⟨⟨fun r hread => hfirst.1 r (hin r hread), hle.trans hfirst.2.le⟩, ?_, ?_⟩
  · intro hw a s' hstep
    exact no_reader_admitted (hr₁.trans hs) hw hstep
  · intro hw e s' hstep hout
    rcases held_up (hr₁.trans hs) hw hstep hout with ⟨r, hread⟩ | hwriting
    · exact .inl ⟨r, hread, hfirst.1 r (hin r hread)⟩
    · exact .inr hwriting

end Preference

/-! ### Runs -/

/-- `t` reads, `v` registers behind it, and `w` comes to read; `v` is kept out, as before by `t`. -/
theorem strandedRun_not_bypassed :
    ∃ s₀ s₁ s, (lockMachine (Fin 3)).run startUses ((strandedRun 0 1 2).take 3) = some s₀ ∧
      (lockMachine (Fin 3)).step s₀ (1, .lock false) = some s₁ ∧ Waiting s₁ 1 s ∧
      s.thread 2 = .acquireRead .wait ∧ s.shared.activeReaders ≤ s₀.shared.activeReaders := by
  have hs : ((lockMachine (Fin 3)).run startUses ((strandedRun 0 1 2).take 3)).bind (fun s₀ =>
      ((lockMachine (Fin 3)).step s₀ (1, .lock false)).bind fun s₁ =>
        (((lockMachine (Fin 3)).startingAt s₁).runIf (fun s _ => WriterWaits s 1) s₁
          [(2, .acquireRead), (2, .lock false)]).map fun s => (s₀.thread 1, s.thread 2)) =
      some (.acquireWrite .enter, .acquireRead .wait) := by decide
  obtain ⟨s₀, hrun, hs⟩ := Option.bind_eq_some_iff.1 hs
  obtain ⟨s₁, hreg, hs⟩ := Option.bind_eq_some_iff.1 hs
  obtain ⟨s, hwait, hval⟩ := Option.map_eq_some_iff.1 hs
  obtain ⟨ht, hread⟩ := Prod.mk.inj hval
  have hr : (lockMachine (Fin 3)).Reachable s₀ :=
    Machine.Reachable.run (s := startUses) (.init ⟨rfl, fun _ => rfl⟩) hrun
  have hw : Waiting s₁ 1 s := Machine.Reach.runIf (s := s₁) (.init rfl) hwait
  exact ⟨s₀, s₁, s, hrun, hreg, hw, hread, (writer_not_bypassed hr ht hreg hw).1.2⟩

end DistRes
