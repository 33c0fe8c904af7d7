import DistRes.LockInvariant

/-!
# Wakeups

Any number of threads that call the four methods of one `ReadWriteLock` in matched fashion, and who
of them is left asleep.

* `lock_of_data` — the threads of the data layer are such threads;
* `readers_woken_iff` — a reader sleeps beside a lock that would admit it exactly where the last
  queued writer has given up;
* `writers_woken` — while nobody is inside, one of the queued writers can run, and is admitted.
-/

namespace DistRes

open Lib

/-! ## Threads that share a lock -/

/-- Where a thread is in its use of the lock. -/
inductive LockUse
  | out
  /-- inside `acquire_read` -/
  | acquireRead (p : Acquire)
  /-- between `acquire_read` and `release_read` -/
  | reading
  /-- inside `acquire_write` -/
  | acquireWrite (p : Acquire)
  /-- between `acquire_write` and `release_write` -/
  | writing
  deriving DecidableEq

/-- What a thread does. -/
inductive LockAct
  /-- calls `acquire_read` -/
  | acquireRead
  /-- calls `acquire_write` -/
  | acquireWrite
  /-- takes the mutex and goes on until it gives it up -/
  | lock (expired : Bool)
  /-- runs out of time in `wait`, or wakes spuriously -/
  | wake
  /-- releases what it has acquired, notifying the `k`-th writer -/
  | release (k : ℕ)
  deriving DecidableEq

/-- Where a thread is after a pass of `acquire_read`. -/
def LockUse.ofRead : Acquire → LockUse
  | .returned true => .reading
  | .returned false => .out
  | p => .acquireRead p

/-- Where a thread is after a pass of `acquire_write`. -/
def LockUse.ofWrite : Acquire → LockUse
  | .returned true => .writing
  | .returned false => .out
  | p => .acquireWrite p

section Lock

variable {T : Type} [DecidableEq T]

/-- A step of a thread that uses the lock. -/
def lockStep (t : T) (l : ReadWriteLock T) : LockUse → LockAct → Option (ReadWriteLock T × LockUse)
  | .out, .acquireRead => some (l, .acquireRead .enter)
  | .out, .acquireWrite => some (l, .acquireWrite .enter)
  | .acquireRead p, .lock expired => (l.acquireRead t expired p).map fun r => (r.1, .ofRead r.2)
  | .acquireWrite p, .lock expired => (l.acquireWrite t expired p).map fun r => (r.1, .ofWrite r.2)
  | .acquireRead .wait, .wake => some (l, .acquireRead .woken)
  | .acquireWrite .wait, .wake => some (l, .acquireWrite .woken)
  | .reading, .release k => some (l.releaseRead k, .out)
  | .writing, .release k => some (l.releaseWrite k, .out)
  | _, _ => none

/-- Any number of threads over one lock. -/
def lockPool (T : Type) [DecidableEq T] : Pool T (ReadWriteLock T) LockUse LockAct where
  init l := l = {}
  start := .out
  step := lockStep

/-- The machine of these threads. -/
abbrev lockMachine (T : Type) [DecidableEq T] := (lockPool T).machine

/-! ### The threads of the data layer -/

def ReadPc.use : ReadPc → LockUse
  | .acquire p => .acquireRead p
  | .callback | .load | .stamp _ | .release _ => .reading
  | .refused | .done _ => .out

def WritePc.use : WritePc → LockUse
  | .acquire p => .acquireWrite p
  | .callback | .openFile | .append _ _ | .bump _ | .release _ => .writing
  | .refused | .done _ => .out

/-- How a thread of the data layer uses the lock. -/
def Call.use : Call → LockUse
  | .idle => .out
  | .read pc => pc.use
  | .write _ _ pc => pc.use

theorem use_ofRead (p : Acquire) : (ReadPc.ofAcquire p).use = .ofRead p := by
  rcases p with _ | _ | _ | _ | _ <;> rfl

theorem use_ofWrite (p : Acquire) : (WritePc.ofAcquire p).use = .ofWrite p := by
  rcases p with _ | _ | _ | _ | _ <;> rfl

theorem readResource_uses {t : T} {d d' : DataLayer T} {pc pc' : ReadPc} {a : DataAct}
    (h : readResource t d pc a = some (d', pc')) :
    d'.rwLock = d.rwLock ∧ pc'.use = pc.use ∨
      ∃ b, lockStep t d.rwLock pc.use b = some (d'.rwLock, pc'.use) := by
  cases readResource_cases h with
  | acquire p q expired l hl =>
    refine .inr ⟨.lock expired, ?_⟩
    rw [use_ofRead]
    simp only [ReadPc.use, lockStep, hl, Option.map_some]
  | wake => exact .inr ⟨.wake, rfl⟩
  | released o k => exact .inr ⟨.release k, rfl⟩
  | _ => exact .inl ⟨rfl, rfl⟩

theorem writeResource_uses {t : T} {u x : Text} {d d' : DataLayer T} {pc pc' : WritePc} {a : DataAct}
    (h : writeResource t u x d pc a = some (d', pc')) :
    d'.rwLock = d.rwLock ∧ pc'.use = pc.use ∨
      ∃ b, lockStep t d.rwLock pc.use b = some (d'.rwLock, pc'.use) := by
  cases writeResource_cases h with
  | acquire p q expired l hl =>
    refine .inr ⟨.lock expired, ?_⟩
    rw [use_ofWrite]
    simp only [WritePc.use, lockStep, hl, Option.map_some]
  | wake => exact .inr ⟨.wake, rfl⟩
  | released o k => exact .inr ⟨.release k, rfl⟩
  | _ => exact .inl ⟨rfl, rfl⟩

theorem callStep_uses {t : T} {d d' : DataLayer T} {c c' : Call} {a : CallAct}
    (h : callStep t d c a = some (d', c')) :
    d'.rwLock = d.rwLock ∧ c'.use = c.use ∨
      ∃ b, lockStep t d.rwLock c.use b = some (d'.rwLock, c'.use) := by
  unfold callStep at h
  split at h
  case h_1 =>
    cases h
    exact .inr ⟨.acquireRead, rfl⟩
  case h_2 =>
    cases h
    exact .inr ⟨.acquireWrite, rfl⟩
  case h_3 =>
    obtain ⟨⟨d₁, pc₁⟩, hs, he⟩ := Option.map_eq_some_iff.1 h
    cases he
    exact readResource_uses hs
  case h_4 =>
    obtain ⟨⟨d₁, pc₁⟩, hs, he⟩ := Option.map_eq_some_iff.1 h
    cases he
    exact writeResource_uses hs
  all_goals cases h <;> exact .inl ⟨rfl, rfl⟩

/-- **The data layer.**  Its threads use the lock as the threads here do. -/
theorem lock_of_data {file : Bytes} {s : Pool.State T (DataLayer T) Call}
    (hr : (dataMachine T file).Reachable s) :
    (lockMachine T).Reachable ⟨s.shared.rwLock, fun t => (s.thread t).use⟩ := by
  refine Machine.Reach.map (fun s : Pool.State T (DataLayer T) Call =>
    (⟨s.shared.rwLock, fun t => (s.thread t).use⟩ : Pool.State T (ReadWriteLock T) LockUse)) ?_ ?_ hr
  · rintro s ⟨hs, hth⟩
    have hs : s.shared = { file := file } := hs
    have hth : ∀ t, s.thread t = .idle := hth
    refine ⟨?_, fun t => ?_⟩
    · simp only [hs]
      rfl
    · simp only [hth]
      rfl
  · rintro s ⟨t, a⟩ s' - - hs
    obtain ⟨d, c, hstep, rfl⟩ := Pool.machine_step.1 hs
    have hstep : callStep t s.shared (s.thread t) a = some (d, c) := hstep
    have huse : (fun u => (Function.update s.thread t c u).use) =
        Function.update (fun u => (s.thread u).use) t c.use :=
      Function.comp_update Call.use s.thread t c
    rcases callStep_uses hstep with ⟨hl, hc⟩ | ⟨b, hb⟩
    · left
      simp only [huse, hl, hc]
      rw [Function.update_eq_self]
    · right
      refine ⟨(t, b), trivial, Pool.machine_step.2 ⟨_, _, hb, ?_⟩⟩
      simp only [huse]

/-! ## What a step does -/

/-- A thread that may take the mutex: it is not asleep in the wait set. -/
def Acquire.ready (t : T) (ws : List T) : Acquire → Prop
  | .enter | .woken => True
  | .wait => t ∉ ws
  | .returned _ => False

/-- The wait set when the thread has the mutex. -/
def Acquire.leave (t : T) (ws : List T) : Acquire → List T
  | .woken => ws.erase t
  | _ => ws

/-- The writers that wait, with the thread itself. -/
def Acquire.queued (n : ℤ) : Acquire → ℤ
  | .enter => n + 1
  | _ => n

/-- **What a step of the thread `t` does** to the lock and to its own place. -/
inductive LockStep (t : T) (l : ReadWriteLock T) :
    LockUse → LockAct → ReadWriteLock T → LockUse → Prop
  | callRead : LockStep t l .out .acquireRead l (.acquireRead .enter)
  | callWrite : LockStep t l .out .acquireWrite l (.acquireWrite .enter)
  | wakeRead : LockStep t l (.acquireRead .wait) .wake l (.acquireRead .woken)
  | wakeWrite : LockStep t l (.acquireWrite .wait) .wake l (.acquireWrite .woken)
  | readIn (p : Acquire) (expired : Bool) : p.ready t l.readersOk →
      ¬ (l.activeWriters > 0 ∨ l.waitingWriters > 0) →
      LockStep t l (.acquireRead p) (.lock expired)
        { l with readersOk := p.leave t l.readersOk, activeReaders := l.activeReaders + 1 } .reading
  | readWait (p : Acquire) : p.ready t l.readersOk →
      l.activeWriters > 0 ∨ l.waitingWriters > 0 →
      LockStep t l (.acquireRead p) (.lock false)
        { l with readersOk := p.leave t l.readersOk ++ [t] } (.acquireRead .wait)
  | readOut (p : Acquire) : p.ready t l.readersOk →
      l.activeWriters > 0 ∨ l.waitingWriters > 0 →
      LockStep t l (.acquireRead p) (.lock true)
        { l with readersOk := p.leave t l.readersOk } .out
  | writeIn (p : Acquire) (expired : Bool) : p.ready t l.writersOk →
      ¬ (l.activeReaders > 0 ∨ l.activeWriters > 0) →
      LockStep t l (.acquireWrite p) (.lock expired)
        { l with
          writersOk := p.leave t l.writersOk
          activeWriters := l.activeWriters + 1
          waitingWriters := p.queued l.waitingWriters - 1 } .writing
  | writeWait (p : Acquire) : p.ready t l.writersOk →
      l.activeReaders > 0 ∨ l.activeWriters > 0 →
      LockStep t l (.acquireWrite p) (.lock false)
        { l with
          writersOk := p.leave t l.writersOk ++ [t]
          waitingWriters := p.queued l.waitingWriters } (.acquireWrite .wait)
  | writeOut (p : Acquire) : p.ready t l.writersOk →
      l.activeReaders > 0 ∨ l.activeWriters > 0 →
      LockStep t l (.acquireWrite p) (.lock true)
        { l with
          writersOk := p.leave t l.writersOk
          waitingWriters := p.queued l.waitingWriters - 1 } .out
  | releaseRead (k : ℕ) : LockStep t l .reading (.release k) (l.releaseRead k) .out
  | releaseWrite (k : ℕ) : LockStep t l .writing (.release k) (l.releaseWrite k) .out

theorem readPass_cases {t : T} {l : ReadWriteLock T} {p : Acquire} {expired : Bool}
    (hp : p.ready t l.readersOk) {r : ReadWriteLock T × Acquire}
    (hr : { l with readersOk := p.leave t l.readersOk }.readPass t expired = r) :
    LockStep t l (.acquireRead p) (.lock expired) r.1 (.ofRead r.2) := by
  unfold ReadWriteLock.readPass at hr
  split_ifs at hr with hfull hexp <;> subst hr
  · subst hexp
    exact .readOut p hp hfull
  · rw [eq_false_of_ne_true hexp]
    exact .readWait p hp hfull
  · exact .readIn p expired hp hfull

theorem writePass_cases {t : T} {l : ReadWriteLock T} {p : Acquire} {expired : Bool}
    (hp : p.ready t l.writersOk) {r : ReadWriteLock T × Acquire}
    (hr : { l with
        writersOk := p.leave t l.writersOk
        waitingWriters := p.queued l.waitingWriters }.writePass t expired = r) :
    LockStep t l (.acquireWrite p) (.lock expired) r.1 (.ofWrite r.2) := by
  unfold ReadWriteLock.writePass at hr
  split_ifs at hr with hfull hexp <;> subst hr
  · subst hexp
    exact .writeOut p hp hfull
  · rw [eq_false_of_ne_true hexp]
    exact .writeWait p hp hfull
  · exact .writeIn p expired hp hfull

theorem lockStep_cases {t : T} {l l' : ReadWriteLock T} {u u' : LockUse} {a : LockAct}
    (h : lockStep t l u a = some (l', u')) : LockStep t l u a l' u' := by
  unfold lockStep at h
  split at h
  case h_1 =>
    cases h
    exact .callRead
  case h_2 =>
    cases h
    exact .callWrite
  case h_3 p expired =>
    obtain ⟨r, hr, he⟩ := Option.map_eq_some_iff.1 h
    cases he
    cases p with
    | enter => exact readPass_cases (p := .enter) (l := l) trivial (Option.some.inj hr)
    | wait =>
      simp only [ReadWriteLock.acquireRead, Option.ite_none_left_eq_some, Option.some.injEq] at hr
      exact readPass_cases (p := .wait) (l := l) hr.1 hr.2
    | woken => exact readPass_cases (p := .woken) (l := l) trivial (Option.some.inj hr)
    | returned => cases hr
  case h_4 p expired =>
    obtain ⟨r, hr, he⟩ := Option.map_eq_some_iff.1 h
    cases he
    cases p with
    | enter => exact writePass_cases (p := .enter) (l := l) trivial (Option.some.inj hr)
    | wait =>
      simp only [ReadWriteLock.acquireWrite, Option.ite_none_left_eq_some, Option.some.injEq] at hr
      exact writePass_cases (p := .wait) (l := l) hr.1 hr.2
    | woken => exact writePass_cases (p := .woken) (l := l) trivial (Option.some.inj hr)
    | returned => cases hr
  case h_5 =>
    cases h
    exact .wakeRead
  case h_6 =>
    cases h
    exact .wakeWrite
  case h_7 k =>
    cases h
    exact .releaseRead k
  case h_8 k =>
    cases h
    exact .releaseWrite k
  case h_9 => cases h

/-! ### Counters and wait sets -/

/-- A call of the data layer at this point of the lock. -/
def LockUse.call : LockUse → Call
  | .out => .idle
  | .acquireRead p => .read (.acquire p)
  | .reading => .read .callback
  | .acquireWrite p => .write [] [] (.acquire p)
  | .writing => .write [] [] .callback

variable {t : T} {l l' : ReadWriteLock T} {u u' : LockUse} {a : LockAct}

theorem LockStep.moves (hs : LockStep t l u a l' u') :
    Moves l.counts u.call.role l'.counts u'.call.role := by
  have hww : l.waitingWriters + 1 - 1 = l.waitingWriters := by omega
  cases hs with
  | callRead | callWrite | wakeRead | wakeWrite | readWait | readOut => exact .stay _ _
  | readIn p expired hp hfree =>
    obtain ⟨haw, hwait⟩ := not_or.1 hfree
    exact .startReading (not_lt.1 haw) (not_lt.1 hwait)
  | writeIn p expired hp hfree =>
    obtain ⟨har, haw⟩ := not_or.1 hfree
    cases p with
    | enter =>
      simp only [ReadWriteLock.counts, Acquire.queued, hww]
      exact .startWriting (not_lt.1 har) (not_lt.1 haw)
    | wait => exact .stopWaiting (not_lt.1 har) (not_lt.1 haw)
    | woken => exact .stopWaiting (not_lt.1 har) (not_lt.1 haw)
    | returned => exact hp.elim
  | writeWait p hp =>
    cases p with
    | enter => exact .startWaiting _ _ _
    | wait => exact .stay _ _
    | woken => exact .stay _ _
    | returned => exact hp.elim
  | writeOut p hp =>
    cases p with
    | enter =>
      simp only [ReadWriteLock.counts, Acquire.queued, hww]
      exact .stay _ _
    | wait => exact .giveUp _ _ _
    | woken => exact .giveUp _ _ _
    | returned => exact hp.elim
  | releaseRead k =>
    rw [releaseRead_counts]
    exact .stopReading _ _ _
  | releaseWrite k => exact .stopWriting _ _ _

/-- A thread that has the mutex is out of the wait set, and nobody else has left it. -/
theorem leave_eq_erase {p : Acquire} {ws : List T} (hp : p.ready t ws) (hw : t ∈ ws → p ≠ .enter) :
    p.leave t ws = ws.erase t := by
  cases p with
  | enter => exact (List.erase_of_not_mem fun ht => hw ht rfl).symm
  | wait => exact (List.erase_of_not_mem hp).symm
  | woken => rfl
  | returned => exact hp.elim

theorem LockStep.waits (hs : LockStep t l u a l' u') {th : T → Call} (hi : WaitInv l th)
    (ht : th t = u.call) : WaitMoves t l.readersOk l'.readersOk u'.call.waitsRead ∧
      WaitMoves t l.writersOk l'.writersOk u'.call.waitsWrite := by
  have hr : t ∈ l.readersOk → u.call.waitsRead = true := fun h => ht ▸ hi.readers t h
  have hw : t ∈ l.writersOk → u.call.waitsWrite = true := fun h => ht ▸ hi.writers t h
  have hleft : ∀ {p : Acquire} {ws : List T}, ws.Nodup → p.ready t ws → (t ∈ ws → p ≠ .enter) →
      (p.leave t ws).Sublist ws ∧ t ∉ p.leave t ws := by
    intro p ws hn hp hne
    rw [leave_eq_erase hp hne]
    exact ⟨List.erase_sublist, hn.not_mem_erase⟩
  cases hs with
  | callRead | callWrite | wakeRead | wakeWrite =>
    exact ⟨.same hr (by simp [LockUse.call, Call.waitsRead]),
      .same hw (by simp [LockUse.call, Call.waitsWrite])⟩
  | readIn p _ hp | readOut p hp =>
    have hne : t ∈ l.readersOk → p ≠ .enter := by
      rintro hm rfl
      exact absurd (hr hm) Bool.false_ne_true
    obtain ⟨hsub, hnot⟩ := hleft hi.readersNodup hp hne
    exact ⟨.shrink hsub fun h => absurd h hnot, .same hw (fun h => by cases h)⟩
  | readWait p hp =>
    have hne : t ∈ l.readersOk → p ≠ .enter := by
      rintro hm rfl
      exact absurd (hr hm) Bool.false_ne_true
    exact ⟨.join (by rw [leave_eq_erase hp hne]) rfl, .same hw (fun h => by cases h)⟩
  | writeIn p _ hp | writeOut p hp =>
    have hne : t ∈ l.writersOk → p ≠ .enter := by
      rintro hm rfl
      exact absurd (hw hm) Bool.false_ne_true
    obtain ⟨hsub, hnot⟩ := hleft hi.writersNodup hp hne
    exact ⟨.same hr (fun h => by cases h), .shrink hsub fun h => absurd h hnot⟩
  | writeWait p hp =>
    have hne : t ∈ l.writersOk → p ≠ .enter := by
      rintro hm rfl
      exact absurd (hw hm) Bool.false_ne_true
    exact ⟨.same hr (fun h => by cases h), .join (by rw [leave_eq_erase hp hne]) rfl⟩
  | releaseRead k =>
    have hno : t ∉ l.writersOk := fun hm => absurd (hw hm) Bool.false_ne_true
    simp only [ReadWriteLock.releaseRead]
    split_ifs
    · exact ⟨.same hr (fun h => by cases h), .outside (notify_sublist _ _) hno⟩
    · exact ⟨.same hr (fun h => by cases h), .outside (List.Sublist.refl _) hno⟩
  | releaseWrite k =>
    have hno : t ∉ l.writersOk := fun hm => absurd (hw hm) Bool.false_ne_true
    exact ⟨.shrink (List.nil_sublist _) fun h => absurd h List.not_mem_nil,
      .outside (notify_sublist _ _) hno⟩

end Lock

/-! ## Who is asleep -/

section Asleep

variable {T : Type} [DecidableEq T] (s : Pool.State T (ReadWriteLock T) LockUse) (t : T)

/-- Asleep in `_readers_ok.wait`: neither notified nor out of time. -/
abbrev ReaderAsleep : Prop := s.thread t = .acquireRead .wait ∧ t ∈ s.shared.readersOk

/-- Inside the waiting loop of `acquire_write`. -/
abbrev WriterWaits : Prop := s.thread t = .acquireWrite .wait ∨ s.thread t = .acquireWrite .woken

/-- Inside the waiting loop of `acquire_write`, and notified or out of time. -/
abbrev WriterRunnable : Prop :=
  s.thread t = .acquireWrite .wait ∧ t ∉ s.shared.writersOk ∨ s.thread t = .acquireWrite .woken

/-- No reader sleeps while nothing keeps it from being admitted. -/
def ReadersAwake : Prop :=
  s.shared.activeWriters = 0 → s.shared.waitingWriters = 0 → ∀ t, ¬ ReaderAsleep s t

/-- While nobody is inside, one of the queued writers can run. -/
def WritersAwake : Prop :=
  s.shared.activeReaders = 0 → s.shared.activeWriters = 0 → (∃ t, WriterWaits s t) →
    ∃ t, WriterRunnable s t

/-- In this step the last queued writer gives up, with readers inside and a reader asleep. -/
abbrev StrandsReader (a : T × LockAct) : Prop :=
  WriterRunnable s a.1 ∧ a.2 = .lock true ∧ 0 < s.shared.activeReaders ∧
    s.shared.activeWriters = 0 ∧ s.shared.waitingWriters = 1 ∧ ∃ t, ReaderAsleep s t

end Asleep

/-! ## Who is woken -/

section Woken

variable {T : Type} [DecidableEq T] [Fintype T] {s s' : Pool.State T (ReadWriteLock T) LockUse}

omit [Fintype T] in
theorem call_update (th : T → LockUse) (t : T) (u : LockUse) :
    (fun k => (Function.update th t u k).call) = Function.update (fun k => (th k).call) t u.call :=
  Function.comp_update LockUse.call th t u

/-- The counters and the wait sets in reachable states. -/
theorem lockInv_of_lock (hr : (lockMachine T).Reachable s) :
    LockInv s.shared (fun t => (s.thread t).call) ∧ WaitInv s.shared fun t => (s.thread t).call := by
  refine hr.invariant (fun s => LockInv s.shared (fun t => (s.thread t).call) ∧
    WaitInv s.shared fun t => (s.thread t).call) ?_ ?_
  · rintro s ⟨hs, hth⟩
    have hs : s.shared = {} := hs
    have hth : ∀ t, s.thread t = .out := hth
    rw [hs]
    refine ⟨lockInv_init (d := { file := [] }) rfl fun t => by rw [hth]; rfl, ?_⟩
    exact ⟨List.nodup_nil, nofun, List.nodup_nil, nofun⟩
  · rintro s ⟨t, a⟩ s' - ⟨hl, hw⟩ hs
    obtain ⟨l, u, hstep, rfl⟩ := Pool.machine_step.1 hs
    have hcases := lockStep_cases hstep
    simp only [call_update]
    refine ⟨hl.step hcases.moves, ?_⟩
    obtain ⟨hread, hwrite⟩ := hcases.waits hw rfl
    obtain ⟨r1, r2⟩ := hread.keeps hw.readersNodup hw.readers
    obtain ⟨w1, w2⟩ := hwrite.keeps hw.writersNodup hw.writers
    exact ⟨r1, r2, w1, w2⟩

omit [DecidableEq T] in
/-- A counter is positive with a thread in its role. -/
theorem LockInv.waiting_pos {l : ReadWriteLock T} {th : T → Call} (hl : LockInv l th) {t : T}
    (ht : (th t).role = .waiting) : 0 < l.waitingWriters := by
  have : 0 < count (fun c : Call => c.role = .waiting) th := (count_pos _).2 ⟨t, ht⟩
  rw [hl.waiting]
  exact Int.natCast_pos.2 this

theorem ReadersAwake.step {t : T} {a : LockAct} {l' : ReadWriteLock T} {u' : LockUse}
    (hi : ReadersAwake s) (hl : LockInv s.shared fun t => (s.thread t).call)
    (hok : ¬ StrandsReader s (t, a)) (hs : LockStep t s.shared (s.thread t) a l' u') :
    ReadersAwake ⟨l', Function.update s.thread t u'⟩ := by
  have hl' := hl.step hs.moves
  rintro haw hww r ⟨hr, hm⟩
  simp only at haw hww hr hm
  have hwriters : 0 ≤ s.shared.activeWriters := by
    rw [hl.writers]
    exact Int.natCast_nonneg _
  generalize hu : s.thread t = u at hs
  -- a sleeper that was asleep before the step, if `t` does not go to sleep
  have hsleeps : u' ≠ .acquireRead .wait → l'.readersOk ⊆ s.shared.readersOk →
      r ≠ t ∧ ReaderAsleep s r := by
    intro hne hsub
    have hrt : r ≠ t := by
      rintro rfl
      rw [Function.update_self] at hr
      exact hne hr
    rw [Function.update_of_ne hrt] at hr
    exact ⟨hrt, hr, hsub hm⟩
  have hsame : l'.activeWriters = s.shared.activeWriters →
      l'.waitingWriters = s.shared.waitingWriters → u' ≠ .acquireRead .wait →
      l'.readersOk ⊆ s.shared.readersOk → False :=
    fun h1 h2 hne hsub => hi (h1 ▸ haw) (h2 ▸ hww) r (hsleeps hne hsub).2
  cases hs with
  | callRead | callWrite | wakeRead | wakeWrite => exact hsame rfl rfl nofun fun _ => id
  | readIn p expired hp hfree =>
    refine hsame rfl rfl nofun ?_
    cases p with
    | woken => exact fun _ => List.mem_of_mem_erase
    | enter | wait | returned => exact fun _ => id
  | readWait p hp hfull =>
    simp only at haw hww
    omega
  | readOut p hp hfull =>
    simp only at haw hww
    omega
  | writeIn p expired hp hfree =>
    simp only at haw
    omega
  | writeWait p hp hfull =>
    have := hl'.waiting_pos (t := t) (by simp only [Function.update_self]; rfl)
    omega
  | writeOut p hp hfull =>
    simp only at haw hww
    obtain ⟨hrt, hasleep⟩ := hsleeps nofun fun _ => id
    have hrun : p ≠ .enter → WriterRunnable s t := by
      intro hne
      cases p with
      | enter => exact absurd rfl hne
      | wait => exact .inl ⟨hu, hp⟩
      | woken => exact .inr hu
      | returned => exact hp.elim
    cases p with
    | enter =>
      simp only [Acquire.queued] at hww
      exact hi haw (by omega) r hasleep
    | wait =>
      simp only [Acquire.queued] at hww
      exact hok ⟨hrun nofun, rfl, by omega, haw, by omega, r, hasleep⟩
    | woken =>
      simp only [Acquire.queued] at hww
      exact hok ⟨hrun nofun, rfl, by omega, haw, by omega, r, hasleep⟩
    | returned => exact hp
  | releaseRead k =>
    have hcounts := releaseRead_counts s.shared k
    simp only [ReadWriteLock.counts, Prod.mk.injEq] at hcounts
    refine hsame hcounts.2.1 hcounts.2.2 nofun ?_
    unfold ReadWriteLock.releaseRead
    split_ifs <;> exact fun _ => id
  | releaseWrite k => cases hm

/-- **No reader is left asleep, unless the last queued writer gives up.**  As long as no writer gives
up as the last one queued while readers are inside and a reader is asleep, no reader ever sleeps
beside a lock that would admit it; and after such a step one does. -/
theorem readers_woken_iff :
    ((lockMachine T).Reach (fun s a => ¬ StrandsReader s a) s → ReadersAwake s) ∧
    ((lockMachine T).Reachable s → ∀ a s', (lockMachine T).step s a = some s' →
      StrandsReader s a → ¬ ReadersAwake s') := by
  constructor
  · intro hr
    refine hr.invariant ReadersAwake ?_ ?_
    · rintro s ⟨-, hth⟩ - - r ⟨hr, -⟩
      have hth : ∀ t, s.thread t = .out := hth
      rw [hth] at hr
      cases hr
    · rintro s ⟨t, a⟩ s' hr hi hok hs
      obtain ⟨l, u, hstep, rfl⟩ := Pool.machine_step.1 hs
      exact hi.step (lockInv_of_lock hr.reachable).1 hok (lockStep_cases hstep)
  · rintro - ⟨t, a⟩ s' hs ⟨hrun, ha, har, haw, hww, r, hread, hmem⟩ hawake
    obtain ⟨l, u, hstep, rfl⟩ := Pool.machine_step.1 hs
    simp only at ha hrun
    subst ha
    have hcases := lockStep_cases hstep
    have hrt : r ≠ t := by
      rintro rfl
      rcases hrun with ⟨hw, -⟩ | hw <;> rw [hread] at hw <;> cases hw
    -- what `t` does is to give up
    have hgives : l.activeWriters = 0 ∧ l.waitingWriters = 0 ∧ l.readersOk = s.shared.readersOk := by
      have hfull : s.shared.activeReaders > 0 ∨ s.shared.activeWriters > 0 := .inl har
      rcases hrun with ⟨hw, -⟩ | hw
      all_goals
        rw [hw] at hcases
        cases hcases with
        | writeIn _ _ _ hfree => exact absurd hfull hfree
        | writeOut => exact ⟨haw, by simp only [Acquire.queued]; omega, rfl⟩
    refine hawake hgives.1 hgives.2.1 r ⟨?_, ?_⟩
    · simpa only [Function.update_of_ne hrt] using hread
    · simp only [hgives.2.2]
      exact hmem

/-! ### Writers -/

omit [Fintype T] in
/-- `notify` wakes somebody, if somebody is asleep. -/
theorem exists_notified {ws : List T} (hn : ws.Nodup) (hne : ws ≠ []) (k : ℕ) :
    ∃ t ∈ ws, t ∉ ReadWriteLock.notify k ws := by
  have hlt : k % ws.length < ws.length := Nat.mod_lt _ (List.length_pos_iff.2 hne)
  refine ⟨ws[k % ws.length], List.getElem_mem hlt, ?_⟩
  rw [ReadWriteLock.notify, ← hn.erase_getElem _ hlt]
  exact hn.not_mem_erase

omit [Fintype T] in
/-- After a `notify` on `_writers_ok` by a thread that is not queued, a queued writer can run. -/
theorem runnable_of_notify {t : T} {k : ℕ} {l' : ReadWriteLock T}
    (hw : WaitInv s.shared fun t => (s.thread t).call) (ht : ¬ WriterWaits s t)
    (hl : l'.writersOk = ReadWriteLock.notify k s.shared.writersOk)
    (hex : ∃ v, WriterWaits ⟨l', Function.update s.thread t .out⟩ v) :
    ∃ v, WriterRunnable ⟨l', Function.update s.thread t .out⟩ v := by
  -- a queued writer that is not asleep any more
  have hruns : ∀ v, v ≠ t → WriterWaits s v → v ∉ l'.writersOk →
      WriterRunnable ⟨l', Function.update s.thread t .out⟩ v := by
    intro v hvt hv hnot
    simp only [WriterRunnable, Function.update_of_ne hvt]
    exact hv.imp (fun hv => ⟨hv, hnot⟩) id
  by_cases hne : s.shared.writersOk = []
  · obtain ⟨v, hv⟩ := hex
    have hvt : v ≠ t := by
      rintro rfl
      simp only [WriterWaits, Function.update_self, reduceCtorEq, or_self] at hv
    simp only [WriterWaits, Function.update_of_ne hvt] at hv
    refine ⟨v, hruns v hvt hv ?_⟩
    rw [hl, hne]
    exact List.not_mem_nil
  · obtain ⟨v, hv, hnot⟩ := exists_notified hw.writersNodup hne k
    have hwaits : WriterWaits s v := by
      have hcall := hw.writers v hv
      generalize hu : s.thread v = u at hcall
      cases u with
      | acquireWrite p =>
        cases p with
        | wait => exact .inl hu
        | woken => exact .inr hu
        | enter | returned => cases hcall
      | _ => cases hcall
    refine ⟨v, hruns v ?_ hwaits (hl ▸ hnot)⟩
    rintro rfl
    exact ht hwaits

theorem WritersAwake.step {t : T} {a : LockAct} {l' : ReadWriteLock T} {u' : LockUse}
    (hi : WritersAwake s) (hl : LockInv s.shared fun t => (s.thread t).call)
    (hw : WaitInv s.shared fun t => (s.thread t).call)
    (hs : LockStep t s.shared (s.thread t) a l' u') :
    WritersAwake ⟨l', Function.update s.thread t u'⟩ := by
  intro har haw hex
  simp only at har haw
  have hreaders : 0 ≤ s.shared.activeReaders := by
    rw [hl.readers]
    exact Int.natCast_nonneg _
  have hwriters : 0 ≤ s.shared.activeWriters := by
    rw [hl.writers]
    exact Int.natCast_nonneg _
  generalize hu : s.thread t = u at hs
  -- a step of a thread that is not queued, neither before nor after it
  have hsame : l'.activeReaders = s.shared.activeReaders → l'.activeWriters = s.shared.activeWriters →
      l'.writersOk = s.shared.writersOk → ¬ WriterWaits s t →
      ¬ (u' = .acquireWrite .wait ∨ u' = .acquireWrite .woken) →
      ∃ v, WriterRunnable ⟨l', Function.update s.thread t u'⟩ v := by
    intro h1 h2 h3 hout hout'
    obtain ⟨v, hv⟩ := hex
    have hvt : v ≠ t := by
      rintro rfl
      simp only [WriterWaits, Function.update_self] at hv
      exact hout' hv
    simp only [WriterWaits, Function.update_of_ne hvt] at hv
    obtain ⟨r, hr⟩ := hi (h1 ▸ har) (h2 ▸ haw) ⟨v, hv⟩
    have hrt : r ≠ t := by
      rintro rfl
      exact hout (hr.imp And.left id)
    refine ⟨r, ?_⟩
    simp only [WriterRunnable, Function.update_of_ne hrt, h3]
    exact hr
  have hother : (∀ p, u ≠ .acquireWrite p) → ¬ WriterWaits s t := by
    rintro hne (h | h) <;> exact hne _ (hu ▸ h)
  cases hs with
  | callRead | callWrite | wakeRead | readWait | readOut =>
    exact hsame rfl rfl rfl (hother fun _ h => by cases h) (by simp)
  | wakeWrite => exact ⟨t, .inr (Function.update_self ..)⟩
  | readIn p expired hp hfree =>
    simp only at har
    omega
  | writeIn p expired hp hfree =>
    simp only at haw
    omega
  | writeWait p hp hfull =>
    simp only at har haw
    omega
  | writeOut p hp hfull =>
    simp only at har haw
    omega
  | releaseRead k =>
    have hk : (s.shared.releaseRead k).writersOk = ReadWriteLock.notify k s.shared.writersOk := by
      have hcounts := releaseRead_counts s.shared k
      simp only [ReadWriteLock.counts, Prod.mk.injEq] at hcounts
      rw [ReadWriteLock.releaseRead, if_pos (hcounts.1.symm.trans har)]
    exact runnable_of_notify hw (hother fun _ h => by cases h) hk hex
  | releaseWrite k => exact runnable_of_notify hw (hother fun _ h => by cases h) rfl hex

theorem writersAwake_of_reachable (hr : (lockMachine T).Reachable s) : WritersAwake s := by
  refine hr.invariant WritersAwake ?_ ?_
  · rintro s ⟨-, hth⟩ - - ⟨t, ht⟩
    have hth : ∀ t, s.thread t = .out := hth
    rw [WriterWaits, hth] at ht
    rcases ht with ht | ht <;> cases ht
  · rintro s ⟨t, a⟩ s' hr hi hs
    obtain ⟨l, u, hstep, rfl⟩ := Pool.machine_step.1 hs
    obtain ⟨hl, hw⟩ := lockInv_of_lock hr
    exact hi.step hl hw (lockStep_cases hstep)

/-- **No writer is left asleep.**  In every reachable state in which nobody is inside the lock and a
thread is in the waiting loop of `acquire_write`: one of those threads can run, and whichever of them
takes the mutex in such a state is admitted, in time or not. -/
theorem writers_woken (hr : (lockMachine T).Reachable s) (har : s.shared.activeReaders = 0)
    (haw : s.shared.activeWriters = 0) (hex : ∃ t, WriterWaits s t) :
    (∃ t, WriterRunnable s t) ∧
    ∀ t expired s', WriterWaits s t → (lockMachine T).step s (t, .lock expired) = some s' →
      WriterRunnable s t ∧ s'.thread t = .writing := by
  refine ⟨writersAwake_of_reachable hr har haw hex, ?_⟩
  intro t expired s' ht hs
  obtain ⟨l, u, hstep, rfl⟩ := Pool.machine_step.1 hs
  have hfree : ¬ (s.shared.activeReaders > 0 ∨ s.shared.activeWriters > 0) := by omega
  have hcases := lockStep_cases hstep
  simp only [Function.update_self]
  rcases ht with ht | ht
  all_goals
    rw [ht] at hcases
    cases hcases with
    | writeIn p _ hp => exact ⟨by first | exact .inl ⟨ht, hp⟩ | exact .inr ht, rfl⟩
    | writeWait _ _ hfull => exact absurd hfull hfree
    | writeOut _ _ hfull => exact absurd hfull hfree

end Woken

/-! ### Runs -/

/-- The start of a run of three threads. -/
def startUses : Pool.State (Fin 3) (ReadWriteLock (Fin 3)) LockUse := ⟨{}, fun _ => .out⟩

/-- `t` reads; `v` queues up for writing behind it, and `w` for reading behind `v`; then `v` gives up. -/
def strandedRun {T : Type} (t v w : T) : List (T × LockAct) :=
  [(t, .acquireRead), (t, .lock false), (v, .acquireWrite), (v, .lock false), (w, .acquireRead),
    (w, .lock false), (v, .wake), (v, .lock true)]

/-- `w` sleeps on, beside a lock that only readers are inside. -/
theorem strandedRun_sleeps :
    ¬ ∀ s, (lockMachine (Fin 3)).Reachable s → ReadersAwake s := by
  intro hall
  have hs : ((lockMachine (Fin 3)).run startUses (strandedRun 0 1 2)).map (fun s =>
      (s.shared.activeWriters, s.shared.waitingWriters, decide (ReaderAsleep s 2))) =
        some (0, 0, true) := by decide
  obtain ⟨s, hrun, hval⟩ := Option.map_eq_some_iff.1 hs
  simp only [Prod.mk.injEq, decide_eq_true_eq] at hval
  have hr : (lockMachine (Fin 3)).Reachable s :=
    Machine.Reachable.run (s := startUses) (.init ⟨rfl, fun _ => rfl⟩) hrun
  exact hall s hr hval.1 hval.2.1 2 hval.2.2

/-- `t` writes; `v` queues up for writing behind it, and `w` for reading; then `t` is done. -/
def releasedRun {T : Type} (t v w : T) : List (T × LockAct) :=
  [(t, .acquireWrite), (t, .lock false), (v, .acquireWrite), (v, .lock false), (w, .acquireRead),
    (w, .lock false), (t, .release 0)]

/-- The second writer enters and leaves, and the reader has been woken. -/
theorem releasedRun_wakes_reader :
    ∃ s, (lockMachine (Fin 3)).runIf (fun s a => ¬ StrandsReader s a) startUses
        (releasedRun 0 1 2 ++ [(1, .lock false), (1, .release 0)]) = some s ∧
      s.shared.counts = (0, 0, 0) ∧ s.thread 2 = .acquireRead .wait ∧ ReadersAwake s := by
  have hs : ((lockMachine (Fin 3)).runIf (fun s a => ¬ StrandsReader s a) startUses
      (releasedRun 0 1 2 ++ [(1, .lock false), (1, .release 0)])).map (fun s =>
        (s.shared.counts, s.thread 2)) = some ((0, 0, 0), .acquireRead .wait) := by decide
  obtain ⟨s, hrun, hval⟩ := Option.map_eq_some_iff.1 hs
  obtain ⟨hcounts, hread⟩ := Prod.mk.inj hval
  have hr : (lockMachine (Fin 3)).Reach (fun s a => ¬ StrandsReader s a) s :=
    Machine.Reach.runIf (s := startUses) (.init ⟨rfl, fun _ => rfl⟩) hrun
  exact ⟨s, hrun, hcounts, hread, readers_woken_iff.1 hr⟩

/-- Nobody is inside, and the second writer can run. -/
theorem releasedRun_wakes_writer :
    ∃ s, (lockMachine (Fin 3)).run startUses (releasedRun 0 1 2) = some s ∧ ∃ t, WriterRunnable s t := by
  have hs : ((lockMachine (Fin 3)).run startUses (releasedRun 0 1 2)).map (fun s =>
      (s.shared.activeReaders, s.shared.activeWriters, decide (WriterWaits s 1))) =
        some (0, 0, true) := by decide
  obtain ⟨s, hrun, hval⟩ := Option.map_eq_some_iff.1 hs
  simp only [Prod.mk.injEq, decide_eq_true_eq] at hval
  have hr : (lockMachine (Fin 3)).Reachable s :=
    Machine.Reachable.run (s := startUses) (.init ⟨rfl, fun _ => rfl⟩) hrun
  exact ⟨s, hrun, (writers_woken hr hval.1 hval.2.1 ⟨1, hval.2.2⟩).1⟩

end DistRes
