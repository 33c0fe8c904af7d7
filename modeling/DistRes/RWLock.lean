import Mathlib.Data.Int.Notation
import DistRes.Lib.Pool

/-!
# The readers-writer lock (`rwlock.py`)

Every `with self._lock` section runs from taking the mutex to giving it up, by leaving the section
or by waiting on a condition, and nothing else touches the counters: each such section is one step.
A condition variable is the list of the threads that wait on it and have not been notified.  A
thread inside `wait` may go on when it has been notified (it is no longer in the list), or when its
time is up or it wakes spuriously (`woken`; it leaves the list when it has the mutex again).

Time enters through one Boolean per pass of a waiting loop, `expired`: whether
`remaining <= 0` at that moment.
-/

namespace DistRes

/-- The fields of a `ReadWriteLock` at a moment when its mutex is free. -/
structure ReadWriteLock (T : Type) where
  /-- the waiters of `_readers_ok` -/
  readersOk : List T := []
  /-- the waiters of `_writers_ok` -/
  writersOk : List T := []
  activeReaders : ℤ := 0
  activeWriters : ℤ := 0
  waitingWriters : ℤ := 0

/-- Where a thread is in a call of `acquire_read` or `acquire_write`. -/
inductive Acquire
  /-- about to take the mutex for the first time -/
  | enter
  /-- inside `Condition.wait` -/
  | wait
  /-- inside `Condition.wait`, out of time or spuriously woken, about to take the mutex again -/
  | woken
  /-- the call has returned -/
  | returned (ok : Bool)
  deriving DecidableEq

namespace ReadWriteLock

variable {T : Type} [DecidableEq T]

/-- `Condition.notify`: wakes one of the waiters, if there are any; `k` says which. -/
def notify (k : ℕ) (ws : List T) : List T := ws.eraseIdx (k % ws.length)

/-- One pass of the loop of `acquire_read`, with the mutex held. -/
def readPass (l : ReadWriteLock T) (t : T) (expired : Bool) : ReadWriteLock T × Acquire :=
  if l.activeWriters > 0 ∨ l.waitingWriters > 0 then
    if expired then (l, .returned false)
    else ({ l with readersOk := l.readersOk ++ [t] }, .wait)
  else ({ l with activeReaders := l.activeReaders + 1 }, .returned true)

/-- `acquire_read`, from taking the mutex to giving it up. -/
def acquireRead (l : ReadWriteLock T) (t : T) (expired : Bool) :
    Acquire → Option (ReadWriteLock T × Acquire)
  | .enter => some (l.readPass t expired)
  | .wait => if t ∈ l.readersOk then none else some (l.readPass t expired)
  | .woken => some ({ l with readersOk := l.readersOk.erase t }.readPass t expired)
  | .returned _ => none

/-- `release_read`; `k` says which writer is notified. -/
def releaseRead (l : ReadWriteLock T) (k : ℕ) : ReadWriteLock T :=
  if l.activeReaders - 1 = 0 then
    { l with activeReaders := l.activeReaders - 1, writersOk := notify k l.writersOk }
  else { l with activeReaders := l.activeReaders - 1 }

/-- One pass of the loop of `acquire_write`, with the mutex held; leaving the loop runs the
`finally` block. -/
def writePass (l : ReadWriteLock T) (t : T) (expired : Bool) : ReadWriteLock T × Acquire :=
  if l.activeReaders > 0 ∨ l.activeWriters > 0 then
    if expired then ({ l with waitingWriters := l.waitingWriters - 1 }, .returned false)
    else ({ l with writersOk := l.writersOk ++ [t] }, .wait)
  else
    ({ l with activeWriters := l.activeWriters + 1, waitingWriters := l.waitingWriters - 1 },
      .returned true)

/-- `acquire_write`, from taking the mutex to giving it up. -/
def acquireWrite (l : ReadWriteLock T) (t : T) (expired : Bool) :
    Acquire → Option (ReadWriteLock T × Acquire)
  | .enter => some ({ l with waitingWriters := l.waitingWriters + 1 }.writePass t expired)
  | .wait => if t ∈ l.writersOk then none else some (l.writePass t expired)
  | .woken => some ({ l with writersOk := l.writersOk.erase t }.writePass t expired)
  | .returned _ => none

/-- `release_write`; `k` says which writer is notified. -/
def releaseWrite (l : ReadWriteLock T) (k : ℕ) : ReadWriteLock T :=
  { l with
    activeWriters := l.activeWriters - 1
    readersOk := []
    writersOk := notify k l.writersOk }

end ReadWriteLock

end DistRes
