import DistRes.Lib.Utf8
import DistRes.RWLock

/-!
# The data layer (`data_layer.py`)

`read_resource` and `write_resource` over one `ReadWriteLock`, as the steps of the threads that
call them.  The lock's sections are the steps of `RWLock`; the sections of `_version_lock` are one
step each; the callback, opening the file, reading it and every piece of the record that reaches
the file are steps of their own, and each of these may raise.

The file is its bytes.  Opening it in text mode means UTF-8 with `'\n'` written unchanged, and
universal newlines on reading.
-/

namespace DistRes

open Lib

/-! ## The shared file -/

/-- Universal newlines: what reading in text mode makes of `'\r\n'` and `'\r'`. -/
def universalNewlines : Text → Text
  | [] => []
  | c :: s =>
    if c = 13 then
      match s with
      | [] => [10]
      | d :: r => if d = 10 then 10 :: universalNewlines r else 10 :: universalNewlines (d :: r)
    else c :: universalNewlines s

/-- `f.read()` on a file opened for reading in text mode; `none` where the bytes are not UTF-8. -/
def readText (file : Bytes) : Option Text := (utf8Decode file).map universalNewlines

/-- The record of a write: `f"\n[{stamp}] {user_id}: {text}"`. -/
def record (stamp userId text : Text) : Text :=
  lit "\n[" ++ stamp ++ lit "] " ++ userId ++ lit ": " ++ text

theorem utf8_record_ne_nil (stamp userId text : Text) : utf8 (record stamp userId text) ≠ [] := by
  have hlit : utf8 (lit "\n[") ≠ [] := by decide
  simp only [record, utf8_append, List.append_assoc]
  exact List.append_ne_nil_of_left_ne_nil hlit _

/-! ## Results -/

/-- The exceptions that can leave a call: the callback's own, one of a file operation, and the
codec's. -/
inductive Raised
  | callback
  | storage
  | unicode
  deriving DecidableEq

/-- The triple that `read_resource` and `write_resource` return. -/
structure Result where
  ok : Bool
  text : Text
  version : ℕ
  deriving DecidableEq

/-- How a call ends. -/
abbrev Outcome := Except Raised Result

def readTimeout : Text := lit "Timeout acquiring read lock (deadlock avoidance)"
def writeTimeout : Text := lit "Timeout acquiring write lock (deadlock avoidance)"
def writeCommitted : Text := lit "Write committed"

/-! ## The calls -/

/-- The state of a `DataLayer`: its lock, its version stamp, and the bytes of the shared file. -/
structure DataLayer (T : Type) where
  rwLock : ReadWriteLock T := {}
  version : ℕ := 0
  file : Bytes

/-- Where a thread is in `read_resource`. -/
inductive ReadPc
  /-- inside `acquire_read` -/
  | acquire (p : Acquire)
  /-- `acquire_read` returned `False`; about to evaluate `self.version` -/
  | refused
  /-- holding the lock, about to call `on_acquired` -/
  | callback
  /-- about to open and read the file -/
  | load
  /-- about to evaluate `self.version` in the `return` -/
  | stamp (content : Text)
  /-- in the `finally` block, about to call `release_read` -/
  | release (o : Outcome)
  /-- about to give the outcome to the caller -/
  | done (o : Outcome)

/-- Where a thread is in `write_resource`. -/
inductive WritePc
  /-- inside `acquire_write` -/
  | acquire (p : Acquire)
  /-- `acquire_write` returned `False`; about to evaluate `self.version` -/
  | refused
  /-- holding the lock, about to call `on_acquired` -/
  | callback
  /-- about to open the file for appending -/
  | openFile
  /-- the bytes `rest` of the record have not reached the file yet -/
  | append (rec : Text) (rest : Bytes)
  /-- all of the record is in the file; about to close it and to bump the version -/
  | bump (rec : Text)
  /-- in the `finally` block, about to call `release_write` -/
  | release (o : Outcome)
  /-- about to give the outcome to the caller -/
  | done (o : Outcome)

/-- What a thread does inside a call. -/
inductive DataAct
  /-- takes the lock's mutex and goes on until it gives it up -/
  | lock (expired : Bool)
  /-- runs out of time in `wait`, or wakes spuriously -/
  | wake
  /-- takes the next step, which does not raise -/
  | go
  /-- takes the next step, which raises -/
  | fail
  /-- opens the file for appending, at the given time stamp -/
  | openAt (stamp : Text)
  /-- gets `n` more bytes into the file -/
  | flush (n : ℕ)
  /-- releases the lock, notifying the `k`-th writer -/
  | release (k : ℕ)

section Steps

variable {T : Type} [DecidableEq T]

/-- Where `read_resource` goes on from a point of `acquire_read`. -/
def ReadPc.ofAcquire : Acquire → ReadPc
  | .returned true => .callback
  | .returned false => .refused
  | p => .acquire p

/-- Where `write_resource` goes on from a point of `acquire_write`. -/
def WritePc.ofAcquire : Acquire → WritePc
  | .returned true => .callback
  | .returned false => .refused
  | p => .acquire p

/-- A step of `read_resource`. -/
def readResource (t : T) (d : DataLayer T) : ReadPc → DataAct → Option (DataLayer T × ReadPc)
  | .acquire p, .lock expired =>
    (d.rwLock.acquireRead t expired p).map fun r => ({ d with rwLock := r.1 }, .ofAcquire r.2)
  | .acquire .wait, .wake => some (d, .acquire .woken)
  | .refused, .go => some (d, .done (.ok ⟨false, readTimeout, d.version⟩))
  | .callback, .go => some (d, .load)
  | .callback, .fail => some (d, .release (.error .callback))
  | .load, .go =>
    match readText d.file with
    | some content => some (d, .stamp content)
    | none => some (d, .release (.error .unicode))
  | .load, .fail => some (d, .release (.error .storage))
  | .stamp content, .go => some (d, .release (.ok ⟨true, content, d.version⟩))
  | .release o, .release k => some ({ d with rwLock := d.rwLock.releaseRead k }, .done o)
  | _, _ => none

/-- A step of `write_resource(user_id, text)`. -/
def writeResource (t : T) (userId text : Text) (d : DataLayer T) :
    WritePc → DataAct → Option (DataLayer T × WritePc)
  | .acquire p, .lock expired =>
    (d.rwLock.acquireWrite t expired p).map fun r => ({ d with rwLock := r.1 }, .ofAcquire r.2)
  | .acquire .wait, .wake => some (d, .acquire .woken)
  | .refused, .go => some (d, .done (.ok ⟨false, writeTimeout, d.version⟩))
  | .callback, .go => some (d, .openFile)
  | .callback, .fail => some (d, .release (.error .callback))
  | .openFile, .openAt stamp =>
    -- `f.write` encodes the whole record before any byte of it leaves the buffer
    if encodable (record stamp userId text) then
      some (d, .append (record stamp userId text) (utf8 (record stamp userId text)))
    else some (d, .release (.error .unicode))
  | .openFile, .fail => some (d, .release (.error .storage))
  | .append rec rest, .flush n =>
    if n = 0 ∨ rest.length < n then none
    else
      some ({ d with file := d.file ++ rest.take n },
        if rest.drop n = [] then .bump rec else .append rec (rest.drop n))
  | .append _ _, .fail => some (d, .release (.error .storage))
  | .bump _, .go =>
    some ({ d with version := d.version + 1 },
      .release (.ok ⟨true, writeCommitted, d.version + 1⟩))
  | .bump _, .fail => some (d, .release (.error .storage))
  | .release o, .release k => some ({ d with rwLock := d.rwLock.releaseWrite k }, .done o)
  | _, _ => none

/-- **The steps inside `read_resource`.** -/
inductive ReadStep (t : T) (d : DataLayer T) : ReadPc → DataAct → DataLayer T → ReadPc → Prop
  | acquire (p q : Acquire) (expired : Bool) (l : ReadWriteLock T) :
      d.rwLock.acquireRead t expired p = some (l, q) →
      ReadStep t d (.acquire p) (.lock expired) { d with rwLock := l } (.ofAcquire q)
  | wake : ReadStep t d (.acquire .wait) .wake d (.acquire .woken)
  | refused : ReadStep t d .refused .go d (.done (.ok ⟨false, readTimeout, d.version⟩))
  | calledBack : ReadStep t d .callback .go d .load
  | callbackRaised : ReadStep t d .callback .fail d (.release (.error .callback))
  | loaded (content : Text) : readText d.file = some content →
      ReadStep t d .load .go d (.stamp content)
  | unreadable : readText d.file = none → ReadStep t d .load .go d (.release (.error .unicode))
  | loadRaised : ReadStep t d .load .fail d (.release (.error .storage))
  | stamped (content : Text) :
      ReadStep t d (.stamp content) .go d (.release (.ok ⟨true, content, d.version⟩))
  | released (o : Outcome) (k : ℕ) :
      ReadStep t d (.release o) (.release k) { d with rwLock := d.rwLock.releaseRead k } (.done o)

/-- **The steps inside `write_resource(user_id, text)`.** -/
inductive WriteStep (t : T) (userId text : Text) (d : DataLayer T) :
    WritePc → DataAct → DataLayer T → WritePc → Prop
  | acquire (p q : Acquire) (expired : Bool) (l : ReadWriteLock T) :
      d.rwLock.acquireWrite t expired p = some (l, q) →
      WriteStep t userId text d (.acquire p) (.lock expired) { d with rwLock := l } (.ofAcquire q)
  | wake : WriteStep t userId text d (.acquire .wait) .wake d (.acquire .woken)
  | refused :
      WriteStep t userId text d .refused .go d (.done (.ok ⟨false, writeTimeout, d.version⟩))
  | calledBack : WriteStep t userId text d .callback .go d .openFile
  | callbackRaised : WriteStep t userId text d .callback .fail d (.release (.error .callback))
  | opened (stamp : Text) : encodable (record stamp userId text) = true →
      WriteStep t userId text d .openFile (.openAt stamp) d
        (.append (record stamp userId text) (utf8 (record stamp userId text)))
  | unencodable (stamp : Text) : ¬ encodable (record stamp userId text) = true →
      WriteStep t userId text d .openFile (.openAt stamp) d (.release (.error .unicode))
  | openRaised : WriteStep t userId text d .openFile .fail d (.release (.error .storage))
  | flushed (rec : Text) (rest : Bytes) (n : ℕ) : rest.drop n ≠ [] →
      WriteStep t userId text d (.append rec rest) (.flush n)
        { d with file := d.file ++ rest.take n } (.append rec (rest.drop n))
  | closed (rec : Text) (rest : Bytes) (n : ℕ) : rest.take n = rest →
      WriteStep t userId text d (.append rec rest) (.flush n) { d with file := d.file ++ rest }
        (.bump rec)
  | appendRaised (rec : Text) (rest : Bytes) :
      WriteStep t userId text d (.append rec rest) .fail d (.release (.error .storage))
  | bumped (rec : Text) :
      WriteStep t userId text d (.bump rec) .go { d with version := d.version + 1 }
        (.release (.ok ⟨true, writeCommitted, d.version + 1⟩))
  | closeRaised (rec : Text) :
      WriteStep t userId text d (.bump rec) .fail d (.release (.error .storage))
  | released (o : Outcome) (k : ℕ) :
      WriteStep t userId text d (.release o) (.release k)
        { d with rwLock := d.rwLock.releaseWrite k } (.done o)

theorem readResource_cases {t : T} {d d' : DataLayer T} {pc pc' : ReadPc} {a : DataAct}
    (h : readResource t d pc a = some (d', pc')) : ReadStep t d pc a d' pc' := by
  unfold readResource at h
  split at h
  case h_1 p expired =>
    obtain ⟨⟨l, q⟩, hl, he⟩ := Option.map_eq_some_iff.1 h
    cases he
    exact .acquire p q expired l hl
  case h_2 =>
    cases h
    exact .wake
  case h_3 =>
    cases h
    exact .refused
  case h_4 =>
    cases h
    exact .calledBack
  case h_5 =>
    cases h
    exact .callbackRaised
  case h_6 =>
    split at h <;> cases h
    · rename_i content hc
      exact .loaded content hc
    · rename_i hc
      exact .unreadable hc
  case h_7 =>
    cases h
    exact .loadRaised
  case h_8 content =>
    cases h
    exact .stamped content
  case h_9 o k =>
    cases h
    exact .released o k
  case h_10 => cases h

theorem writeResource_cases {t : T} {u x : Text} {d d' : DataLayer T} {pc pc' : WritePc} {a : DataAct}
    (h : writeResource t u x d pc a = some (d', pc')) : WriteStep t u x d pc a d' pc' := by
  unfold writeResource at h
  split at h
  case h_1 p expired =>
    obtain ⟨⟨l, q⟩, hl, he⟩ := Option.map_eq_some_iff.1 h
    cases he
    exact .acquire p q expired l hl
  case h_2 =>
    cases h
    exact .wake
  case h_3 =>
    cases h
    exact .refused
  case h_4 =>
    cases h
    exact .calledBack
  case h_5 =>
    cases h
    exact .callbackRaised
  case h_6 stamp =>
    split_ifs at h with henc <;> cases h
    · exact .opened stamp henc
    · exact .unencodable stamp henc
  case h_7 =>
    cases h
    exact .openRaised
  case h_8 rec rest n =>
    split_ifs at h with hn hd <;> cases h
    · have ht : rest.take n = rest := List.take_of_length_le (List.drop_eq_nil_iff.1 hd)
      rw [ht]
      exact .closed rec rest n ht
    · exact .flushed rec rest n hd
  case h_9 rec rest =>
    cases h
    exact .appendRaised rec rest
  case h_10 rec =>
    cases h
    exact .bumped rec
  case h_11 rec =>
    cases h
    exact .closeRaised rec
  case h_12 o k =>
    cases h
    exact .released o k
  case h_13 => cases h

end Steps

/-! ## Threads that call the data layer -/

/-- A call of one of the two functions. -/
inductive Op
  | read
  | write (userId text : Text)
  deriving DecidableEq

/-- What a thread is doing. -/
inductive Call
  | idle
  | read (pc : ReadPc)
  | write (userId text : Text) (pc : WritePc)

/-- What a thread can do: call one of the functions, go on inside it, and take its outcome. -/
inductive CallAct
  | call (op : Op)
  | step (a : DataAct)
  | ret

/-- A step of a thread that calls the data layer any number of times. -/
def callStep {T : Type} [DecidableEq T] (t : T) (d : DataLayer T) :
    Call → CallAct → Option (DataLayer T × Call)
  | .idle, .call .read => some (d, .read (.acquire .enter))
  | .idle, .call (.write u x) => some (d, .write u x (.acquire .enter))
  | .read pc, .step a => (readResource t d pc a).map fun r => (r.1, .read r.2)
  | .write u x pc, .step a => (writeResource t u x d pc a).map fun r => (r.1, .write u x r.2)
  | .read (.done _), .ret => some (d, .idle)
  | .write _ _ (.done _), .ret => some (d, .idle)
  | _, _ => none

/-- Any number of threads over one data layer whose file starts with the given bytes. -/
def dataPool (T : Type) [DecidableEq T] (file : Bytes) :
    Pool T (DataLayer T) Call CallAct where
  init d := d = { file := file }
  start := .idle
  step := callStep

/-- The machine of these threads. -/
abbrev dataMachine (T : Type) [DecidableEq T] (file : Bytes) := (dataPool T file).machine

end DistRes
