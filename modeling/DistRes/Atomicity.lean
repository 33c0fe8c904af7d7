import DistRes.Restarts

/-!
# What a write leaves behind

A write changes two pieces of state, the file and the version, and the file in several steps, any of
which may raise.

* `FileHistory` — of each call of `write_resource` that has come to its outcome, what it found when it
  got the lock and what it left when it gave it back; of each successful read, the file that it saw;
* `AuditInv` — the file and the version are at any moment what the last write has left, and on top of
  that what the one write in progress has done since;
* `all_or_nothing_iff` — a write is all or nothing unless it raises when bytes of its record have
  reached the file.
-/

namespace DistRes

open Lib

/-! ## Histories -/

/-- The file and the version that goes with it. -/
abbrev Stored := Bytes × ℕ

/-- What is recorded of a call of `write_resource` while it runs. -/
structure Trace where
  /-- what it found when it got the lock -/
  found : Option Stored := none
  stamp : Text := []
  /-- one of its steps has changed the file or the version -/
  changed : Bool := false
  /-- it has raised with bytes of the record in the file -/
  torn : Bool := false

/-- A call of `write_resource(user_id, text)` that has come to its outcome. -/
structure EndedWrite where
  userId : Text
  text : Text
  outcome : Outcome
  trace : Trace
  /-- the file and the version at its end -/
  left : Stored
  /-- `_active_writers` at its end -/
  writers : ℤ
  /-- another call is writing at its end -/
  busy : Bool

def EndedWrite.succeeded (e : EndedWrite) : Bool :=
  match e.outcome with
  | .ok r => r.ok
  | .error _ => false

theorem EndedWrite.succeeded_ok {e : EndedWrite} {r : Result} (h : e.outcome = .ok r) :
    e.succeeded = r.ok := by
  simp [EndedWrite.succeeded, h]

theorem EndedWrite.succeeded_error {e : EndedWrite} {x : Raised} (h : e.outcome = .error x) :
    e.succeeded = false := by
  simp [EndedWrite.succeeded, h]

/-- The record of the call. -/
def EndedWrite.record (e : EndedWrite) : Text := DistRes.record e.trace.stamp e.userId e.text

inductive FileEvent
  /-- a successful read, with the file at that moment -/
  | read (file : Bytes) (r : Result)
  | write (e : EndedWrite)

/-- The traces of the calls under way, and the events so far. -/
structure FileHistory (T : Type) where
  trace : T → Trace := fun _ => {}
  events : List FileEvent := []

section History

variable {T : Type} [DecidableEq T]

def DataLayer.stored (d : DataLayer T) : Stored := (d.file, d.version)

/-- The trace after a step that leads from `c` to `c'`. -/
def Trace.next (g : Trace) (d : DataLayer T) (c : Call) (a : CallAct) (d' : DataLayer T) (c' : Call) :
    Trace :=
  match a with
  | .call _ => {}
  | _ =>
    { found := if c.role ≠ .writer ∧ c'.role = .writer then some d'.stored else g.found
      stamp := match a with
        | .step (.openAt stamp) => stamp
        | _ => g.stamp
      changed := g.changed || decide (d'.stored ≠ d.stored)
      torn := g.torn || tears c a }

variable [Fintype T]

/-- The event of a step of `t` to the state `s'`, where `g` is the trace after it. -/
def fileEvents (g : Trace) (d : DataLayer T) (c : Call) (a : CallAct)
    (s' : Pool.State T (DataLayer T) Call) : Call → List FileEvent
  | .write u x (.done o) =>
    [.write ⟨u, x, o, g, s'.shared.stored, s'.shared.rwLock.activeWriters,
      decide (∃ t, (s'.thread t).role = .writer)⟩]
  | _ => (readResult d c a).map (.read d.file)

def FileHistory.next (h : FileHistory T) (s : Pool.State T (DataLayer T) Call) (a : T × CallAct)
    (s' : Pool.State T (DataLayer T) Call) : FileHistory T :=
  let g := (h.trace a.1).next s.shared (s.thread a.1) a.2 s'.shared (s'.thread a.1)
  { trace := Function.update h.trace a.1 g
    events := h.events ++ fileEvents g s.shared (s.thread a.1) a.2 s' (s'.thread a.1) }

/-- The data layer over the given file, with the history of its writes and reads. -/
def auditedDataLayer (T : Type) [DecidableEq T] [Fintype T] (file : Bytes) :=
  (dataMachine T file).withHistory ({} : FileHistory T) FileHistory.next

end History

/-! ## All or nothing -/

/-- The call has appended its whole record and raised the version by one, or it has changed nothing;
and the lock is free, unless the call did not get it and another call is writing. -/
structure AllOrNothing (e : EndedWrite) : Prop where
  all : e.succeeded = true → ∃ file version, e.trace.found = some (file, version) ∧
    e.left = (file ++ utf8 e.record, version + 1)
  nothing : e.succeeded = false → e.trace.changed = false ∧ ∀ b ∈ e.trace.found, e.left = b
  free : e.writers = 0 ∨ e.trace.found = none ∧ e.busy = true

/-- How a call of `write_resource` can end, told from what it found to what it left. -/
inductive Ends (u x : Text) (g : Trace) (left : Stored) : Outcome → Prop
  | refused {o : Outcome} {r : Result} : o = .ok r → r.ok = false → g.found = none →
      g.changed = false → g.torn = false → Ends u x g left o
  | committed (b : Stored) {o : Outcome} {r : Result} : o = .ok r → r.ok = true → g.found = some b →
      g.torn = false → encodable (record g.stamp u x) = true →
      left = (b.1 ++ utf8 (record g.stamp u x), b.2 + 1) → Ends u x g left o
  | failed (b : Stored) {o : Outcome} {e : Raised} : o = .error e → g.found = some b →
      g.changed = false → g.torn = false → left = b → Ends u x g left o
  | torn (b : Stored) {o : Outcome} {e : Raised} (part : Bytes) : o = .error e → g.found = some b →
      g.torn = true → part ≠ [] → part <+: utf8 (record g.stamp u x) → left = (b.1 ++ part, b.2) →
      Ends u x g left o

/-! ## The file between two events -/

/-- The file and the version after an event. -/
def FileEvent.after (b : Stored) : FileEvent → Stored
  | .read _ _ => b
  | .write e => if e.trace.found = none then b else e.left

/-- The file and the version after the given events, where the run starts with `file`. -/
def settled (file : Bytes) (events : List FileEvent) : Stored :=
  events.foldl FileEvent.after (file, 0)

/-- What is true of an event that comes after the events `before`. -/
def Placed (file : Bytes) (before : List FileEvent) : FileEvent → Prop
  | .read f r => f = (settled file before).1 ∧ r.version = (settled file before).2 ∧
      readText f = some r.text
  | .write e => Ends e.userId e.text e.trace e.left e.outcome ∧
      (∀ b ∈ e.trace.found, b = settled file before) ∧
      (e.writers = 0 ∨ e.trace.found = none ∧ e.busy = true)

/-- What a thread inside `write_resource` has done so far, where it has found `b`. -/
def Since (b : Stored) (u x : Text) (g : Trace) (now : Stored) : WritePc → Prop
  | .acquire _ | .refused => g.found = none ∧ g.changed = false ∧ g.torn = false
  | .callback | .openFile => g.found = some b ∧ g.changed = false ∧ g.torn = false ∧ now = b
  | .append rec rest => g.found = some b ∧ g.torn = false ∧ rec = record g.stamp u x ∧
      encodable rec = true ∧ ∃ part, part ++ rest = utf8 rec ∧ now = (b.1 ++ part, b.2) ∧
        (part = [] → g.changed = false)
  | .bump rec => g.found = some b ∧ g.torn = false ∧ rec = record g.stamp u x ∧
      encodable rec = true ∧ now = (b.1 ++ utf8 rec, b.2)
  | .release o => g.found = some b ∧ Ends u x g now o
  | .done _ => True

theorem Since.outside {b b' now now' : Stored} {u x : Text} {g : Trace} {pc : WritePc}
    (h : Since b u x g now pc) (hpc : pc.role ≠ .writer) : Since b' u x g now' pc := by
  cases pc with
  | acquire | refused => exact h
  | done => trivial
  | callback | openFile | append | bump | release => exact absurd rfl hpc

section Audit

variable {T : Type} [DecidableEq T] {file : Bytes}

/-- **The invariant of the history.** -/
structure AuditInv (file : Bytes) (d : DataLayer T) (th : T → Call) (h : FileHistory T) : Prop where
  quiet : (∀ t, (th t).role ≠ .writer) → d.stored = settled file h.events
  writing : ∀ t u x pc, th t = .write u x pc →
    Since (settled file h.events) u x (h.trace t) d.stored pc
  reading : ∀ t content, th t = .read (.stamp content) → readText d.file = some content
  placed : InPlace (Placed file) h.events

variable {d d' : DataLayer T} {th : T → Call} {h : FileHistory T} {t : T} {c' : Call} {g : Trace}
  {evs : List FileEvent}

/-- A step of `t` that the other threads do not notice, or that they neither write nor read beside. -/
theorem AuditInv.update (hi : AuditInv file d th h)
    (hothers : d'.stored = d.stored ∧ settled file (h.events ++ evs) = settled file h.events ∨
      ∀ u, u ≠ t → (th u).role ≠ .writer ∧ (th u).role ≠ .reader)
    (hquiet : (∀ u, u ≠ t → (th u).role ≠ .writer) → c'.role ≠ .writer →
      d'.stored = settled file (h.events ++ evs))
    (hwriting : ∀ u x pc, c' = .write u x pc →
      Since (settled file (h.events ++ evs)) u x g d'.stored pc)
    (hreading : ∀ content, c' = .read (.stamp content) → readText d'.file = some content)
    (hplaced : InPlace (Placed file) (h.events ++ evs)) :
    AuditInv file d' (Function.update th t c') ⟨Function.update h.trace t g, h.events ++ evs⟩ := by
  have hself : ∀ c, Function.update th t c' t = c → c' = c := fun c hc => by
    rwa [Function.update_self] at hc
  have hother : ∀ k c, k ≠ t → Function.update th t c' k = c → th k = c := fun k c hk hc => by
    rwa [Function.update_of_ne hk] at hc
  refine ⟨fun hall => hquiet (fun k hk => ?_) ?_, ?_, ?_, hplaced⟩
  · have := hall k
    rwa [Function.update_of_ne hk] at this
  · have := hall t
    rwa [Function.update_self] at this
  · intro k u x pc hk
    by_cases hkt : k = t
    · subst hkt
      simp only [Function.update_self]
      exact hwriting u x pc (hself _ hk)
    · simp only [Function.update_of_ne hkt]
      have hold := hi.writing k u x pc (hother k _ hkt hk)
      rcases hothers with ⟨hsame, hset⟩ | halone
      · rw [hsame, hset]
        exact hold
      · refine hold.outside fun hrole => (halone k hkt).1 ?_
        rw [hother k _ hkt hk]
        exact hrole
  · intro k content hk
    by_cases hkt : k = t
    · subst hkt
      exact hreading content (hself _ hk)
    · rcases hothers with ⟨hsame, -⟩ | halone
      · have hfile : d'.file = d.file := congrArg Prod.fst hsame
        rw [hfile]
        exact hi.reading k content (hother k _ hkt hk)
      · refine absurd ?_ (halone k hkt).2
        rw [hother k _ hkt hk]
        rfl

@[simp] theorem settled_append (events evs : List FileEvent) :
    settled file (events ++ evs) = evs.foldl FileEvent.after (settled file events) :=
  List.foldl_append

section Trace

variable {u x : Text} {c : Call} {pc : WritePc} {a : DataAct}

section

omit [DecidableEq T]

@[simp] theorem Trace.next_found (hpc : pc.role = .writer) :
    (g.next d (.write u x pc) (.step a) d' c').found = g.found := by
  simp [Trace.next, Call.role, hpc]

@[simp] theorem Trace.next_changed :
    (g.next d c (.step a) d' c').changed = (g.changed || decide (d'.stored ≠ d.stored)) := rfl

@[simp] theorem Trace.next_torn :
    (g.next d c (.step a) d' c').torn = (g.torn || tears c (.step a)) := rfl

/-- A call fails before anything has reached the file. -/
theorem Since.fail {b : Stored} {e : Raised} (hpc : pc.role = .writer)
    (h : g.found = some b ∧ g.changed = false ∧ g.torn = false ∧ d.stored = b)
    (ht : tears (.write u x pc) (.step a) = false) :
    Since b u x (g.next d (.write u x pc) (.step a) d c') d.stored (.release (.error e)) := by
  obtain ⟨hfound, hchanged, htorn, hnow⟩ := h
  have hfound' : (g.next d (.write u x pc) (.step a) d c').found = some b := by
    rw [Trace.next_found hpc, hfound]
  refine ⟨hfound', .failed b rfl hfound' ?_ ?_ hnow⟩
  · simp [hchanged]
  · simp [htorn, ht]

end

end Trace

/-- **One step of a write.** -/
theorem Since.step {b : Stored} {u x : Text} {pc pc' : WritePc} {a : DataAct}
    (h : Since b u x g d.stored pc) (hs : writeResource t u x d pc a = some (d', pc'))
    (hb : pc.role ≠ .writer → pc'.role = .writer → d.stored = b) :
    Since b u x (g.next d (.write u x pc) (.step a) d' (.write u x pc')) d'.stored pc' := by
  cases writeResource_cases hs with
  | acquire p q expired l hq =>
    obtain ⟨hfound, hchanged, htorn⟩ : g.found = none ∧ g.changed = false ∧ g.torn = false := h
    have hp : WritePc.role (.acquire p) ≠ .writer := by
      cases p <;> simp [WritePc.role]
    have hsame : DataLayer.stored { d with rwLock := l } = d.stored := rfl
    rcases q with _ | _ | _ | _ | _
    case returned.true =>
      have hd : d.stored = b := hb hp rfl
      cases p <;> simp [WritePc.ofAcquire, Since, Trace.next, Call.role, WritePc.role, tears, hsame,
        hd, hchanged, htorn]
    all_goals
      simp [WritePc.ofAcquire, Since, Trace.next, Call.role, WritePc.role, tears, hsame, hfound,
        hchanged, htorn]
  | wake => simpa [Since, Trace.next, Call.role, WritePc.role, tears] using h
  | refused => trivial
  | calledBack => simpa [Since, Trace.next, Call.role, WritePc.role, tears] using h
  | callbackRaised => exact Since.fail rfl h rfl
  | opened stamp henc =>
    obtain ⟨hfound, hchanged, htorn, hnow⟩ := h
    refine ⟨by rw [Trace.next_found rfl, hfound], by simp [htorn, tears], rfl, henc, [], rfl,
      ?_, ?_⟩
    · rw [List.append_nil]
      exact hnow
    · simp [hchanged]
  | unencodable stamp => exact Since.fail rfl h rfl
  | openRaised => exact Since.fail rfl h rfl
  | flushed rec rest n hn =>
    obtain ⟨hfound, htorn, hrec, henc, part, hpart, hnow, hchanged⟩ := h
    refine ⟨by rw [Trace.next_found rfl, hfound], by simp [htorn, tears], hrec, henc,
      part ++ rest.take n, ?_, ?_, fun hnil => ?_⟩
    · rw [List.append_assoc, List.take_append_drop, hpart]
    · obtain ⟨hf, hv⟩ := Prod.mk.inj hnow
      simp [DataLayer.stored, hf, hv]
    · obtain ⟨hp, ht⟩ := List.append_eq_nil_iff.1 hnil
      simp [hchanged hp, DataLayer.stored, ht]
  | closed rec rest n ht =>
    obtain ⟨hfound, htorn, hrec, henc, part, hpart, hnow, -⟩ := h
    refine ⟨by rw [Trace.next_found rfl, hfound], by simp [htorn, tears], hrec, henc, ?_⟩
    obtain ⟨hf, hv⟩ := Prod.mk.inj hnow
    simp [DataLayer.stored, hf, hv, ← hpart]
  | appendRaised rec rest =>
    obtain ⟨hfound, htorn, rfl, -, part, hpart, hnow, hchanged⟩ := h
    -- the write is torn unless all of the record is still to come
    by_cases hnil : part = []
    · subst hnil
      refine Since.fail rfl ⟨hfound, hchanged rfl, htorn, by simpa using hnow⟩ ?_
      simpa [tears] using hpart
    · have hrest : rest ≠ utf8 (record g.stamp u x) := fun he => hnil (by simpa [he] using hpart)
      refine ⟨by rw [Trace.next_found rfl, hfound], .torn b part rfl ?_ ?_ hnil ⟨rest, hpart⟩ hnow⟩
      · rw [Trace.next_found rfl, hfound]
      · simp [tears, hrest]
  | bumped rec =>
    obtain ⟨hfound, htorn, rfl, henc, hnow⟩ := h
    refine ⟨by rw [Trace.next_found rfl, hfound],
      .committed b rfl rfl ?_ (by simp [htorn, tears]) henc ?_⟩
    · rw [Trace.next_found rfl, hfound]
    · obtain ⟨hf, hv⟩ := Prod.mk.inj hnow
      simp [DataLayer.stored, hf, hv]
      rfl
  | closeRaised rec =>
    obtain ⟨hfound, htorn, rfl, -, hnow⟩ := h
    refine ⟨by rw [Trace.next_found rfl, hfound], .torn b _ rfl ?_ (by simp [tears])
      (utf8_record_ne_nil _ u x) (List.prefix_refl _) hnow⟩
    rw [Trace.next_found rfl, hfound]
  | released o k => trivial

variable [Fintype T]

omit [Fintype T] in
theorem AuditInv.quiet_beside (hi : AuditInv file d th h) (hc : (th t).role ≠ .writer)
    (hall : ∀ k, k ≠ t → (th k).role ≠ .writer) : d.stored = settled file h.events := by
  refine hi.quiet fun k => ?_
  by_cases hk : k = t
  · rw [hk]
    exact hc
  · exact hall k hk

/-- A step inside `read_resource`. -/
theorem AuditInv.read {pc pc' : ReadPc} {a : DataAct} (hl : LockInv d.rwLock th)
    (hi : AuditInv file d th h) (hc : th t = .read pc)
    (hs : readResource t d pc a = some (d', pc')) :
    AuditInv file d' (Function.update th t (.read pc')) ⟨Function.update h.trace t g,
      h.events ++ (readResult d (.read pc) (.step a)).map (.read d.file)⟩ := by
  have hsame : d'.stored = d.stored := by
    cases readResource_cases hs <;> rfl
  have hset : settled file (h.events ++ (readResult d (.read pc) (.step a)).map (.read d.file)) =
      settled file h.events := by
    unfold readResult
    split <;> simp [FileEvent.after]
  refine hi.update (.inl ⟨hsame, hset⟩) (fun hall _ => ?_) nofun ?_ ?_
  · rw [hsame, hset]
    refine hi.quiet_beside ?_ hall
    rw [hc]
    cases pc <;> simp [Call.role, ReadPc.role]
  · rintro content he
    generalize hpc : pc' = q at hs he
    cases readResource_cases hs with
    | loaded _ hr =>
      cases he
      exact hr
    | acquire p q =>
      rcases q with _ | _ | _ | _ | _ <;> cases he
    | _ => cases he
  · unfold readResult
    split
    · rename_i content hpc _
      -- the lock is shared, so that no write is in progress
      have hquiet : d.stored = settled file h.events := hi.quiet fun k hk => by
        refine (hl.writer_alone hk (u := t)).2 ?_
        rw [hc, hpc]
        rfl
      refine hi.placed.concat ⟨congrArg Prod.fst hquiet, congrArg Prod.snd hquiet, ?_⟩
      exact hi.reading t content (hc.trans hpc)
    · simpa using hi.placed

omit [DecidableEq T] in
/-- Nobody writes or reads beside a writer. -/
theorem LockInv.beside_writer {l : ReadWriteLock T} (hl : LockInv l th) (ht : (th t).role = .writer)
    (k : T) (hk : k ≠ t) : (th k).role ≠ .writer ∧ (th k).role ≠ .reader :=
  ⟨fun hw => hk ((hl.writer_alone ht).1 hw).symm, (hl.writer_alone ht).2⟩

/-- Nobody wrote or read beside a thread that is a writer after its step. -/
theorem LockInv.beside_new_writer {l : ReadWriteLock T} (hl : LockInv l (Function.update th t c'))
    (hc : c'.role = .writer) (k : T) (hk : k ≠ t) :
    (th k).role ≠ .writer ∧ (th k).role ≠ .reader := by
  have hw := hl.beside_writer (by rw [Function.update_self]; exact hc) k hk
  rwa [Function.update_of_ne hk] at hw

omit [Fintype T] in
/-- A thread that does not hold the lock for writing changes neither the file nor the vector. -/
theorem writeResource_stored {u x : Text} {pc pc' : WritePc} {a : DataAct}
    (hs : writeResource t u x d pc a = some (d', pc')) (hpc : pc.role ≠ .writer) :
    d'.stored = d.stored := by
  cases writeResource_cases hs <;> first | rfl | exact absurd rfl hpc

omit [Fintype T] in
/-- The last step of a write: the lock is given back, or it was never got. -/
theorem Since.ends {b : Stored} {u x : Text} {pc : WritePc} {a : DataAct} {g' : Trace}
    {o : Except Raised Result} (hold : Since b u x g d.stored pc)
    (hs : writeResource t u x d pc a = some (d', .done o))
    (hg : g' = g.next d (.write u x pc) (.step a) d' (.write u x (.done o))) :
    Ends u x g' d'.stored o ∧ (∀ b' ∈ g'.found, b' = b) ∧
      (pc.role = .writer ∧ g'.found ≠ none ∨ pc.role ≠ .writer ∧ g'.found = none) := by
  generalize hq : WritePc.done o = q at hs hg
  cases writeResource_cases hs with
  | acquire _ r => rcases r with _ | _ | _ | _ | _ <;> cases hq
  | refused =>
    cases hq
    obtain ⟨hfound, hchanged, htorn⟩ := hold
    have hsame : g' = g := by simp [hg, Trace.next, Call.role, WritePc.role, tears]
    rw [hsame, hfound]
    exact ⟨.refused rfl rfl hfound hchanged htorn, by simp, .inr ⟨by simp [WritePc.role], rfl⟩⟩
  | released o k =>
    cases hq
    obtain ⟨hfound, hends⟩ := hold
    have hsame : g' = g := by
      simp [hg, Trace.next, Call.role, WritePc.role, tears, DataLayer.stored]
    rw [hsame, hfound]
    exact ⟨hends, by simp, .inl ⟨rfl, by simp⟩⟩
  | _ => cases hq

/-- `write_resource` returns or raises. -/
theorem AuditInv.write_done {u x : Text} {pc : WritePc} {a : DataAct} {o : Except Raised Result}
    (hl : LockInv d.rwLock th) (hl' : LockInv d'.rwLock (Function.update th t (.write u x (.done o))))
    (hi : AuditInv file d th h) (hc : th t = .write u x pc)
    (hs : writeResource t u x d pc a = some (d', .done o))
    (hg : g = (h.trace t).next d (.write u x pc) (.step a) d' (.write u x (.done o))) :
    AuditInv file d' (Function.update th t (.write u x (.done o))) ⟨Function.update h.trace t g,
      h.events ++ fileEvents g d (.write u x pc) (.step a)
        ⟨d', Function.update th t (.write u x (.done o))⟩ (.write u x (.done o))⟩ := by
  obtain ⟨hends, hfound, hcase⟩ := (hi.writing t u x pc hc).ends hs hg
  have halone : pc.role = .writer → ∀ k, k ≠ t → (th k).role ≠ .writer ∧ (th k).role ≠ .reader :=
    fun hpc => hl.beside_writer (by rw [hc]; exact hpc)
  have hfree : d'.rwLock.activeWriters = 0 ∨ g.found = none ∧
      ∃ k, (Function.update th t (.write u x (.done o)) k).role = .writer := by
    by_cases hn : ∃ k, (Function.update th t (.write u x (.done o)) k).role = .writer
    · refine .inr ⟨?_, hn⟩
      rcases hcase with ⟨hpc, -⟩ | ⟨-, hnone⟩
      · obtain ⟨k, hk⟩ := hn
        by_cases hkt : k = t
        · rw [hkt, Function.update_self] at hk
          cases hk
        · rw [Function.update_of_ne hkt] at hk
          exact absurd hk (halone hpc k hkt).1
      · exact hnone
    · left
      have hnone : count (fun c : Call => c.role = .writer)
          (Function.update th t (.write u x (.done o))) = 0 := (count_eq_zero _).2 (not_exists.1 hn)
      rw [hl'.writers, hnone]
      rfl
  simp only [fileEvents]
  refine hi.update ?_ (fun hall _ => ?_) ?_ (fun _ he => (by cases he))
    (hi.placed.concat ⟨hends, hfound, ?_⟩)
  · rcases hcase with ⟨hpc, -⟩ | ⟨hpc, hnone⟩
    · exact .inr (halone hpc)
    · exact .inl ⟨writeResource_stored hs hpc, by simp [FileEvent.after, hnone]⟩
  · rcases hcase with ⟨-, hsome⟩ | ⟨hpc, hnone⟩
    · simp [FileEvent.after, hsome]
    · have hquiet := hi.quiet_beside (t := t) (by rw [hc]; exact hpc) hall
      simp [FileEvent.after, hnone, writeResource_stored hs hpc, hquiet]
  · rintro _ _ _ he
    cases he
    trivial
  · simpa using hfree

/-- `write_resource` goes on. -/
theorem AuditInv.write_going {u x : Text} {pc pc' : WritePc} {a : DataAct}
    (hl' : LockInv d'.rwLock (Function.update th t (.write u x pc'))) (hi : AuditInv file d th h)
    (hc : th t = .write u x pc) (hs : writeResource t u x d pc a = some (d', pc'))
    (hg : g = (h.trace t).next d (.write u x pc) (.step a) d' (.write u x pc'))
    (hgoing : ∀ o, pc' ≠ .done o) :
    AuditInv file d' (Function.update th t (.write u x pc')) ⟨Function.update h.trace t g,
      h.events ++ fileEvents g d (.write u x pc) (.step a)
        ⟨d', Function.update th t (.write u x pc')⟩ (.write u x pc')⟩ := by
  have hrole : pc'.role ≠ .writer → pc.role ≠ .writer := by
    cases writeResource_cases hs with
    | released o k => exact absurd rfl (hgoing o)
    | acquire p => cases p <;> simp [WritePc.role]
    | _ => simp [WritePc.role]
  have hquiet : pc.role ≠ .writer → (∀ k, k ≠ t → (th k).role ≠ .writer) →
      d.stored = settled file h.events := fun hpc => hi.quiet_beside (by rw [hc]; exact hpc)
  have hsince : Since (settled file h.events) u x g d'.stored pc' := by
    rw [hg]
    refine (hi.writing t u x pc hc).step hs fun hpc hpc' => ?_
    exact hquiet hpc fun k hk => (hl'.beside_new_writer hpc' k hk).1
  have hev : fileEvents g d (.write u x pc) (.step a) ⟨d', Function.update th t (.write u x pc')⟩
      (.write u x pc') = [] := by
    unfold fileEvents
    split
    · rename_i o he
      cases he
      exact absurd rfl (hgoing o)
    · rfl
  have hset : settled file (h.events ++ []) = settled file h.events := by
    rw [List.append_nil]
  rw [hev]
  refine hi.update ?_ (fun hall hpc => ?_) ?_ (fun _ he => (by cases he)) ?_
  · by_cases hpc : pc'.role = .writer
    · exact .inr (hl'.beside_new_writer hpc)
    · exact .inl ⟨writeResource_stored hs (hrole hpc), hset⟩
  · rw [writeResource_stored hs (hrole hpc), hset]
    exact hquiet (hrole hpc) hall
  · rintro _ _ _ he
    cases he
    rw [hset]
    exact hsince
  · rw [List.append_nil]
    exact hi.placed

/-- A step inside `write_resource`. -/
theorem AuditInv.write {u x : Text} {pc pc' : WritePc} {a : DataAct} (hl : LockInv d.rwLock th)
    (hl' : LockInv d'.rwLock (Function.update th t (.write u x pc'))) (hi : AuditInv file d th h)
    (hc : th t = .write u x pc) (hs : writeResource t u x d pc a = some (d', pc'))
    (hg : g = (h.trace t).next d (.write u x pc) (.step a) d' (.write u x pc')) :
    AuditInv file d' (Function.update th t (.write u x pc')) ⟨Function.update h.trace t g,
      h.events ++ fileEvents g d (.write u x pc) (.step a)
        ⟨d', Function.update th t (.write u x pc')⟩ (.write u x pc')⟩ := by
  by_cases hdone : ∃ o, pc' = .done o
  · obtain ⟨o, rfl⟩ := hdone
    exact hi.write_done hl hl' hc hs hg
  · exact hi.write_going hl' hc hs hg (not_exists.1 hdone)

omit [Fintype T] in
/-- A call begins, or its outcome is taken. -/
theorem AuditInv.outside (hi : AuditInv file d th h) (hc : (th t).role = .out)
    (hc' : c' = .idle ∨ c' = .read (.acquire .enter) ∨ ∃ u x, c' = .write u x (.acquire .enter))
    (hg : c' ≠ .idle → g = {}) :
    AuditInv file d (Function.update th t c') ⟨Function.update h.trace t g, h.events ++ []⟩ := by
  have hset : settled file (h.events ++ []) = settled file h.events := by
    rw [List.append_nil]
  refine hi.update (.inl ⟨rfl, hset⟩) (fun hall _ => ?_) ?_ ?_ ?_
  · rw [hset]
    refine hi.quiet_beside ?_ hall
    rw [hc]
    decide
  · rintro u x pc rfl
    rcases hc' with he | he | ⟨_, _, he⟩ <;> cases he
    rw [hg (by simp)]
    exact ⟨rfl, rfl, rfl⟩
  · rintro content rfl
    rcases hc' with he | he | ⟨_, _, he⟩ <;> cases he
  · rw [List.append_nil]
    exact hi.placed

/-- **One step keeps the invariant.** -/
theorem AuditInv.step {a : CallAct} (hl : LockInv d.rwLock th) (hi : AuditInv file d th h)
    (hs : callStep t d (th t) a = some (d', c')) :
    AuditInv file d' (Function.update th t c')
      (h.next ⟨d, th⟩ (t, a) ⟨d', Function.update th t c'⟩) := by
  have hl' := hl.step (callStep_moves hs)
  simp only [FileHistory.next, Function.update_self]
  generalize hg : (h.trace t).next d (th t) a d' c' = g
  generalize hc : th t = c at hs hg
  unfold callStep at hs
  split at hs
  · cases hs
    exact hi.outside (by rw [hc]; rfl) (.inr (.inl rfl)) fun _ => hg.symm
  · cases hs
    exact hi.outside (by rw [hc]; rfl) (.inr (.inr ⟨_, _, rfl⟩)) fun _ => hg.symm
  · obtain ⟨⟨d1, pc1⟩, hread, he⟩ := Option.map_eq_some_iff.1 hs
    cases he
    exact hi.read hl hc hread
  · obtain ⟨⟨d1, pc1⟩, hwrite, he⟩ := Option.map_eq_some_iff.1 hs
    cases he
    exact hi.write hl hl' hc hwrite hg.symm
  · cases hs
    exact hi.outside (by rw [hc]; rfl) (.inl rfl) fun hn => absurd rfl hn
  · cases hs
    exact hi.outside (by rw [hc]; rfl) (.inl rfl) fun hn => absurd rfl hn
  · cases hs

theorem auditInv_of_reachable {p : Pool.State T (DataLayer T) Call × FileHistory T}
    (hr : (auditedDataLayer T file).Reachable p) : AuditInv file p.1.shared p.1.thread p.2 := by
  refine hr.invariant (fun p => AuditInv file p.1.shared p.1.thread p.2) ?_ ?_
  · rintro ⟨s, h⟩ ⟨⟨hs, hth⟩, rfl⟩
    have hs : s.shared = { file := file } := hs
    have hth : ∀ t, s.thread t = .idle := hth
    refine ⟨fun _ => ?_, fun t u x pc ht => ?_, fun t content ht => ?_, inPlace_nil⟩
    · simp only [hs]
      rfl
    · rw [hth t] at ht
      cases ht
    · rw [hth t] at ht
      cases ht
  · rintro ⟨s, h⟩ ⟨t, a⟩ ⟨s', h'⟩ hr hi hs
    have hl := lockInv_of_reachable (Machine.Reach.erase hr)
    obtain ⟨hs, hh⟩ := Machine.withHistory_step.1 hs
    obtain ⟨d, c, hstep, rfl⟩ := Pool.machine_step.1 hs
    simp only at hh hl hi hstep ⊢
    rw [hh]
    exact hi.step hl hstep

/-! ## What the events say -/

theorem Ends.allOrNothing {e : EndedWrite} (h : Ends e.userId e.text e.trace e.left e.outcome)
    (hfree : e.writers = 0 ∨ e.trace.found = none ∧ e.busy = true) :
    AllOrNothing e ↔ e.trace.torn = false := by
  cases h with
  | refused ho hok hfound hchanged htorn =>
    have hsucc : e.succeeded = false := (e.succeeded_ok ho).trans hok
    refine iff_of_true ⟨fun h => ?_, fun _ => ⟨hchanged, by simp [hfound]⟩, hfree⟩ htorn
    rw [hsucc] at h
    cases h
  | committed b ho hok hfound htorn _ hleft =>
    have hsucc : e.succeeded = true := (e.succeeded_ok ho).trans hok
    refine iff_of_true ⟨fun _ => ⟨b.1, b.2, hfound, hleft⟩, fun h => ?_, hfree⟩ htorn
    rw [hsucc] at h
    cases h
  | failed b ho hfound hchanged htorn hleft =>
    have hsucc : e.succeeded = false := e.succeeded_error ho
    refine iff_of_true ⟨fun h => ?_, fun _ => ⟨hchanged, ?_⟩, hfree⟩ htorn
    · rw [hsucc] at h
      cases h
    · rw [hfound]
      rintro _ ⟨⟩
      exact hleft
  | torn b part ho hfound htorn hne _ hleft =>
    have hsucc : e.succeeded = false := e.succeeded_error ho
    refine iff_of_false (fun h => ?_) (by simp [htorn])
    -- the file has grown
    have hsame : e.left = b := (h.nothing hsucc).2 b hfound
    rw [hleft] at hsame
    exact hne (by simpa using congrArg Prod.fst hsame)

/-- The records of the successful writes. -/
def committedRecords (events : List FileEvent) : List Text :=
  events.filterMap fun
    | .write e => if e.succeeded = true then some e.record else none
    | .read _ _ => none

/-- While no write has been torn, the file is the initial one and the records that are committed, and
the version counts these. -/
theorem settled_of_whole {events : List FileEvent} (hp : InPlace (Placed file) events)
    (hwhole : ∀ e, .write e ∈ events → e.trace.torn = false) :
    settled file events =
      (file ++ utf8 (committedRecords events).flatten, (committedRecords events).length) := by
  induction events using List.reverseRecOn with
  | nil => simp [settled, committedRecords]
  | append_singleton events ev ih =>
    have ih := ih hp.of_append fun e he => hwhole e (List.mem_append_left _ he)
    have hplaced := hp events ev [] rfl
    rw [settled_append, committedRecords, List.filterMap_append, ← committedRecords]
    cases ev with
    | read f r => simpa [FileEvent.after] using ih
    | write e =>
      obtain ⟨hends, hfound, -⟩ := hplaced
      have htorn := hwhole e (by simp)
      cases hends with
      | refused ho hok hnone =>
        have hsucc : e.succeeded = false := (e.succeeded_ok ho).trans hok
        simpa [FileEvent.after, hnone, hsucc] using ih
      | committed b ho hok hsome _ _ hleft =>
        have hsucc : e.succeeded = true := (e.succeeded_ok ho).trans hok
        have hb : b = settled file events := hfound b hsome
        simp [FileEvent.after, hsome, hsucc, hleft, hb, ih, EndedWrite.record]
      | failed b ho hsome _ _ hleft =>
        have hsucc : e.succeeded = false := e.succeeded_error ho
        have hb : b = settled file events := hfound b hsome
        simp [FileEvent.after, hsome, hsucc, hleft, hb, ih]
      | torn _ _ _ _ h1 =>
        rw [htorn] at h1
        cases h1

/-- **All or nothing.**  In every run, a call of `write_resource` that has come to its outcome is all or
nothing if and only if it has not raised with bytes of its record in the file; and a read before which
no call has done so returns the initial text and the records that its version counts. -/
theorem all_or_nothing_iff {s : Pool.State T (DataLayer T) Call} {h : FileHistory T}
    (hr : (auditedDataLayer T file).Reachable (s, h)) :
    (∀ e, .write e ∈ h.events → (AllOrNothing e ↔ e.trace.torn = false)) ∧
    (∀ before f r after, h.events = before ++ .read f r :: after →
      (∀ e, .write e ∈ before → e.trace.torn = false) →
        r.version = (committedRecords before).length ∧
        readText (file ++ utf8 (committedRecords before).flatten) = some r.text) := by
  have hp := (auditInv_of_reachable hr).placed
  constructor
  · intro e he
    obtain ⟨before, after, hlog⟩ := List.append_of_mem he
    obtain ⟨hends, -, hfree⟩ := hp before _ after hlog
    exact hends.allOrNothing hfree
  · intro before f r after hlog hwhole
    obtain ⟨hf, hv, htext⟩ := hp before _ after hlog
    rw [hlog] at hp
    rw [settled_of_whole hp.of_append hwhole] at hf hv
    have hf : f = file ++ utf8 (committedRecords before).flatten := hf
    exact ⟨hv, by rw [← hf]; exact htext⟩

end Audit

/-! ### A torn write -/

/-- The start of a run with one thread. -/
def auditStart : Pool.State (Fin 1) (DataLayer (Fin 1)) Call × FileHistory (Fin 1) :=
  (⟨{ file := utf8 (lit "log") }, fun _ => .idle⟩, {})

/-- The storage fails when four bytes of the record are in the file, and a read follows. -/
def tornRun {T : Type} (t : T) : List (T × CallAct) :=
  [(t, .call (.write (lit "U001") (lit "a"))), (t, .step (.lock false)), (t, .step .go),
    (t, .step (.openAt (lit "now"))), (t, .step (.flush 4)), (t, .step .fail), (t, .step (.release 0)),
    (t, .ret), (t, .call .read), (t, .step (.lock false)), (t, .step .go), (t, .step .go),
    (t, .step .go), (t, .step (.release 0)), (t, .ret)]

/-- The calls of `write_resource` that have come to their outcome. -/
def writesOf (events : List FileEvent) : List EndedWrite :=
  events.filterMap fun
    | .write e => some e
    | .read _ _ => none

theorem mem_writesOf {events : List FileEvent} {e : EndedWrite} :
    e ∈ writesOf events ↔ .write e ∈ events := by
  simp only [writesOf, List.mem_filterMap]
  constructor
  · rintro ⟨ev, hev, he⟩
    cases ev with
    | read => cases he
    | write d =>
      cases he
      exact hev
  · exact fun he => ⟨_, he, rfl⟩

/-- The call returns no success, and leaves `log\n[no` where it found `log`. -/
theorem tornRun_partial :
    ¬ ∀ s h, (auditedDataLayer (Fin 1) (utf8 (lit "log"))).Reachable (s, h) →
      ∀ e, .write e ∈ h.events → AllOrNothing e := by
  intro hall
  have hs : ((auditedDataLayer (Fin 1) (utf8 (lit "log"))).run auditStart (tornRun 0)).map
      (fun p => (writesOf p.2.events).map fun e => (e.succeeded, e.trace.changed, e.left.1)) =
        some [(false, true, utf8 (lit "log\n[no"))] := by decide
  obtain ⟨⟨s, h⟩, hrun, hev⟩ := Option.map_eq_some_iff.1 hs
  have hr : (auditedDataLayer (Fin 1) (utf8 (lit "log"))).Reachable (s, h) :=
    Machine.Reachable.run (s := auditStart) (.init ⟨⟨rfl, fun _ => rfl⟩, rfl⟩) hrun
  obtain ⟨e, rest, hwrites, he, -⟩ := List.map_eq_cons_iff.1 hev
  obtain ⟨hfailed, he⟩ := Prod.mk.inj he
  have hchanged := (Prod.mk.inj he).1
  have hmem : .write e ∈ h.events := mem_writesOf.1 (by rw [hwrites]; exact List.mem_cons_self)
  have hsame := ((hall s h hr e hmem).nothing hfailed).1
  rw [hchanged] at hsame
  cases hsame

theorem writeReadRun_whole :
    ∃ s h e, (auditedDataLayer (Fin 1) (utf8 (lit "log"))).run auditStart (writeReadRun 0) =
        some (s, h) ∧ .write e ∈ h.events ∧ e.succeeded = true ∧ AllOrNothing e := by
  have hs : ((auditedDataLayer (Fin 1) (utf8 (lit "log"))).run auditStart (writeReadRun 0)).map
      (fun p => (writesOf p.2.events).map fun e => (e.succeeded, e.trace.torn)) =
        some [(true, false)] := by decide
  obtain ⟨⟨s, h⟩, hrun, hev⟩ := Option.map_eq_some_iff.1 hs
  have hr : (auditedDataLayer (Fin 1) (utf8 (lit "log"))).Reachable (s, h) :=
    Machine.Reachable.run (s := auditStart) (.init ⟨⟨rfl, fun _ => rfl⟩, rfl⟩) hrun
  obtain ⟨e, rest, hwrites, he, -⟩ := List.map_eq_cons_iff.1 hev
  obtain ⟨hsucc, htorn⟩ := Prod.mk.inj he
  have hmem : .write e ∈ h.events := mem_writesOf.1 (by rw [hwrites]; exact List.mem_cons_self)
  exact ⟨s, h, e, hrun, hmem, hsucc, ((all_or_nothing_iff hr).1 e hmem).2 htorn⟩

end DistRes
