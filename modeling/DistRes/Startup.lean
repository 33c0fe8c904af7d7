import DistRes.Lib.UniqueTable
import DistRes.Restarts
import DistRes.Server

/-!
# The start of the data layer (`DataLayer.__init__`)

Any number of server processes over one disk.  Each creates the table of the credentials, seeds it in
one transaction and sees to the shared file, and may die at any point; the data layer is started before
the port is bound, so that the starts may overlap.

`starts_keep_disk` — whoever has seeded the table, and however often: credentials are accepted if they
were in the table before, or are pre-assigned and neither the id nor the name was taken before; and a file
that is there is only appended to.
-/

namespace DistRes

open Lib

/-! ## The disk -/

/-- The rows of the credentials, of which the id and the name are unique. -/
abbrev UserTable := UniqueTable Text Text

structure Disk where
  users : Option UserTable := none
  file : Option Bytes := none

/-- The two lines that `_init_file` writes. -/
def fileHeader : Bytes := initFile none

/-- Where a process is in `__init__`. -/
inductive StartPc
  /-- `_init_database` -/
  | create
  | seed
  /-- `_init_file` -/
  | check
  | openFile
  | writeHeader
  /-- the server is running -/
  | serving
  | ended

/-- What a process does. -/
inductive StartAct
  | go
  /-- a handler of the running server appends to the file -/
  | append (bytes : Bytes)
  /-- the process ends, or dies -/
  | stop

/-- A step of a process.  `executemany` and `commit` are one transaction; `open` with `"w"` truncates,
and what is written goes to the start of the file. -/
def startStep (d : Disk) : StartPc → StartAct → Option (Disk × StartPc)
  | .ended, _ => none
  | _, .stop => some (d, .ended)
  | .create, .go => some ({ d with users := some (d.users.getD .empty) }, .seed)
  | .seed, .go => some ({ d with users := d.users.map (·.insertAll preAssignedUsers) }, .check)
  | .check, .go => some (d, if d.file.isSome then .serving else .openFile)
  | .openFile, .go => some ({ d with file := some [] }, .writeHeader)
  | .writeHeader, .go =>
    some ({ d with file := d.file.map fun f => fileHeader ++ f.drop fileHeader.length }, .serving)
  | .serving, .append bytes => some ({ d with file := d.file.map (· ++ bytes) }, .serving)
  | _, _ => none

/-- The processes `P` over a disk. -/
def startPool (P : Type) (disk : Disk) : Pool P Disk StartPc StartAct where
  init d := d = disk
  start := .create
  step _ d pc a := startStep d pc a

abbrev startMachine (P : Type) [DecidableEq P] (disk : Disk) := (startPool P disk).machine

/-! ## The credentials -/

/-- A process that has seeded the table, and has not ended. -/
def StartPc.seeded : StartPc → Bool
  | .check | .openFile | .writeHeader | .serving => true
  | .create | .seed | .ended => false

/-- The table before the first start. -/
def Disk.prior (d : Disk) : UserTable := d.users.getD .empty

theorem preAssignedUsers_distinct : preAssignedUsers.Pairwise fun r s => r.1 ≠ s.1 ∧ r.2 ≠ s.2 := by decide

section Runs

variable {P : Type} [DecidableEq P] {disk : Disk}

/-- **The invariant of the table.**  It is as it was, or has been seeded, which nothing changes again. -/
structure SeedInv (disk d : Disk) (th : P → StartPc) : Prop where
  users : d.prior = disk.prior ∨ d.users = some (disk.prior.insertAll preAssignedUsers)
  seeding : ∀ p, th p = .seed → d.users ≠ none
  seeded : ∀ p, (th p).seeded = true → d.users = some (disk.prior.insertAll preAssignedUsers)

variable {d d' : Disk} {th : P → StartPc} {p : P} {pc' : StartPc}

/-- A step that leaves the table alone. -/
theorem SeedInv.keep (hi : SeedInv disk d th) (hu : d'.users = d.users) (hpc : pc' ≠ .seed)
    (hseeded : pc'.seeded = true → (th p).seeded = true) : SeedInv disk d' (Function.update th p pc') := by
  refine ⟨?_, fun q hq => ?_, fun q hq => ?_⟩
  · rw [Disk.prior, hu]
    exact hi.users
  · rw [hu]
    by_cases hqp : q = p
    · rw [hqp, Function.update_self] at hq
      exact absurd hq hpc
    · rw [Function.update_of_ne hqp] at hq
      exact hi.seeding q hq
  · rw [hu]
    by_cases hqp : q = p
    · rw [hqp, Function.update_self] at hq
      exact hi.seeded p (hseeded hq)
    · rw [Function.update_of_ne hqp] at hq
      exact hi.seeded q hq

/-- `CREATE TABLE IF NOT EXISTS`. -/
theorem SeedInv.create (hi : SeedInv disk d th) :
    SeedInv disk { d with users := some (d.users.getD .empty) } (Function.update th p .seed) := by
  have hkeeps : ∀ t, d.users = some t → some (d.users.getD .empty) = some t := by
    rintro t ht
    rw [ht]
    rfl
  refine ⟨hi.users.imp id (hkeeps _), fun q hq => nofun, fun q hq => ?_⟩
  by_cases hqp : q = p
  · rw [hqp, Function.update_self] at hq
    cases hq
  · rw [Function.update_of_ne hqp] at hq
    exact hkeeps _ (hi.seeded q hq)

/-- The transaction of the seeds, on a table that is as it was or has been seeded already. -/
theorem SeedInv.seed (hi : SeedInv disk d th) (hp : th p = .seed) :
    SeedInv disk { d with users := d.users.map (·.insertAll preAssignedUsers) }
      (Function.update th p .check) := by
  have hseeded : d.users.map (·.insertAll preAssignedUsers) =
      some (disk.prior.insertAll preAssignedUsers) := by
    obtain ⟨t, ht⟩ := Option.ne_none_iff_exists'.1 (hi.seeding p hp)
    rw [ht, Option.map_some]
    rcases hi.users with hprior | hafter
    · rw [← hprior, Disk.prior, ht]
      rfl
    · rw [ht] at hafter
      rw [Option.some.inj hafter, UniqueTable.insertAll_again]
  refine ⟨.inr hseeded, fun q hq => ?_, fun q hq => hseeded⟩
  simp only [hseeded]
  nofun

theorem seedInv_of_reachable {s : Pool.State P Disk StartPc} (hr : (startMachine P disk).Reachable s) :
    SeedInv disk s.shared s.thread := by
  refine hr.invariant (fun s => SeedInv disk s.shared s.thread) ?_ ?_
  · rintro s ⟨hs, hth⟩
    have hstart : ∀ p, s.thread p = .create := hth
    refine ⟨.inl (congrArg Disk.prior hs), fun p hp => ?_, fun p hp => ?_⟩
    · rw [hstart] at hp
      cases hp
    · rw [hstart] at hp
      cases hp
  · rintro s ⟨p, a⟩ s' - hi hs
    obtain ⟨d, pc', hstep, rfl⟩ := Pool.machine_step.1 hs
    replace hstep : startStep s.shared (s.thread p) a = some (d, pc') := hstep
    unfold startStep at hstep
    split at hstep
    all_goals rename_i hpc
    case h_1 | h_9 => cases hstep
    case h_2 =>
      cases hstep
      exact hi.keep rfl nofun nofun
    case h_3 =>
      cases hstep
      exact hi.create
    case h_4 =>
      cases hstep
      exact hi.seed hpc
    case h_5 =>
      cases hstep
      exact hi.keep rfl (by split <;> nofun) fun _ => by rw [hpc]; rfl
    case h_6 | h_7 =>
      cases hstep
      exact hi.keep rfl nofun fun _ => by rw [hpc]; rfl
    case h_8 bytes =>
      cases hstep
      exact hi.keep rfl nofun fun _ => by rw [hpc]; rfl

/-! ## The file -/

/-- Between the check and the end of `_init_file`, where the file was not there. -/
def StartPc.creating : StartPc → Bool
  | .openFile | .writeHeader => true
  | _ => false

/-- A file that was there before the first start is only appended to. -/
structure FileKept (f : Bytes) (d : Disk) (th : P → StartPc) : Prop where
  file : ∃ g, d.file = some (f ++ g)
  creating : ∀ p, (th p).creating = false

theorem fileKept_of_reachable {s : Pool.State P Disk StartPc} (hr : (startMachine P disk).Reachable s)
    {f : Bytes} (hf : disk.file = some f) : FileKept f s.shared s.thread := by
  refine hr.invariant (fun s => FileKept f s.shared s.thread) ?_ ?_
  · rintro s ⟨hs, hth⟩
    have hs : s.shared = disk := hs
    refine ⟨⟨[], by rw [hs, hf, List.append_nil]⟩, fun p => ?_⟩
    rw [show s.thread p = .create from hth p]
    rfl
  · rintro s ⟨p, a⟩ s' - hi hs
    obtain ⟨d, pc', hstep, rfl⟩ := Pool.machine_step.1 hs
    replace hstep : startStep s.shared (s.thread p) a = some (d, pc') := hstep
    obtain ⟨g, hg⟩ := hi.file
    have hpc := hi.creating p
    have hmoves : ∀ {pc'}, pc'.creating = false →
        ∀ q, (Function.update s.thread p pc' q).creating = false := by
      intro pc' h q
      by_cases hq : q = p
      · rwa [hq, Function.update_self]
      · rw [Function.update_of_ne hq]
        exact hi.creating q
    unfold startStep at hstep
    split at hstep
    case h_1 | h_9 => cases hstep
    case h_5 =>
      cases hstep
      exact ⟨⟨g, hg⟩, hmoves (by rw [hg]; rfl)⟩
    case h_6 h | h_7 h =>
      rw [h] at hpc
      cases hpc
    case h_8 bytes _ =>
      cases hstep
      exact ⟨⟨g ++ bytes, by rw [hg, Option.map_some, List.append_assoc]⟩, hmoves rfl⟩
    all_goals
      cases hstep
      exact ⟨⟨g, hg⟩, hmoves rfl⟩

/-- **What a start makes of the disk.**  However many processes start, in any interleaving, and wherever
they die: as soon as one of them has seeded the table, exactly those credentials are accepted whose texts
were in the table before the first start, or are pre-assigned with neither the id nor the name taken
before; and a file that was there is only appended to.  The text of a number is its numeral. -/
theorem starts_keep_disk {s : Pool.State P Disk StartPc} (hr : (startMachine P disk).Reachable s) :
    (∀ p, (s.thread p).seeded = true → ∃ users, s.shared.users = some users ∧
      ∀ (realText : Text → Option Text) (x y : Json), queryUsers realText users.rows x y = some true ↔
        (bindable x = true ∧ bindable y = true) ∧
          ∃ u n, boundText realText x = some u ∧ boundText realText y = some n ∧
            ((u, n) ∈ disk.prior.rows ∨
              (u, n) ∈ preAssignedUsers ∧ ∀ r ∈ disk.prior.rows, r.1 ≠ u ∧ r.2 ≠ n)) ∧
    ∀ f, disk.file = some f → ∃ g, s.shared.file = some (f ++ g) := by
  refine ⟨fun p hp => ⟨_, (seedInv_of_reachable hr).seeded p hp, fun realText x y => ?_⟩,
    fun f hf => (fileKept_of_reachable hr hf).file⟩
  have hrow : ∀ u n, (u, n) ∈ (disk.prior.insertAll preAssignedUsers).rows ↔
      (u, n) ∈ disk.prior.rows ∨ (u, n) ∈ preAssignedUsers ∧ ∀ r ∈ disk.prior.rows, r.1 ≠ u ∧ r.2 ≠ n := by
    intro u n
    rw [UniqueTable.mem_insertAll preAssignedUsers_distinct, UniqueTable.accepts_iff]
  rw [queryUsers_eq_some]
  simp only [hrow]

end Runs

/-! ### A run -/

/-- A disk whose table has another user of the name of `ENG001`, and one who is called by a number. -/
def takenDisk : Disk :=
  { users := some ((UniqueTable.empty.insertOrIgnore (lit "ADM", lit "Alice")).insertOrIgnore
      (lit "7", lit "Zoe"))
    file := some (utf8 (lit "x")) }

/-- One process dies before it seeds the table; another one starts and serves a write. -/
def overlappingStarts : List (Fin 2 × StartAct) :=
  [(0, .go), (1, .go), (0, .stop), (1, .go), (1, .go), (1, .append (utf8 (lit "y")))]

theorem overlappingStarts_seeded :
    ∃ s, (startMachine (Fin 2) takenDisk).run ⟨takenDisk, fun _ => .create⟩ overlappingStarts = some s ∧
      (∃ users, s.shared.users = some users ∧
        queryUsers shortReal users.rows (.str (lit "ENG002")) (.str (lit "Bob")) = some true ∧
        queryUsers shortReal users.rows (.int 7) (.str (lit "Zoe")) = some true ∧
        queryUsers shortReal users.rows (.str (lit "ENG001")) (.str (lit "Alice")) ≠ some true) ∧
      ∃ g, s.shared.file = some (utf8 (lit "x") ++ g) := by
  have hs : ((startMachine (Fin 2) takenDisk).run ⟨takenDisk, fun _ => .create⟩ overlappingStarts).map
      (fun s => (s.thread 1).seeded) = some true := by decide
  obtain ⟨s, hrun, hseeded⟩ := Option.map_eq_some_iff.1 hs
  have hr : (startMachine (Fin 2) takenDisk).Reachable s :=
    Machine.Reachable.run (s := (⟨takenDisk, fun _ => .create⟩ : Pool.State (Fin 2) Disk StartPc))
      (.init ⟨rfl, fun _ => rfl⟩) hrun
  obtain ⟨hseed, hfile⟩ := starts_keep_disk hr
  obtain ⟨users, husers, hauth⟩ := hseed 1 hseeded
  refine ⟨s, hrun, ⟨users, husers, ?_, ?_, fun h => ?_⟩, hfile _ rfl⟩
  · exact (hauth shortReal _ _).2 ⟨by decide, _, _, rfl, rfl, .inr (by decide)⟩
  · exact (hauth shortReal _ _).2 ⟨by decide, _, _, rfl, rfl, .inl (by decide)⟩
  · obtain ⟨-, u, n, hu, hn, hrow⟩ := (hauth shortReal _ _).1 h
    cases hu
    cases hn
    exact absurd hrow (by decide)

end DistRes
