import Mathlib.Data.Fintype.EquivFin
import DistRes.Lib.WaitGraph
import DistRes.Service

/-!
# The locks of the server

The handlers of `Server`, with taking and giving up each lock as steps of their own: between the two a
handler is inside the section, where it may stay as long as it likes (in `sendall`, as long as its
client does not read).

* `HandlerPc.mutex`, `HandlerPc.logs` — the sections that a handler goes through, step by step;
* `LockedHandler`, `sectionStep` — a handler on its way through them;
* `server_of_locked` — without the locks, this is the server;
* `Holds`, `Blocks` — who has a lock, and who stands in the way of whom; `exclusive_alone`;
* `locks_cannot_deadlock` — the wait-for graph has no cycle, and who sends holds no other lock;
* `locks_lead_on` — from every handler the graph leads to one that waits for nobody.
-/

namespace DistRes

open Lib

/-! ## Locks and sections -/

/-- A lock with sections: the data layer's `_version_lock`, the server's `_status_lock`, the broker's
`_lock`, and the `_send_lock` of a handler. -/
inductive Mutex (H : Type)
  | version
  | status
  | broker
  | send (k : H)
  deriving DecidableEq

/-- What a handler can wait for: the readers-writer lock, to read or to write, or a section. -/
inductive Lock (H : Type)
  | shared
  | exclusive
  | mutex (m : Mutex H)
  deriving DecidableEq

section Sections

variable {H : Type}

/-- The section in which the next step is taken. -/
def HandlerPc.mutex (h : H) : HandlerPc H → Option (Mutex H)
  | .respond _ _ => some (.send h)
  | .login _ (.isActive _ _) | .login _ (.register _ _) => some .status
  | .login _ (.subscribe _) => some .broker
  | .login _ (.version _) => some .version
  | .read _ _ .refused | .read _ _ (.stamp _) => some .version
  | .read _ _ .callback | .readDone _ _ _ => some .status
  | .write _ _ _ .refused | .write _ _ _ (.bump _) => some .version
  | .write _ _ _ .callback | .writeDone _ _ _ _ => some .status
  | .publish (.snapshot _ _) | .publish (.drop _ _ _ _) => some .broker
  | .publish (.deliver _ ((_, k) :: _) _) => some (.send k)
  | .release (.unsubscribe _) _ => some .broker
  | .release (.unregister _) _ => some .status
  | _ => none

/-- The sections of the status lock that come between a step and the next: the lines of the log, and
`active_count` in one of them. -/
def HandlerPc.logs : HandlerPc H → HandlerPc H → ℕ
  -- CONNECT
  | .connecting, _ => 1
  -- `release` has raised, out of `_cleanup`
  | .release .free _, .ended => 0
  -- DISCONNECT
  | _, .ended => 1
  -- LOGIN, with the number of the sessions
  | _, .login _ (.version _) => 2
  -- READ and WRITE, in `on_acquired`
  | .read _ _ .callback, _ => 1
  | .write _ _ _ .callback, _ => 1
  -- PUBLISH
  | _, .publish (.done _) => 1
  -- LOGOUT
  | _, .release .clear _ => 1
  | _, _ => 0

/-- What a handler waits for before its next step. -/
def HandlerPc.wants (h : H) : HandlerPc H → Option (Lock H)
  | .read _ _ (.acquire _) => some .shared
  | .write _ _ _ (.acquire _) => some .exclusive
  | pc => (pc.mutex h).map .mutex

/-- The role of a handler towards the readers-writer lock. -/
def HandlerPc.role : HandlerPc H → Role
  | .read _ _ pc => pc.role
  | .write _ _ _ pc => pc.role
  | _ => .out

end Sections

/-! ## The handlers with their locks -/

/-- The server, and the handler that is inside the section of each lock. -/
structure LockedServer (H : Type) where
  server : DistResServer H
  owner : Mutex H → Option H := fun _ => none

/-- A handler, the sections of the status lock that come before its next step, and the section that it
is in. -/
structure LockedHandler (H : Type) where
  handler : ClientHandler H := {}
  todo : ℕ := 0
  inside : Option (Mutex H) := none

/-- What a handler does with its locks. -/
inductive SectionAct
  /-- takes the lock that it waits for -/
  | acquire
  /-- leaves a section that comes before its next step -/
  | leave
  /-- takes its next step, and leaves the section of that -/
  | step (a : HandlerAct)

section Locked

variable {H : Type} [DecidableEq H] {cfg : Config}

/-- The lock that the handler waits for. -/
def LockedHandler.waits (h : H) (l : LockedHandler H) : Option (Lock H) :=
  match l.inside, l.todo with
  | some _, _ => none
  | none, _ + 1 => some (.mutex .status)
  | none, 0 => l.handler.pc.wants h

/-- The lock of a section that is left, if there is one, has no owner. -/
def LockedServer.free (s : LockedServer H) : Option (Mutex H) → LockedServer H
  | some m => { s with owner := Function.update s.owner m none }
  | none => s

/-- A step of a handler with its locks.  The readers-writer lock is taken and released in steps of the
data layer. -/
def sectionStep (cfg : Config) (h : H) (s : LockedServer H) (l : LockedHandler H) :
    SectionAct → Option (LockedServer H × LockedHandler H)
  | .acquire =>
    match l.waits h with
    | some (.mutex m) =>
      if s.owner m = none then
        some ({ s with owner := Function.update s.owner m (some h) }, { l with inside := some m })
      else none
    | _ => none
  | .leave =>
    match l.inside, l.todo with
    | some m, n + 1 => some (s.free (some m), { l with todo := n, inside := none })
    | _, _ => none
  | .step a =>
    if l.todo = 0 ∧ l.inside = l.handler.pc.mutex h then
      (handlerStep cfg h s.server l.handler a).map fun r =>
        ({ s.free l.inside with server := r.1 }, ⟨r.2, l.handler.pc.logs r.2.pc, none⟩)
    else none

/-- The handlers `H` with their locks, over a server whose shared file starts with the given bytes. -/
def lockingPool (cfg : Config) (H : Type) [DecidableEq H] (file : Bytes) :
    Pool H (LockedServer H) (LockedHandler H) SectionAct where
  init s := s = { server := { data := { file := file }, sessions := cfg.maxSessions } }
  start := {}
  step := sectionStep cfg

abbrev lockingServer (cfg : Config) (H : Type) [DecidableEq H] (file : Bytes) :=
  (lockingPool cfg H file).machine

/-! ### Who waits for whom -/

/-- The handler has the lock: as a reader or as the writer from `acquire_read` or `acquire_write` to
the release, or inside the section. -/
def Holds (p : Pool.State H (LockedServer H) (LockedHandler H)) (h : H) : Lock H → Prop
  | .shared => (p.thread h).handler.pc.role = .reader
  | .exclusive => (p.thread h).handler.pc.role = .writer
  | .mutex m => p.shared.owner m = some h

/-- The handler stands in the way of those that wait for the lock.  Who reads or writes stands in the
way of readers and writers, and so does a waiting writer of readers. -/
def Blocks (p : Pool.State H (LockedServer H) (LockedHandler H)) (h : H) : Lock H → Prop
  | .shared => Holds p h .shared ∨ Holds p h .exclusive ∨ (p.thread h).waits h = some .exclusive
  | .exclusive => Holds p h .shared ∨ Holds p h .exclusive
  | .mutex m => Holds p h (.mutex m)

/-- The wait-for graph of the handlers. -/
def Waits (p : Pool.State H (LockedServer H) (LockedHandler H)) : H → H → Prop :=
  WaitsFor (fun h => (p.thread h).waits h) (Blocks p)

variable {file : Bytes} {p : Pool.State H (LockedServer H) (LockedHandler H)} {h k : H}
  {s s' : LockedServer H} {l l' : LockedHandler H} {a : SectionAct} {m : Mutex H}

/-! ## What a step does -/

/-- Every step takes a lock that is free, or leaves a section, with a step of the handler or without. -/
inductive SectionStep (cfg : Config) (h : H) (s : LockedServer H) (l : LockedHandler H) :
    LockedServer H → LockedHandler H → Prop
  | acquire (m : Mutex H) : l.waits h = some (.mutex m) → s.owner m = none →
      SectionStep cfg h s l { s with owner := Function.update s.owner m (some h) }
        { l with inside := some m }
  | leave (m : Mutex H) (n : ℕ) : l.inside = some m → l.todo = n + 1 →
      SectionStep cfg h s l (s.free (some m)) { l with todo := n, inside := none }
  | step (a : HandlerAct) (d : DistResServer H) (x : ClientHandler H) : l.todo = 0 →
      l.inside = l.handler.pc.mutex h → handlerStep cfg h s.server l.handler a = some (d, x) →
      SectionStep cfg h s l { s.free l.inside with server := d } ⟨x, l.handler.pc.logs x.pc, none⟩

theorem sectionStep_cases (hs : sectionStep cfg h s l a = some (s', l')) :
    SectionStep cfg h s l s' l' := by
  cases a with
  | acquire =>
    simp only [sectionStep] at hs
    split at hs
    · rename_i m hm
      split at hs
      · rename_i hfree
        cases hs
        exact .acquire m hm hfree
      · cases hs
    · cases hs
  | leave =>
    simp only [sectionStep] at hs
    split at hs
    · rename_i m n hm hn
      cases hs
      exact .leave m n hm hn
    · cases hs
  | step a =>
    simp only [sectionStep] at hs
    split at hs
    · rename_i hcond
      obtain ⟨⟨d, x⟩, hstep, he⟩ := Option.map_eq_some_iff.1 hs
      cases he
      exact .step a d x hcond.1 hcond.2 hstep
    · cases hs

@[simp] theorem free_server (s : LockedServer H) (m : Option (Mutex H)) :
    (s.free m).server = s.server := by
  cases m <;> rfl

/-- **Without their locks**, the handlers are those of the server. -/
theorem server_of_locked (hr : (lockingServer cfg H file).Reachable p) :
    (serverMachine cfg H file).Reachable ⟨p.shared.server, fun h => (p.thread h).handler⟩ := by
  refine Machine.Reach.map (fun p : Pool.State H (LockedServer H) (LockedHandler H) =>
    (⟨p.shared.server, fun h => (p.thread h).handler⟩ :
      Pool.State H (DistResServer H) (ClientHandler H))) ?_ ?_ hr
  · rintro p ⟨hp, hth⟩
    have hp : p.shared = { server := { data := { file := file }, sessions := cfg.maxSessions } } := hp
    refine ⟨by rw [hp]; rfl, fun h => ?_⟩
    show (p.thread h).handler = {}
    rw [hth h]
    rfl
  · rintro p ⟨h, a⟩ p' - - hs
    obtain ⟨s, l, hstep, rfl⟩ := Pool.machine_step.1 hs
    have hupd : (fun k => (Function.update p.thread h l k).handler) =
        Function.update (fun k => (p.thread k).handler) h l.handler :=
      Function.comp_update LockedHandler.handler p.thread h l
    simp only [hupd]
    cases sectionStep_cases hstep with
    | acquire m | leave m n =>
      left
      simp only [free_server, Function.update_eq_self]
    | step a d x _ _ hhandler =>
      exact .inr ⟨(h, a), trivial, Pool.machine_step.2 ⟨_, _, hhandler, rfl⟩⟩

/-! ## Inside a section -/

/-- A lock has an owner exactly while a handler is in its section, and a section that a handler is in
is the one of its next step, or one of the status lock before that. -/
structure SectionInv (s : LockedServer H) (th : H → LockedHandler H) : Prop where
  owner : ∀ h m, s.owner m = some h ↔ (th h).inside = some m
  inside : ∀ h m, (th h).inside = some m →
    m = .status ∨ (th h).todo = 0 ∧ (th h).handler.pc.mutex h = some m

omit [DecidableEq H] in
/-- A handler that waits is not inside a section. -/
theorem inside_of_waits {x : Lock H} (hw : l.waits h = some x) : l.inside = none := by
  unfold LockedHandler.waits at hw
  split at hw
  · cases hw
  all_goals assumption

omit [DecidableEq H] in
/-- The section that a handler waits for. -/
theorem mutex_of_waits (hw : l.waits h = some (.mutex m)) :
    m = .status ∨ l.todo = 0 ∧ l.handler.pc.mutex h = some m := by
  unfold LockedHandler.waits at hw
  split at hw
  · cases hw
  · cases hw
    exact .inl rfl
  · rename_i htodo
    refine .inr ⟨htodo, ?_⟩
    unfold HandlerPc.wants at hw
    split at hw
    · cases hw
    · cases hw
    · obtain ⟨m', hm, heq⟩ := Option.map_eq_some_iff.1 hw
      cases heq
      exact hm

variable {th : H → LockedHandler H}

/-- The handler leaves the section that it is in, if it is in one. -/
theorem SectionInv.leaves (hi : SectionInv s th) (hserver : s'.owner = (s.free (th h).inside).owner)
    (hout : l'.inside = none) : SectionInv s' (Function.update th h l') := by
  have hfree : ∀ k m, s'.owner m = some k ↔ k ≠ h ∧ (th k).inside = some m := by
    intro k m
    rw [hserver]
    cases hin : (th h).inside with
    | none =>
      refine (hi.owner k m).trans ⟨fun hk => ⟨?_, hk⟩, And.right⟩
      rintro rfl
      cases hin.symm.trans hk
    | some m' =>
      have hown := (hi.owner h m').2 hin
      by_cases hm : m = m'
      · subst hm
        simp only [LockedServer.free, Function.update_self]
        refine ⟨nofun, fun ⟨hk, hkm⟩ => absurd ?_ hk⟩
        exact Option.some.inj (((hi.owner k m).2 hkm).symm.trans hown)
      · simp only [LockedServer.free, Function.update_of_ne hm]
        refine (hi.owner k m).trans ⟨fun hk => ⟨?_, hk⟩, And.right⟩
        rintro rfl
        exact hm (Option.some.inj (hk.symm.trans hin))
  constructor
  · intro k m
    rw [hfree]
    by_cases hk : k = h
    · subst hk
      rw [Function.update_self, hout]
      exact iff_of_false (fun h => h.1 rfl) nofun
    · rw [Function.update_of_ne hk]
      exact and_iff_right hk
  · intro k m hkm
    by_cases hk : k = h
    · subst hk
      rw [Function.update_self, hout] at hkm
      cases hkm
    · rw [Function.update_of_ne hk] at hkm ⊢
      exact hi.inside k m hkm

/-- The handler takes a lock that is free. -/
theorem SectionInv.acquires (hi : SectionInv s th) (hw : (th h).waits h = some (.mutex m))
    (hfree : s.owner m = none) :
    SectionInv { s with owner := Function.update s.owner m (some h) }
      (Function.update th h { th h with inside := some m }) := by
  constructor
  · intro k m'
    by_cases hm : m' = m
    · subst hm
      by_cases hk : k = h
      · subst hk
        simp only [Function.update_self]
      · simp only [Function.update_self, Function.update_of_ne hk]
        refine iff_of_false (fun heq => hk (Option.some.inj heq).symm) fun hkm => ?_
        cases hfree.symm.trans ((hi.owner k m').2 hkm)
    · simp only [Function.update_of_ne hm]
      by_cases hk : k = h
      · subst hk
        rw [hi.owner, inside_of_waits hw, Function.update_self]
        exact iff_of_false nofun fun heq => hm (Option.some.inj heq).symm
      · rw [Function.update_of_ne hk]
        exact hi.owner k m'
  · intro k m' hkm
    by_cases hk : k = h
    · subst hk
      rw [Function.update_self] at hkm ⊢
      cases hkm
      have hsection := mutex_of_waits hw
      exact hsection
    · rw [Function.update_of_ne hk] at hkm ⊢
      exact hi.inside k m' hkm

theorem SectionInv.step (hi : SectionInv s th) (hs : SectionStep cfg h s (th h) s' l') :
    SectionInv s' (Function.update th h l') := by
  cases hs with
  | acquire m hw hfree => exact hi.acquires hw hfree
  | leave m n hin htodo =>
    refine hi.leaves ?_ rfl
    rw [hin]
  | step a d x htodo hin hhandler => exact hi.leaves rfl rfl

theorem sectionInv_of_reachable (hr : (lockingServer cfg H file).Reachable p) :
    SectionInv p.shared p.thread := by
  refine hr.invariant (fun p => SectionInv p.shared p.thread) ?_ ?_
  · rintro p ⟨hp, hth⟩
    have hp : p.shared = { server := { data := { file := file }, sessions := cfg.maxSessions } } := hp
    rw [hp]
    constructor
    · intro h m
      rw [hth h]
      exact iff_of_false nofun nofun
    · intro h m hin
      rw [hth h] at hin
      cases hin
  · rintro p ⟨h, a⟩ p' - hi hs
    obtain ⟨s, l, hstep, rfl⟩ := Pool.machine_step.1 hs
    exact hi.step (sectionStep_cases hstep)

omit [DecidableEq H] in
theorem role_dataCall (pc : HandlerPc H) : (pc.dataCall cfg).role = pc.role := by
  cases pc <;> rfl

/-- **Who writes is alone** with the readers-writer lock. -/
theorem exclusive_alone [Fintype H] (hr : (lockingServer cfg H file).Reachable p)
    (hh : Holds p h .exclusive) : (Holds p k .exclusive → h = k) ∧ ¬ Holds p k .shared := by
  have hl := lockInv_of_reachable (server_uses_data (server_of_locked hr))
  have hrole : ∀ k, ((p.thread k).handler.pc.dataCall cfg).role = (p.thread k).handler.pc.role :=
    fun k => role_dataCall _
  obtain ⟨hw, hread⟩ := hl.writer_alone (t := h) (u := k) ((hrole h).trans hh)
  exact ⟨fun hk => hw ((hrole k).trans hk), fun hk => hread ((hrole k).trans hk)⟩

/-! ## The order of the locks -/

/-- The readers-writer lock comes first, to read before to write, and the sections last. -/
def Lock.rank : Lock H → Fin 3
  | .shared => 0
  | .exclusive => 1
  | .mutex _ => 2

section

omit [DecidableEq H]

/-- With the readers-writer lock, a handler waits for a section only. -/
theorem mutex_of_role {x : Lock H} (hrole : l.handler.pc.role = .reader ∨ l.handler.pc.role = .writer)
    (hw : l.waits h = some x) : ∃ m, x = .mutex m := by
  unfold LockedHandler.waits at hw
  split at hw
  · cases hw
  · cases hw
    exact ⟨_, rfl⟩
  · unfold HandlerPc.wants at hw
    split at hw
    · rename_i hpc
      rw [hpc] at hrole
      rcases hrole with h | h <;> cases h
    · rename_i acq hpc
      rw [hpc] at hrole
      cases acq <;> rcases hrole with h | h <;> cases h
    · obtain ⟨m, -, rfl⟩ := Option.map_eq_some_iff.1 hw
      exact ⟨m, rfl⟩

/-- **The locks are taken in order.** -/
theorem taken_in_order (hi : SectionInv p.shared p.thread) :
    TakenInOrder Lock.rank (fun h => (p.thread h).waits h) (Blocks p) := by
  intro k x y hblocks hwaits
  have held : (p.thread k).handler.pc.role = .reader ∨ (p.thread k).handler.pc.role = .writer →
      ∃ m, y = .mutex m := fun hrole => mutex_of_role hrole hwaits
  cases x with
  | shared =>
    rcases hblocks with h | h | h
    · obtain ⟨m, rfl⟩ := held (.inl h)
      exact (by decide : (0 : Fin 3) < 2)
    · obtain ⟨m, rfl⟩ := held (.inr h)
      exact (by decide : (0 : Fin 3) < 2)
    · cases h.symm.trans hwaits
      exact (by decide : (0 : Fin 3) < 1)
  | exclusive =>
    obtain ⟨m, rfl⟩ := held hblocks
    exact (by decide : (1 : Fin 3) < 2)
  | mutex m =>
    -- inside a section nothing is waited for
    have hin := (hi.owner k m).1 hblocks
    rw [inside_of_waits hwaits] at hin
    cases hin

/-- A handler that sends is not in a call of the data layer. -/
theorem role_of_send {pc : HandlerPc H} (hpc : pc.mutex h = some (.send k)) : pc.role = .out := by
  unfold HandlerPc.mutex at hpc
  split at hpc
  all_goals first | rfl | cases hpc

end

/-- **No deadlock, and no stalled client in the way.**  The wait-for graph has no cycle; and a handler
that waits for a send lock or is inside `sendall` has no lock but a send lock. -/
theorem locks_cannot_deadlock (hr : (lockingServer cfg H file).Reachable p) :
    (∀ h, ¬ Relation.TransGen (Waits p) h h) ∧
      ∀ h k, (p.thread h).waits h = some (.mutex (.send k)) ∨ (p.thread h).inside = some (.send k) →
        ∀ x, Holds p h x → ∃ k, x = .mutex (.send k) := by
  have hi := sectionInv_of_reachable hr
  refine ⟨(taken_in_order hi).acyclic, fun h k hsend x hx => ?_⟩
  have hpc : (p.thread h).handler.pc.mutex h = some (.send k) := by
    rcases hsend with hw | hin
    · rcases mutex_of_waits hw with heq | ⟨-, hpc⟩
      · cases heq
      · exact hpc
    · rcases hi.inside h _ hin with heq | ⟨-, hpc⟩
      · cases heq
      · exact hpc
  have hrole := role_of_send hpc
  cases x with
  | shared => cases hrole.symm.trans hx
  | exclusive => cases hrole.symm.trans hx
  | mutex m =>
    have hin := (hi.owner h m).1 hx
    rcases hsend with hw | hin'
    · rw [inside_of_waits hw] at hin
      cases hin
    · cases hin.symm.trans hin'
      exact ⟨k, rfl⟩

/-- **Who waits is led on**, from one handler to the next, to one that waits for nobody. -/
theorem locks_lead_on (hr : (lockingServer cfg H file).Reachable p) (h : H) :
    ∃ k, Relation.ReflTransGen (Waits p) h k ∧ ∀ j, ¬ Waits p k j :=
  (taken_in_order (sectionInv_of_reachable hr)).leads_on h

end Locked

/-! ## Runs -/

section Runs

variable {H : Type}

/-- The start of a run of the shipped server. -/
def lockingStart : Pool.State H (LockedServer H) (LockedHandler H) :=
  ⟨{ server := (serverStart shippedConfig).shared }, fun _ => {}⟩

/-- `h` takes a step in a section. -/
def inSection (h : H) (a : HandlerAct) : List (H × SectionAct) := [(h, .acquire), (h, .step a)]

/-- `h` writes to the log. -/
def logLine (h : H) : List (H × SectionAct) := [(h, .acquire), (h, .leave)]

/-- `h` starts, receives a LOGIN that is accepted, and replies. -/
def lockedLogin (h : H) (userId username : Text) : List (H × SectionAct) :=
  (h, .step .accept) :: logLine h ++
    [(h, .step (.receive (requestMessage 1 actionLogin (loginParams userId username)))),
      (h, .step .go)] ++ inSection h .go ++ [(h, .step .go), (h, .step .go)] ++
    inSection h .go ++ inSection h .go ++ logLine h ++ logLine h ++ inSection h .go ++ inSection h .go

/-- `v` waits to read, `w` writes and waits to log, `t` logs, and `u` sends to a client that does not
read. -/
def crowdedRun (v w t u : H) : List (H × SectionAct) :=
  lockedLogin w (lit "ENG001") (lit "Alice") ++ lockedLogin v (lit "ENG002") (lit "Bob") ++
    (u, .step .accept) :: logLine u ++
    [(u, .step (.receive (requestMessage 1 actionPing []))), (u, .acquire),
      (w, .step (.receive (requestMessage 2 actionWrite (writeParams (lit "x"))))),
      (w, .step (.data (.lock false))),
      (v, .step (.receive (requestMessage 2 actionRead []))), (v, .step (.data (.lock false))),
      (t, .step .accept), (t, .acquire)]

/-- Two edges of the graph in a row, and a handler in `sendall` that nobody waits for. -/
theorem crowdedRun_waits :
    ∃ p, (lockingServer shippedConfig (Fin 4) []).run lockingStart (crowdedRun 0 1 2 3) = some p ∧
      Waits p 0 1 ∧ Waits p 1 2 ∧ (p.thread 3).inside = some (.send 3) ∧
      (∀ h, ¬ Relation.TransGen (Waits p) h h) ∧
      ∀ h k, (p.thread h).waits h = some (.mutex (.send k)) ∨ (p.thread h).inside = some (.send k) →
        ∀ x, Holds p h x → ∃ k, x = .mutex (.send k) := by
  have hs : ∃ p, (lockingServer shippedConfig (Fin 4) []).run lockingStart (crowdedRun 0 1 2 3) = some p ∧
      Waits p 0 1 ∧ Waits p 1 2 ∧ (p.thread 3).inside = some (.send 3) :=
    ⟨_, rfl, ⟨.shared, rfl, .inr (.inl rfl)⟩, ⟨.mutex .status, rfl, rfl⟩, rfl⟩
  obtain ⟨p, hrun, h1, h2, h3⟩ := hs
  have hr : (lockingServer shippedConfig (Fin 4) []).Reachable p :=
    Machine.Reachable.run (s := lockingStart) (.init ⟨rfl, fun _ => rfl⟩) hrun
  exact ⟨p, hrun, h1, h2, h3, locks_cannot_deadlock hr⟩

end Runs

end DistRes
