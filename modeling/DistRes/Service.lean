import DistRes.Announce

/-!
# What the server makes of a message

Every message that a handler gets has a number on its connection, and everything that the server
does for it carries this number: the record that is appended, the commit, the RESPONSE.

* `ServiceEffect` is everything that a step of a handler does for the message in its hands;
* `ServiceInv` — a message gets at most one record, the file is the records, and a RESPONSE that
  acknowledges a write tells the place of its commit;
* `serviceInv_of_reachable` — it holds of every run.
-/

namespace DistRes

open Lib

/-! ## The message in the hands of a handler -/

def isWrite (m : List (Text × Json)) : Prop :=
  getField m (lit "type") = .str typeRequest ∧ getField m (lit "action") = .str actionWrite

/-- The content that a WRITE is about. -/
def writeContent (m : List (Text × Json)) : Json := (field? m (lit "content")).getD (.str [])

/-- What a handler is doing for the message that it has got. -/
inductive Work
  | none
  | busy (id : Json)
  | writing (id content : Json) (userId : Text) (pc : WritePc)
  | written (id content : Json) (userId : Text) (r : Result)
  | replying (r : Response)

def HandlerPc.work {H : Type} : HandlerPc H → Work
  | .respond r _ => .replying r
  | .login id _ | .read id _ _ | .readDone id _ _ => .busy id
  | .write id content u pc => .writing id content u pc
  | .writeDone id content u r => .written id content u r
  | .connecting | .recv | .publish _ | .release _ _ | .ended => .none

/-- The first work for a message. -/
inductive Begins (m : Json) (userId : Option Text) : Work → Prop
  | none : Begins m userId .none
  | busy {fields : List (Text × Json)} : m = .obj fields → ¬ isWrite fields →
      Begins m userId (.busy (getField fields (lit "id")))
  | rejected {fields : List (Text × Json)} {r : Response} : m = .obj fields →
      r.id = getField fields (lit "id") → (isWrite fields → r.status = statusError) →
      Begins m userId (.replying r)
  | writing {fields : List (Text × Json)} {u : Text} : m = .obj fields → isWrite fields →
      userId = some u → Begins m userId
        (.writing (getField fields (lit "id")) (writeContent fields) u (.acquire .enter))

section Work

variable {H : Type} {cfg : Config} {l : ClientHandler H}

theorem work_of_atRest {pc : HandlerPc H} (h : pc.atRest = true) : pc.work = .none := by
  cases pc <;> first | rfl | cases h

theorem work_cleanup (l : ClientHandler H) : l.cleanup.pc.work = .none :=
  work_of_atRest (atRest_cleanup l)

theorem userId_releaseSession (l : ClientHandler H) (caller : Caller) :
    (l.releaseSession caller).userId = l.userId := by
  unfold ClientHandler.releaseSession
  split <;> rfl

theorem begins_cleanup (m : Json) (l : ClientHandler H) :
    Begins m l.userId l.cleanup.pc.work ∧ l.cleanup.userId = l.userId := by
  rw [work_cleanup]
  exact ⟨.none, userId_releaseSession l .cleanup⟩

theorem dispatch_begins (cfg : Config) (l : ClientHandler H) (m : Json) :
    Begins m l.userId (l.dispatch cfg m).pc.work ∧ (l.dispatch cfg m).userId = l.userId := by
  have hd := dispatch_cases cfg l m
  generalize l.dispatch cfg m = l' at hd
  -- which action it is decides whether it is a WRITE
  have hother : ∀ {fields a}, actionOf fields = .str a → a ≠ actionWrite → ¬ isWrite fields :=
    fun ha hne hw => hne (Json.str.inj (ha.symm.trans hw.2))
  cases hd with
  | notDict | unhashable => exact begins_cleanup _ l
  | ignored => exact ⟨.none, rfl⟩
  | login hreq ha => exact ⟨.busy rfl (hother ha (by decide)), rfl⟩
  | refused | unknown => exact ⟨.rejected rfl rfl fun _ => rfl, rfl⟩
  | read u hreq ha => exact ⟨.busy rfl (hother ha (by decide)), rfl⟩
  | write u hreq ha hu => exact ⟨.writing rfl ⟨hreq, ha⟩ hu, rfl⟩
  | logout hreq ha =>
    exact ⟨.rejected rfl rfl fun hw => absurd hw (hother ha (by decide)), rfl⟩
  | ping hreq ha =>
    exact ⟨.rejected rfl rfl fun hw => absurd hw (hother ha (by decide)), rfl⟩

end Work

/-! ## The steps of a write -/

/-- What a step does to the file and the version, as part of a write. -/
inductive WriteEvent
  | opened (rec : Text)
  | flushed (piece : Bytes)
  | committed (rec : Text)

def WritePc.event (userId text : Text) : WritePc → DataAct → Option WriteEvent
  | .openFile, .openAt stamp =>
    if encodable (record stamp userId text) then some (.opened (record stamp userId text)) else none
  | .append _ rest, .flush n => some (.flushed (rest.take n))
  | .bump rec, .go => some (.committed rec)
  | _, _ => none

/-- A write that has not opened the file yet. -/
def WritePc.early : WritePc → Bool
  | .acquire _ | .refused | .callback | .openFile => true
  | _ => false

/-- How a write that is over has ended. -/
def WritePc.outcome : WritePc → Option Outcome
  | .release o | .done o => some o
  | _ => none

section WriteSteps

variable {T : Type} [DecidableEq T] {t : T} {u x : Text} {d d' : DataLayer T} {pc pc' : WritePc}
  {a : DataAct}

/-- **What a step of a write does.** -/
inductive WriteEffect (u x : Text) (d : DataLayer T) (a : DataAct) (d' : DataLayer T) :
    WritePc → WritePc → Prop
  | early {pc pc' : WritePc} : d'.file = d.file → d'.version = d.version → pc.early = true →
      pc'.early = true → pc.event u x a = none → WriteEffect u x d a d' pc pc'
  | fails {pc pc' : WritePc} (o : Outcome) : d' = d → pc'.outcome = some o → committedIn o = none →
      pc.event u x a = none → WriteEffect u x d a d' pc pc'
  | opened (stamp : Text) : d' = d → WritePc.event u x .openFile a = some (.opened (record stamp u x)) →
      WriteEffect u x d a d' .openFile (.append (record stamp u x) (utf8 (record stamp u x)))
  | flushed {rec : Text} {rest : Bytes} (n : ℕ) : a = .flush n → d'.version = d.version →
      d'.file = d.file ++ rest.take n → rest.drop n ≠ [] →
      WriteEffect u x d a d' (.append rec rest) (.append rec (rest.drop n))
  | closed {rec : Text} {rest : Bytes} (n : ℕ) : a = .flush n → d'.version = d.version →
      d'.file = d.file ++ rest → rest.take n = rest → WriteEffect u x d a d' (.append rec rest) (.bump rec)
  | bumped (rec : Text) : a = .go → d'.file = d.file → d'.version = d.version + 1 →
      WriteEffect u x d a d' (.bump rec) (.release (.ok ⟨true, writeCommitted, d.version + 1⟩))
  | released (o : Outcome) : d'.file = d.file → d'.version = d.version →
      WritePc.event u x (.release o) a = none → WriteEffect u x d a d' (.release o) (.done o)

theorem early_ofAcquire (p : Acquire) : (WritePc.ofAcquire p).early = true := by
  rcases p with _ | _ | _ | _ | _ <;> rfl

theorem writeResource_writes (h : writeResource t u x d pc a = some (d', pc')) :
    WriteEffect u x d a d' pc pc' := by
  cases writeResource_cases h with
  | acquire p q expired l hl => exact .early rfl rfl rfl (early_ofAcquire q) rfl
  | wake | calledBack => exact .early rfl rfl rfl rfl rfl
  | opened stamp henc => exact .opened stamp rfl (if_pos henc)
  | unencodable stamp henc => exact .fails _ rfl rfl rfl (if_neg henc)
  | flushed rec rest n hd => exact .flushed n rfl rfl rfl hd
  | closed rec rest n ht => exact .closed n rfl rfl rfl ht
  | bumped rec => exact .bumped rec rfl rfl rfl
  | released o k => exact .released o rfl rfl rfl
  | refused | callbackRaised | openRaised | appendRaised | closeRaised =>
    exact .fails _ rfl rfl rfl rfl

end WriteSteps

/-! ## The steps of a handler -/

/-- What a step of a handler does for its message. -/
inductive ServiceEvent
  | got (m : Json)
  | write (e : WriteEvent)

section Effect

variable {H : Type} [DecidableEq H] (cfg : Config)

def serviceEvent (l : ClientHandler H) (a : HandlerAct) : Option ServiceEvent :=
  match l.pc, a with
  | .recv, .receive m => some (.got m)
  | .write _ content u pc, .data a => (pc.event u (pyFormat cfg.strRepr content) a).map .write
  | _, _ => none

/-- **What a step of a handler does** for the message in its hands. -/
inductive ServiceEffect (h : H) (s : DistResServer H) (l : ClientHandler H) (a : HandlerAct)
    (s' : DistResServer H) (l' : ClientHandler H) : Prop
  | quiet : s'.data.file = s.data.file → s'.data.version = s.data.version →
      (∀ t r, .response r ∈ s'.sockets t → .response r ∈ s.sockets t) →
      (l'.pc.work = .none ∨ ∃ id, l.pc.work = .busy id ∧ l'.pc.work = .busy id) →
      serviceEvent cfg l a = none → ServiceEffect h s l a s' l'
  | got (m : Json) : s' = s → l.pc.work = .none → Begins m l.userId l'.pc.work →
      l'.userId = l.userId → serviceEvent cfg l a = some (.got m) → ServiceEffect h s l a s' l'
  | answers (r : Response) : s'.data.file = s.data.file → s'.data.version = s.data.version →
      s'.sockets = s.sockets → l.pc.work = .busy r.id → l'.pc.work = .replying r →
      serviceEvent cfg l a = none → ServiceEffect h s l a s' l'
  | writes {id content : Json} {u : Text} {pc pc' : WritePc} (b : DataAct) :
      l.pc.work = .writing id content u pc → l'.pc.work = .writing id content u pc' →
      WriteEffect u (pyFormat cfg.strRepr content) s.data b s'.data pc pc' →
      s'.sockets = s.sockets → l'.userId = l.userId →
      serviceEvent cfg l a = (pc.event u (pyFormat cfg.strRepr content) b).map .write →
      ServiceEffect h s l a s' l'
  | written {id content : Json} {u : Text} {r : Result} : s' = s →
      l.pc.work = .writing id content u (.done (.ok r)) → l'.pc.work = .written id content u r →
      serviceEvent cfg l a = none → ServiceEffect h s l a s' l'
  | reports {id content : Json} {u : Text} {r : Result} (r' : Response) :
      s'.data = s.data → s'.sockets = s.sockets → l.pc.work = .written id content u r →
      l'.pc.work = .replying r' → r'.id = id →
      (r'.status = statusOk → r.ok = true ∧ r'.version = some r.version) →
      serviceEvent cfg l a = none → ServiceEffect h s l a s' l'
  | replies (r : Response) : s'.data = s.data → l.pc.work = .replying r → l'.pc.work = .none →
      s'.sockets = Function.update s.sockets h (s.sockets h ++ [.response r]) →
      serviceEvent cfg l a = none → ServiceEffect h s l a s' l'

variable {cfg} {h : H} {s s' : DistResServer H} {l l' : ClientHandler H} {a : HandlerAct}

/-- A step after which the handler has no message. -/
theorem ServiceEffect.of_none (hd : s'.data = s.data) (hsock : s'.sockets = s.sockets)
    (hw : l'.pc.work = .none) (he : serviceEvent cfg l a = none) : ServiceEffect cfg h s l a s' l' :=
  .quiet (by rw [hd]) (by rw [hd]) (fun t r hm => by rwa [hsock] at hm) (.inl hw) he

theorem handleLogin_serves {id : Json} {pc : LoginPc} (hpc : l.pc = .login id pc)
    (hs : handleLogin cfg h s l id pc = (s', l')) (he : serviceEvent cfg l a = none) :
    ServiceEffect cfg h s l a s' l' := by
  have hw : l.pc.work = .busy id := by rw [hpc]; rfl
  have hbusy : s'.data = s.data → s'.sockets = s.sockets → l'.pc.work = .busy id →
      ServiceEffect cfg h s l a s' l' := fun hd hsock hw' =>
    .quiet (by rw [hd]) (by rw [hd]) (fun t r hm => by rwa [hsock] at hm) (.inr ⟨id, hw, hw'⟩) he
  cases pc with
  | authenticate u n =>
    simp only [handleLogin] at hs
    split at hs <;> cases hs
    · exact hbusy rfl rfl rfl
    · exact .answers _ rfl rfl rfl hw rfl he
    · exact .of_none rfl rfl (work_cleanup l) he
  | isActive u n | acquire u n =>
    simp only [handleLogin] at hs
    split_ifs at hs <;> cases hs
    · exact .answers _ rfl rfl rfl hw rfl he
    · exact hbusy rfl rfl rfl
  | hold | register | subscribe =>
    cases hs
    exact hbusy rfl rfl rfl
  | version u =>
    cases hs
    exact .answers _ rfl rfl rfl hw rfl he

theorem readResource_keeps {T : Type} [DecidableEq T] {t : T} {d d' : DataLayer T} {pc pc' : ReadPc}
    {a : DataAct} (h : readResource t d pc a = some (d', pc')) :
    d'.file = d.file ∧ d'.version = d.version := by
  cases readResource_effect h with
  | silent hf hv => exact ⟨hf, hv⟩
  | loaded | unreadable | seen | refused | raised => exact ⟨rfl, rfl⟩

theorem handleRead_serves {id : Json} {u : Text} {pc : ReadPc} {b : DataAct} (hpc : l.pc = .read id u pc)
    (hs : handleRead h s l id u pc b = some (s', l')) : ServiceEffect cfg h s l (.data b) s' l' := by
  obtain ⟨d, pc', hread, hin, rfl⟩ := handleRead_cases hs
  obtain ⟨hf, hv⟩ := readResource_keeps hread
  have hw : l.pc.work = .busy id := by rw [hpc]; rfl
  have he : serviceEvent cfg l (.data b) = none := by
    unfold serviceEvent
    rw [hpc]
  refine .quiet (hin.data ▸ hf) (hin.data ▸ hv) (fun v r hm => ?_) (.inr ⟨id, hw, rfl⟩) he
  rwa [hin.sockets] at hm

theorem handleWrite_serves {id content : Json} {u : Text} {pc : WritePc} {b : DataAct}
    (hpc : l.pc = .write id content u pc)
    (hs : handleWrite cfg h s l id content u pc b = some (s', l')) :
    ServiceEffect cfg h s l (.data b) s' l' := by
  obtain ⟨d, pc', hwrite, hin, rfl⟩ := handleWrite_cases hs
  have hw : l.pc.work = .writing id content u pc := by rw [hpc]; rfl
  have he : serviceEvent cfg l (.data b) = (pc.event u (pyFormat cfg.strRepr content) b).map .write := by
    unfold serviceEvent
    rw [hpc]
  have heff := writeResource_writes hwrite
  rw [← hin.data] at heff
  exact .writes b hw rfl heff hin.sockets rfl he

theorem publish_serves {pc' : PublishPc H} {broker : PubSubBroker H} (d : Option (H × Event))
    (he : serviceEvent cfg l a = none) :
    ServiceEffect cfg h s l a ({ s with broker }.delivered d) { l with pc := .publish pc' } := by
  rcases d with _ | ⟨t, e⟩
  · exact .of_none rfl rfl rfl he
  · refine .quiet rfl rfl (fun v r hm => ?_) (.inl rfl) he
    by_cases hv : v = t
    · subst hv
      simpa [DistResServer.delivered, DistResServer.send] using hm
    · simpa [DistResServer.delivered, DistResServer.send, hv] using hm

omit [DecidableEq H] in
theorem work_proceed (l : ClientHandler H) (next : Next) : (l.proceed next).pc.work = .none := by
  cases next with
  | loop | publish => rfl
  | release => exact work_of_atRest (atRest_releaseSession l .logout)

theorem handlerStep_serves (hs : handlerStep cfg h s l a = some (s', l')) :
    ServiceEffect cfg h s l a s' l' := by
  cases handlerStep_cases hs with
  | accept hpc => exact .of_none rfl rfl rfl (by simp only [serviceEvent, hpc])
  | receive m hpc =>
    obtain ⟨hb, hu⟩ := dispatch_begins cfg l m
    exact .got m rfl (by rw [hpc]; rfl) hb hu (by simp only [serviceEvent, hpc])
  | hangup hpc => exact .of_none rfl rfl (work_cleanup l) (by simp only [serviceEvent, hpc])
  | respond r next hpc =>
    exact .replies r rfl (by rw [hpc]; rfl) (work_proceed l next) rfl (by simp only [serviceEvent, hpc])
  | unsent r next hpc => exact .of_none rfl rfl (work_cleanup l) (by simp only [serviceEvent, hpc])
  | login id pc hpc => exact handleLogin_serves hpc rfl (by simp only [serviceEvent, hpc])
  | authenticate _ _ _ hpc =>
    exact .of_none rfl rfl (work_cleanup l) (by simp only [serviceEvent, hpc])
  | read id u pc b hpc hread => exact handleRead_serves hpc hread
  | readRaised _ _ _ hpc =>
    exact .of_none rfl rfl (work_cleanup l) (by simp only [serviceEvent, hpc])
  | readReturns id u r hpc =>
    exact .quiet rfl rfl (fun _ _ hm => hm) (.inr ⟨id, by rw [hpc]; rfl, rfl⟩)
      (by simp only [serviceEvent, hpc])
  | readDone id u r hpc =>
    have he : serviceEvent cfg l .go = none := by simp only [serviceEvent, hpc]
    have hw : l.pc.work = .busy id := by rw [hpc]; rfl
    split
    · exact .answers _ rfl rfl rfl hw rfl he
    · exact .answers _ rfl rfl rfl hw rfl he
  | write id content u pc b hpc hwrite => exact handleWrite_serves hpc hwrite
  | writeRaised _ _ _ _ hpc =>
    exact .of_none rfl rfl (work_cleanup l) (by simp only [serviceEvent, hpc])
  | writeReturns id content u r hpc =>
    exact .written rfl (by rw [hpc]; rfl) rfl (by simp only [serviceEvent, hpc])
  | writeDone id content u r hpc =>
    have he : serviceEvent cfg l .go = none := by simp only [serviceEvent, hpc]
    have hw : l.pc.work = .written id content u r := by rw [hpc]; rfl
    split
    · rename_i hok
      exact .reports _ rfl rfl hw rfl rfl (fun _ => ⟨hok, rfl⟩) he
    · have hne : statusError ≠ statusOk := by decide
      exact .reports _ rfl rfl hw rfl rfl (fun h => absurd h hne) he
  | publish pc pc' ok b d hpc hok hp =>
    exact publish_serves d (by cases ok <;> simp only [serviceEvent, hpc])
  | published n hpc => exact .of_none rfl rfl rfl (by simp only [serviceEvent, hpc])
  | release pc caller hpc =>
    have hd := releaseStep_data cfg s l caller pc
    exact .of_none hd.1 hd.2 (work_of_atRest (atRest_releaseStep l cfg s caller pc))
      (by simp only [serviceEvent, hpc])

end Effect

/-! ## The history -/

/-- A record in the shared file: the message that it is for, its text, and what has been written of
it. -/
structure FileRecord (H : Type) where
  handler : H
  number : ℕ
  text : Text
  bytes : Bytes

/-- A commit: the message that it is for, the user of the session, and the record. -/
structure Commit (H : Type) where
  handler : H
  number : ℕ
  session : Option Text
  text : Text

/-- What the handlers have got, the records that they have begun to append, and their commits. -/
structure ServiceHistory (H : Type) where
  got : H → List Json := fun _ => []
  appended : List (FileRecord H) := []
  commits : List (Commit H) := []

def FileRecord.call {H : Type} (e : FileRecord H) : H × ℕ := (e.handler, e.number)
def Commit.call {H : Type} (c : Commit H) : H × ℕ := (c.handler, c.number)

section History

variable {H : Type} [DecidableEq H]

/-- More of the record of a call is written. -/
def FileRecord.extend (call : H × ℕ) (piece : Bytes) (e : FileRecord H) : FileRecord H :=
  if e.call = call then { e with bytes := e.bytes ++ piece } else e

/-- The history after a step of `h`, whose session is that of the user. -/
def ServiceHistory.next (L : ServiceHistory H) (h : H) (session : Option Text) :
    Option ServiceEvent → ServiceHistory H
  | none => L
  | some (.got m) => { L with got := Function.update L.got h (L.got h ++ [m]) }
  | some (.write (.opened rec)) =>
    { L with appended := L.appended ++ [⟨h, (L.got h).length, rec, []⟩] }
  | some (.write (.flushed piece)) =>
    { L with appended := L.appended.map (FileRecord.extend (h, (L.got h).length) piece) }
  | some (.write (.committed rec)) =>
    { L with commits := L.commits ++ [⟨h, (L.got h).length, session, rec⟩] }

/-- The server, with what it has made of the messages. -/
def servingServer (cfg : Config) (H : Type) [DecidableEq H] (file : Bytes) :=
  (serverMachine cfg H file).withHistory ({} : ServiceHistory H) fun L s a _ =>
    L.next a.1 (s.thread a.1).userId (serviceEvent cfg (s.thread a.1) a.2)

/-! ## The invariant -/

variable (cfg : Config) (L : ServiceHistory H)

/-- The `n`-th message of `h` is the dict `m`. -/
def Got (h : H) (n : ℕ) (m : List (Text × Json)) : Prop := 1 ≤ n ∧ (L.got h)[n - 1]? = some (.obj m)

/-- The `v`-th commit is the one for the `n`-th message of `h`. -/
def CommittedAs (h : H) (n v : ℕ) : Prop := 1 ≤ v ∧ ∃ c, L.commits[v - 1]? = some c ∧ c.call = (h, n)

/-- The RESPONSE answers the `n`-th message of `h`, and acknowledges a WRITE with its commit only. -/
def Answers (h : H) (n : ℕ) (r : Response) : Prop :=
  ∃ m, Got L h n m ∧ r.id = getField m (lit "id") ∧
    (isWrite m → r.status = statusOk → ∃ v, r.version = some v ∧ CommittedAs L h n v)

/-- Where the write of the text `x` stands that the `n`-th message of `h` asks for. -/
def Writing (h : H) (n : ℕ) (u x : Text) : WritePc → Prop
  | .append rec rest => (∃ stamp, rec = record stamp u x) ∧ (h, n) ∉ L.commits.map Commit.call ∧
      ∃ es bytes, L.appended = es ++ [⟨h, n, rec, bytes⟩] ∧ bytes ++ rest = utf8 rec
  | .bump rec => (∃ stamp, rec = record stamp u x) ∧ (h, n) ∉ L.commits.map Commit.call ∧
      ∃ es, L.appended = es ++ [⟨h, n, rec, utf8 rec⟩]
  | .release o | .done o => ∀ v, committedIn o = some v → CommittedAs L h n v
  | _ => (h, n) ∉ L.appended.map FileRecord.call

/-- What a handler relies on while it works for its last message. -/
def Serving (h : H) (userId : Option Text) : Work → Prop
  | .none => True
  | .busy id => ∃ m, Got L h (L.got h).length m ∧ id = getField m (lit "id") ∧ ¬ isWrite m
  | .writing id content u pc => ∃ m, Got L h (L.got h).length m ∧ id = getField m (lit "id") ∧
      isWrite m ∧ content = writeContent m ∧ userId = some u ∧
      Writing L h (L.got h).length u (pyFormat cfg.strRepr content) pc
  | .written id _ _ r => ∃ m, Got L h (L.got h).length m ∧ id = getField m (lit "id") ∧
      (r.ok = true → CommittedAs L h (L.got h).length r.version)
  | .replying r => Answers L h (L.got h).length r

/-- **The invariant.**  No message has two records, the file is the records one after the other,
every commit is that of a whole record with the content of a WRITE and the user of the session, and
every RESPONSE answers a message. -/
structure ServiceInv (file : Bytes) (s : DistResServer H) (th : H → ClientHandler H) : Prop where
  serving : ∀ h, Serving cfg L h (th h).userId (th h).pc.work
  once : (L.appended.map FileRecord.call).Nodup
  asked : ∀ e ∈ L.appended, ∃ m, Got L e.handler e.number m ∧ isWrite m
  committedOnce : (L.commits.map Commit.call).Nodup
  committed : ∀ c ∈ L.commits, ∃ m u stamp, Got L c.handler c.number m ∧ isWrite m ∧
    c.session = some u ∧ c.text = record stamp u (pyFormat cfg.strRepr (writeContent m)) ∧
    ⟨c.handler, c.number, c.text, utf8 c.text⟩ ∈ L.appended
  version : s.data.version = L.commits.length
  file : s.data.file = file ++ (L.appended.map FileRecord.bytes).flatten
  replies : ∀ h r, .response r ∈ s.sockets h → ∃ n, Answers L h n r

variable {cfg L} {L' : ServiceHistory H} {file : Bytes} {s s' : DistResServer H}
  {th : H → ClientHandler H} {l' : ClientHandler H} {h k : H} {n v : ℕ}

/-! ### What is kept -/

theorem getElem?_of_prefix {α : Type} {xs ys : List α} {i : ℕ} {a : α} (hp : xs <+: ys)
    (hi : xs[i]? = some a) : ys[i]? = some a := by
  obtain ⟨zs, rfl⟩ := hp
  rw [List.getElem?_append_left (List.getElem?_eq_some_iff.1 hi).1, hi]

section

omit [DecidableEq H]

theorem Got.mono {m : List (Text × Json)} (hg : Got L h n m) (hp : L.got h <+: L'.got h) : Got L' h n m :=
  ⟨hg.1, getElem?_of_prefix hp hg.2⟩

theorem Got.le {m : List (Text × Json)} (hg : Got L h n m) : n ≤ (L.got h).length := by
  have := (List.getElem?_eq_some_iff.1 hg.2).1
  have := hg.1
  omega

theorem CommittedAs.mono (hc : CommittedAs L h n v) (hp : L.commits <+: L'.commits) :
    CommittedAs L' h n v := by
  obtain ⟨hv, c, hi, hcall⟩ := hc
  exact ⟨hv, c, getElem?_of_prefix hp hi, hcall⟩

theorem Answers.mono {r : Response} (ha : Answers L h n r) (hg : L.got h <+: L'.got h)
    (hc : L.commits <+: L'.commits) : Answers L' h n r := by
  obtain ⟨m, hm, hid, hw⟩ := ha
  refine ⟨m, hm.mono hg, hid, fun h1 h2 => ?_⟩
  obtain ⟨v, hv, hcom⟩ := hw h1 h2
  exact ⟨v, hv, hcom.mono hc⟩

end

/-- A write that is appending its record. -/
def Work.appending : Work → Bool
  | .writing _ _ _ (.append _ _) | .writing _ _ _ (.bump _) => true
  | _ => false

omit [DecidableEq H] in
/-- What another handler relies on. -/
theorem Serving.other {u : Option Text} {w : Work} (hs : Serving cfg L k u w)
    (hgot : L'.got k = L.got k) (hc : L.commits <+: L'.commits)
    (hlast : w.appending = true → L'.appended = L.appended)
    (happ : ∀ n, (k, n) ∈ L'.appended.map FileRecord.call → (k, n) ∈ L.appended.map FileRecord.call)
    (hcom : ∀ n, (k, n) ∈ L'.commits.map Commit.call → (k, n) ∈ L.commits.map Commit.call) :
    Serving cfg L' k u w := by
  have hp : L.got k <+: L'.got k := hgot ▸ List.prefix_rfl
  cases w with
  | none => trivial
  | busy id =>
    obtain ⟨m, hm, hid, hw⟩ := hs
    rw [← hgot] at hm
    exact ⟨m, hm.mono hp, hid, hw⟩
  | written id content u r =>
    obtain ⟨m, hm, hid, hw⟩ := hs
    rw [← hgot] at hm hw
    exact ⟨m, hm.mono hp, hid, fun hok => (hw hok).mono hc⟩
  | replying r =>
    have hs : Answers L k (L.got k).length r := hs
    rw [← hgot] at hs
    exact hs.mono hp hc
  | writing id content u pc =>
    obtain ⟨m, hm, hid, hw, hcontent, hu, hwr⟩ := hs
    rw [← hgot] at hm hwr
    refine ⟨m, hm.mono hp, hid, hw, hcontent, hu, ?_⟩
    cases pc with
    | append rec rest =>
      obtain ⟨hstamp, hnot, hes⟩ := hwr
      refine ⟨hstamp, fun hm => hnot (hcom _ hm), ?_⟩
      rw [hlast rfl]
      exact hes
    | bump rec =>
      obtain ⟨hstamp, hnot, hes⟩ := hwr
      refine ⟨hstamp, fun hm => hnot (hcom _ hm), ?_⟩
      rw [hlast rfl]
      exact hes
    | release o => exact fun v hv => (hwr v hv).mono hc
    | done o => exact fun v hv => (hwr v hv).mono hc
    | acquire | refused | callback | openFile => exact fun hm => hwr (happ _ hm)

/-- What holds of every handler holds again when it holds of `h` and of the others. -/
theorem forall_update {P : H → ClientHandler H → Prop} (hnew : P h l')
    (hold : ∀ k, k ≠ h → P k (th k)) : ∀ k, P k (Function.update th h l' k) := by
  intro k
  by_cases hk : k = h
  · rw [hk, Function.update_self]
    exact hnew
  · rw [Function.update_of_ne hk]
    exact hold k hk

/-! ### One step -/

/-- A step that adds nothing to the history. -/
theorem ServiceInv.keep (hi : ServiceInv cfg L file s th) (hf : s'.data.file = s.data.file)
    (hv : s'.data.version = s.data.version)
    (hsock : ∀ t r, .response r ∈ s'.sockets t → .response r ∈ s.sockets t ∨ ∃ n, Answers L t n r)
    (hnew : Serving cfg L h l'.userId l'.pc.work) :
    ServiceInv cfg L file s' (Function.update th h l') :=
  { hi with
    serving := forall_update (P := fun k l => Serving cfg L k l.userId l.pc.work) hnew
      fun k _ => hi.serving k
    version := hv.trans hi.version
    file := hf.trans hi.file
    replies := fun t r hm => (hsock t r hm).elim (hi.replies t r) id }

theorem ServiceInv.got (hi : ServiceInv cfg L file s th) {m : Json}
    (hb : Begins m l'.userId l'.pc.work) :
    ServiceInv cfg (L.next h l'.userId (some (.got m))) file s (Function.update th h l') := by
  have hself : (L.next h l'.userId (some (.got m))).got h = L.got h ++ [m] := Function.update_self ..
  have hother : ∀ k, k ≠ h → (L.next h l'.userId (some (.got m))).got k = L.got k := fun k hk =>
    Function.update_of_ne hk _ _
  have hgot : ∀ k, L.got k <+: (L.next h l'.userId (some (.got m))).got k := by
    intro k
    by_cases hk : k = h
    · rw [hk, hself]
      exact List.prefix_append _ _
    · rw [hother k hk]
  have hlast : ∀ fields, m = .obj fields →
      Got (L.next h l'.userId (some (.got m))) h
        ((L.next h l'.userId (some (.got m))).got h).length fields := by
    rintro fields rfl
    refine ⟨by rw [hself]; simp, ?_⟩
    rw [hself]
    simp
  refine ⟨?_, hi.once, fun e he => ?_, hi.committedOnce, fun c hc => ?_, hi.version, hi.file,
    fun k r hm => ?_⟩
  · refine forall_update (P := fun k l => Serving cfg _ k l.userId l.pc.work) ?_ fun k hk =>
      (hi.serving k).other (hother k hk) List.prefix_rfl (fun _ => rfl) (fun _ hm => hm) fun _ hm => hm
    generalize l'.pc.work = w at hb
    cases hb with
    | none => trivial
    | busy hm hw => exact ⟨_, hlast _ hm, rfl, hw⟩
    | rejected hm hid hw =>
      exact ⟨_, hlast _ hm, hid, fun h1 h2 => absurd ((hw h1).symm.trans h2) (by decide)⟩
    | writing hm hw hu =>
      refine ⟨_, hlast _ hm, rfl, hw, rfl, hu, fun hmem => ?_⟩
      -- the records so far are for earlier messages
      obtain ⟨e, he, hcall⟩ := List.mem_map.1 hmem
      obtain ⟨m', hg, -⟩ := hi.asked e he
      have hle := hg.le
      have hhandler : e.handler = h := congrArg Prod.fst hcall
      have hnumber : e.number = (L.got h).length + 1 :=
        (congrArg Prod.snd hcall).trans (by rw [hself, List.length_append, List.length_singleton])
      rw [hhandler, hnumber] at hle
      omega
  · obtain ⟨m', hg, hw⟩ := hi.asked e he
    exact ⟨m', hg.mono (hgot _), hw⟩
  · obtain ⟨m', u, stamp, hg, hrest⟩ := hi.committed c hc
    exact ⟨m', u, stamp, hg.mono (hgot _), hrest⟩
  · obtain ⟨n, ha⟩ := hi.replies k r hm
    exact ⟨n, ha.mono (hgot k) List.prefix_rfl⟩

/-- The write of `h` begins its record. -/
theorem ServiceInv.opened (hi : ServiceInv cfg L file s th) {id content : Json} {u stamp : Text}
    (hw : (th h).pc.work = .writing id content u .openFile)
    (halone : ∀ k, k ≠ h → (th k).pc.work.appending = false)
    (hw' : l'.pc.work = .writing id content u
      (.append (record stamp u (pyFormat cfg.strRepr content))
        (utf8 (record stamp u (pyFormat cfg.strRepr content))))) (hu : l'.userId = (th h).userId) :
    ServiceInv cfg (L.next h (th h).userId
      (some (.write (.opened (record stamp u (pyFormat cfg.strRepr content)))))) file s
      (Function.update th h l') := by
  have hserve := hi.serving h
  rw [hw] at hserve
  obtain ⟨m, hm, hid, hwrite, hcontent, huser, hnew⟩ := hserve
  have hnew : (h, (L.got h).length) ∉ L.appended.map FileRecord.call := hnew
  refine ⟨?_, ?_, fun e he => ?_, hi.committedOnce, fun c hc => ?_, hi.version, ?_, hi.replies⟩
  · refine forall_update (P := fun k l => Serving cfg _ k l.userId l.pc.work) ?_ fun k hk =>
      (hi.serving k).other rfl List.prefix_rfl (fun ha => ?_) (fun n hmem => ?_) fun _ hm => hm
    · rw [hw', hu]
      refine ⟨m, hm, hid, hwrite, hcontent, huser, ⟨stamp, rfl⟩, fun hmem => ?_, _, [], rfl, rfl⟩
      obtain ⟨c, hc, hcall⟩ := List.mem_map.1 hmem
      obtain ⟨-, -, -, -, -, -, -, hrec⟩ := hi.committed c hc
      exact hnew (List.mem_map.2 ⟨_, hrec, hcall⟩)
    · rw [halone k hk] at ha
      cases ha
    · rcases List.mem_append.1 (List.map_append ▸ hmem) with hmem | hmem
      · exact hmem
      · exact absurd (congrArg Prod.fst (List.mem_singleton.1 hmem)) hk
  · show ((L.appended ++ _).map FileRecord.call).Nodup
    rw [List.map_append, List.nodup_append]
    refine ⟨hi.once, List.nodup_singleton _, fun x hx y hy => ?_⟩
    rw [List.mem_singleton.1 hy]
    rintro rfl
    exact hnew hx
  · rcases List.mem_append.1 he with he | he
    · exact hi.asked e he
    · rw [List.mem_singleton.1 he]
      exact ⟨m, hm, hwrite⟩
  · obtain ⟨m', u', stamp', h1, h2, h3, h4, h5⟩ := hi.committed c hc
    exact ⟨m', u', stamp', h1, h2, h3, h4, List.mem_append_left _ h5⟩
  · show s.data.file = file ++ ((L.appended ++ _).map FileRecord.bytes).flatten
    rw [hi.file]
    simp

/-- Writing more of the last record. -/
theorem map_extend {es : List (FileRecord H)} {rec : Text} {bytes : Bytes}
    (hnd : ((es ++ [(⟨h, n, rec, bytes⟩ : FileRecord H)]).map FileRecord.call).Nodup) (piece : Bytes) :
    (es ++ [(⟨h, n, rec, bytes⟩ : FileRecord H)]).map (FileRecord.extend (h, n) piece) =
      es ++ [⟨h, n, rec, bytes ++ piece⟩] := by
  rw [List.map_append]
  congr 1
  · refine (List.map_congr_left fun e he => ?_).trans (List.map_id es)
    refine if_neg fun hcall => ?_
    rw [List.map_append, List.nodup_append] at hnd
    exact hnd.2.2 _ (List.mem_map.2 ⟨e, he, hcall⟩) _ (List.mem_singleton_self _) rfl
  · exact congrArg (· :: []) (if_pos rfl)

/-- The write of `h` puts more of its record into the file. -/
theorem ServiceInv.flushed (hi : ServiceInv cfg L file s th) {id content : Json} {u rec : Text}
    {rest piece : Bytes} {pc' : WritePc} (hw : (th h).pc.work = .writing id content u (.append rec rest))
    (halone : ∀ k, k ≠ h → (th k).pc.work.appending = false)
    (hf : s'.data.file = s.data.file ++ piece) (hv : s'.data.version = s.data.version)
    (hsock : s'.sockets = s.sockets) (hw' : l'.pc.work = .writing id content u pc')
    (hpc : pc' = .bump rec ∧ piece = rest ∨
      ∃ rest', pc' = .append rec rest' ∧ piece ++ rest' = rest) (hu : l'.userId = (th h).userId) :
    ServiceInv cfg (L.next h (th h).userId (some (.write (.flushed piece)))) file s'
      (Function.update th h l') := by
  have hserve := hi.serving h
  rw [hw] at hserve
  obtain ⟨m, hm, hid, hwrite, hcontent, huser, hstamp, hnot, es, bytes, hes, hbytes⟩ := hserve
  have hnd := hi.once
  rw [hes] at hnd
  have happ : (L.next h (th h).userId (some (.write (.flushed piece)))).appended =
      es ++ [⟨h, (L.got h).length, rec, bytes ++ piece⟩] := by
    show L.appended.map _ = _
    rw [hes, map_extend hnd]
  have hcalls : (es ++ [(⟨h, (L.got h).length, rec, bytes ++ piece⟩ : FileRecord H)]).map
      FileRecord.call = L.appended.map FileRecord.call := by
    rw [hes, List.map_append, List.map_append]
    rfl
  refine ⟨?_, ?_, fun e he => ?_, hi.committedOnce, fun c hc => ?_, hv.trans hi.version, ?_, ?_⟩
  · refine forall_update (P := fun k l => Serving cfg _ k l.userId l.pc.work) ?_ fun k hk =>
      (hi.serving k).other rfl List.prefix_rfl (fun ha => ?_) (fun n hmem => ?_) fun _ hm => hm
    · rw [hw', hu]
      refine ⟨m, hm, hid, hwrite, hcontent, huser, ?_⟩
      rcases hpc with ⟨rfl, rfl⟩ | ⟨rest', rfl, rfl⟩
      · exact ⟨hstamp, hnot, es, by rw [happ, hbytes]; rfl⟩
      · exact ⟨hstamp, hnot, es, bytes ++ piece, happ, by rw [List.append_assoc, hbytes]⟩
    · rw [halone k hk] at ha
      cases ha
    · rwa [happ, hcalls] at hmem
  · rw [happ, hcalls]
    exact hi.once
  · rw [happ] at he
    rcases List.mem_append.1 he with he | he
    · exact hi.asked e (by rw [hes]; exact List.mem_append_left _ he)
    · rw [List.mem_singleton.1 he]
      exact ⟨m, hm, hwrite⟩
  · obtain ⟨m', u', stamp', h1, h2, h3, h4, h5⟩ := hi.committed c hc
    refine ⟨m', u', stamp', h1, h2, h3, h4, ?_⟩
    rw [happ]
    rw [hes] at h5
    rcases List.mem_append.1 h5 with h5 | h5
    · exact List.mem_append_left _ h5
    · -- a committed record is not the one in the hands of `h`
      have hcall : c.call = (h, (L.got h).length) :=
        congrArg FileRecord.call (List.mem_singleton.1 h5)
      exact absurd (List.mem_map.2 ⟨c, hc, hcall⟩) hnot
  · rw [hf, hi.file, happ, hes]
    simp
  · rw [hsock]
    exact hi.replies

/-- The write of `h` commits. -/
theorem ServiceInv.committed_step (hi : ServiceInv cfg L file s th) {id content : Json} {u rec : Text}
    {pc' : WritePc} (hw : (th h).pc.work = .writing id content u (.bump rec))
    (hf : s'.data.file = s.data.file) (hv : s'.data.version = s.data.version + 1)
    (hsock : s'.sockets = s.sockets) (hw' : l'.pc.work = .writing id content u pc')
    (hpc : pc' = .release (.ok ⟨true, writeCommitted, s.data.version + 1⟩))
    (hu : l'.userId = (th h).userId) :
    ServiceInv cfg (L.next h (th h).userId (some (.write (.committed rec)))) file s'
      (Function.update th h l') := by
  have hserve := hi.serving h
  rw [hw] at hserve
  obtain ⟨m, hm, hid, hwrite, hcontent, huser, ⟨stamp, hstamp⟩, hnot, es, hes⟩ := hserve
  have hpre : L.commits <+: L.commits ++ [(⟨h, (L.got h).length, (th h).userId, rec⟩ : Commit H)] :=
    List.prefix_append _ _
  refine ⟨?_, hi.once, hi.asked, ?_, fun c hc => ?_, ?_, hf.trans hi.file, fun k r hr => ?_⟩
  · refine forall_update (P := fun k l => Serving cfg _ k l.userId l.pc.work) ?_ fun k hk =>
      (hi.serving k).other rfl hpre (fun _ => rfl) (fun _ hm => hm) fun n hmem => ?_
    · rw [hw', hu, hpc]
      refine ⟨m, hm, hid, hwrite, hcontent, huser, fun v hv => ?_⟩
      obtain rfl : s.data.version + 1 = v := by
        simpa [committedIn] using hv
      refine ⟨Nat.succ_pos _, ⟨h, (L.got h).length, (th h).userId, rec⟩, ?_, rfl⟩
      show (L.commits ++ [_])[_]? = _
      rw [Nat.add_sub_cancel, hi.version, List.getElem?_append_right (le_refl _), Nat.sub_self]
      rfl
    · rcases List.mem_append.1 (List.map_append ▸ hmem) with hmem | hmem
      · exact hmem
      · exact absurd (congrArg Prod.fst (List.mem_singleton.1 hmem)) hk
  · show ((L.commits ++ _).map Commit.call).Nodup
    rw [List.map_append, List.nodup_append]
    refine ⟨hi.committedOnce, List.nodup_singleton _, fun x hx y hy => ?_⟩
    rw [List.mem_singleton.1 hy]
    rintro rfl
    exact hnot hx
  · rcases List.mem_append.1 hc with hc | hc
    · exact hi.committed c hc
    · rw [List.mem_singleton.1 hc]
      refine ⟨m, u, stamp, hm, hwrite, huser, by rw [hstamp, hcontent], ?_⟩
      show _ ∈ L.appended
      rw [hes]
      exact List.mem_append_right _ (List.mem_singleton_self _)
  · show _ = (L.commits ++ [_]).length
    rw [hv, hi.version, List.length_append, List.length_singleton]
  · rw [hsock] at hr
    obtain ⟨n, ha⟩ := hi.replies k r hr
    exact ⟨n, ha.mono List.prefix_rfl hpre⟩

/-- **One step** keeps the invariant, given that nobody writes beside a writer. -/
theorem ServiceInv.step (hi : ServiceInv cfg L file s th) {a : HandlerAct}
    (heff : ServiceEffect cfg h s (th h) a s' l')
    (halone : ∀ id content u pc, (th h).pc.work = .writing id content u pc →
      pc = .openFile ∨ (∃ rec rest, pc = .append rec rest) →
      ∀ k, k ≠ h → (th k).pc.work.appending = false) :
    ServiceInv cfg (L.next h (th h).userId (serviceEvent cfg (th h) a)) file s'
      (Function.update th h l') := by
  have hserve := hi.serving h
  cases heff with
  | quiet hf hv hsock hw he =>
    rw [he]
    refine hi.keep hf hv (fun t r hm => .inl (hsock t r hm)) ?_
    rcases hw with hw | ⟨id, hw, hw'⟩
    · rw [hw]
      trivial
    · rw [hw] at hserve
      rw [hw']
      exact hserve
  | got m hs hw hb hu he =>
    rw [he, hs, ← hu]
    rw [← hu] at hb
    exact hi.got hb
  | answers r hf hv hsock hw hw' he =>
    rw [he]
    refine hi.keep hf hv (fun t r hm => .inl (by rwa [hsock] at hm)) ?_
    rw [hw] at hserve
    rw [hw']
    obtain ⟨m, hm, hid, hnw⟩ := hserve
    exact ⟨m, hm, hid, fun h => absurd h hnw⟩
  | @writes id content u pc pc' b hw hw' heff hsock hu he =>
    rw [he]
    have hsock' : ∀ t r, .response r ∈ s'.sockets t → .response r ∈ s.sockets t ∨ ∃ n, Answers L t n r :=
      fun t r hm => .inl (by rwa [hsock] at hm)
    have hsame := hserve
    rw [hw] at hsame
    obtain ⟨m, hm, hid, hwrite, hcontent, huser, hwr⟩ := hsame
    rw [← hu] at huser
    cases heff with
    | early hf hv h1 h2 hev =>
      rw [hev]
      refine hi.keep hf hv hsock' ?_
      rw [hw']
      refine ⟨m, hm, hid, hwrite, hcontent, huser, ?_⟩
      cases pc with
      | append | bump | release | done => cases h1
      | acquire | refused | callback | openFile =>
        cases pc' with
        | append | bump | release | done => cases h2
        | acquire | refused | callback | openFile => exact hwr
    | fails o hd ho hcom hev =>
      rw [hev]
      refine hi.keep (by rw [hd]) (by rw [hd]) hsock' ?_
      rw [hw']
      refine ⟨m, hm, hid, hwrite, hcontent, huser, ?_⟩
      have hnone : ∀ o', some o' = some o → ∀ v, committedIn o' = some v →
          CommittedAs L h (L.got h).length v := by
        rintro o' ⟨⟩ v hv
        rw [hcom] at hv
        cases hv
      cases pc' with
      | release o' => exact hnone o' ho
      | done o' => exact hnone o' ho
      | acquire | refused | callback | openFile | append | bump => cases ho
    | opened stamp hd hev =>
      rw [hev]
      have hi' := hi.opened hw (halone _ _ _ _ hw (.inl rfl)) hw' hu
      exact { hi' with
        version := hd ▸ hi'.version
        file := hd ▸ hi'.file
        replies := hsock ▸ hi'.replies }
    | flushed n ha hv hf hne =>
      subst ha
      exact hi.flushed hw (halone _ _ _ _ hw (.inr ⟨_, _, rfl⟩)) hf hv hsock hw'
        (.inr ⟨_, rfl, List.take_append_drop n _⟩) hu
    | closed n ha hv hf htake =>
      subst ha
      rw [WritePc.event, htake]
      exact hi.flushed hw (halone _ _ _ _ hw (.inr ⟨_, _, rfl⟩)) hf hv hsock hw' (.inl ⟨rfl, rfl⟩) hu
    | bumped rec ha hf hv =>
      subst ha
      exact hi.committed_step hw hf hv hsock hw' rfl hu
    | released o hf hv hev =>
      rw [hev]
      refine hi.keep hf hv hsock' ?_
      rw [hw']
      exact ⟨m, hm, hid, hwrite, hcontent, huser, hwr⟩
  | written hs hw hw' he =>
    rw [he, hs]
    refine hi.keep rfl rfl (fun t r hm => .inl hm) ?_
    rw [hw] at hserve
    rw [hw']
    obtain ⟨m, hm, hid, -, -, -, hwr⟩ := hserve
    exact ⟨m, hm, hid, fun hok => hwr _ (by simp [committedIn, hok])⟩
  | reports r' hd hsock hw hw' hid' hr' he =>
    rw [he]
    refine hi.keep (by rw [hd]) (by rw [hd]) (fun t r hm => .inl (by rwa [hsock] at hm)) ?_
    rw [hw] at hserve
    rw [hw']
    obtain ⟨m, hm, hid, hcom⟩ := hserve
    exact ⟨m, hm, hid'.trans hid, fun _ hst => ⟨_, (hr' hst).2, hcom (hr' hst).1⟩⟩
  | replies r hd hw hw' hsock he =>
    rw [he]
    rw [hw] at hserve
    refine hi.keep (by rw [hd]) (by rw [hd]) (fun t r' hm => ?_) (by rw [hw']; trivial)
    rw [hsock] at hm
    by_cases ht : t = h
    · rw [ht, Function.update_self] at hm
      rcases List.mem_append.1 hm with hm | hm
      · exact .inl (ht ▸ hm)
      · cases List.mem_singleton.1 hm
        exact .inr ⟨_, ht ▸ hserve⟩
    · rw [Function.update_of_ne ht] at hm
      exact .inl hm

end History

/-! ## Every run -/

section Reachable

variable {H : Type} [DecidableEq H] {cfg : Config}

/-- A handler as a thread that calls the data layer. -/
def HandlerPc.dataCall (cfg : Config) : HandlerPc H → Call
  | .read _ _ pc => .read pc
  | .write _ content u pc => .write u (pyFormat cfg.strRepr content) pc
  | _ => .idle

omit [DecidableEq H] in
theorem dataCall_of_atRest {pc : HandlerPc H} (h : pc.atRest = true) : pc.dataCall cfg = .idle := by
  cases pc <;> first | rfl | cases h

omit [DecidableEq H] in
theorem dataCall_cleanup (l : ClientHandler H) : l.cleanup.pc.dataCall cfg = .idle :=
  dataCall_of_atRest (atRest_cleanup l)

/-- The step is one of a thread that calls the data layer, or changes nothing there. -/
def SeenInData (cfg : Config) (h : H) (s : DistResServer H) (l : ClientHandler H) (s' : DistResServer H)
    (l' : ClientHandler H) : Prop :=
  s'.data = s.data ∧ l'.pc.dataCall cfg = l.pc.dataCall cfg ∨
    ∃ b, callStep h s.data (l.pc.dataCall cfg) b = some (s'.data, l'.pc.dataCall cfg)

variable {h : H} {s s' : DistResServer H} {l l' : ClientHandler H} {a : HandlerAct}

theorem dispatch_data (cfg : Config) (h : H) (s : DistResServer H) (l : ClientHandler H) (m : Json)
    (hpc : l.pc.dataCall cfg = .idle) : SeenInData cfg h s l s (l.dispatch cfg m) := by
  have idle : ∀ l', l'.pc.dataCall cfg = .idle → SeenInData cfg h s l s l' := fun l' h1 =>
    .inl ⟨rfl, h1.trans hpc.symm⟩
  have call : ∀ op l', callStep h s.data .idle (.call op) = some (s.data, l'.pc.dataCall cfg) →
      SeenInData cfg h s l s l' := fun op l' h1 => .inr ⟨.call op, by rw [hpc]; exact h1⟩
  have hd := dispatch_cases cfg l m
  generalize l.dispatch cfg m = l' at hd
  cases hd with
  | notDict | unhashable => exact idle _ (dataCall_cleanup l)
  | ignored | login | refused | logout | ping | unknown => exact idle _ rfl
  | read => exact call .read _ rfl
  | write => exact call (.write _ _) _ rfl

theorem handlerStep_data (hs : handlerStep cfg h s l a = some (s', l')) :
    SeenInData cfg h s l s' l' := by
  have outside : s'.data = s.data → l.pc.dataCall cfg = .idle → l'.pc.dataCall cfg = .idle →
      SeenInData cfg h s l s' l' := fun hd h1 h2 => .inl ⟨hd, h2.trans h1.symm⟩
  have ret : s'.data = s.data → (∃ id u o, l.pc = .read id u (.done o)) ∨
      (∃ id content u o, l.pc = .write id content u (.done o)) → l'.pc.dataCall cfg = .idle →
      SeenInData cfg h s l s' l' := by
    rintro hd (⟨id, u, o, hpc⟩ | ⟨id, content, u, o, hpc⟩) h2 <;>
      exact .inr ⟨.ret, by rw [hpc, h2, hd]; rfl⟩
  cases handlerStep_cases hs with
  | accept hpc => exact outside rfl (by rw [hpc]; rfl) rfl
  | receive m hpc => exact dispatch_data cfg h s l m (by rw [hpc]; rfl)
  | hangup hpc => exact outside rfl (by rw [hpc]; rfl) (dataCall_cleanup l)
  | respond r next hpc =>
    refine outside rfl (by rw [hpc]; rfl) ?_
    cases next with
    | loop | publish => rfl
    | release => exact dataCall_of_atRest (atRest_releaseSession l .logout)
  | unsent r next hpc => exact outside rfl (by rw [hpc]; rfl) (dataCall_cleanup l)
  | login id pc hpc =>
    refine outside (handleLogin_data cfg h s l id pc).1 (by rw [hpc]; rfl) ?_
    exact handleLogin_pc cfg h s id pc (P := fun p => p.dataCall cfg = .idle) (dataCall_cleanup l)
      (fun r => rfl) fun pc' => rfl
  | authenticate _ _ _ hpc => exact outside rfl (by rw [hpc]; rfl) (dataCall_cleanup l)
  | read id u pc b hpc hread =>
    obtain ⟨d, pc', hdata, hin, rfl⟩ := handleRead_cases hread
    refine .inr ⟨.step b, ?_⟩
    rw [hpc, hin.data]
    exact Option.map_eq_some_iff.2 ⟨_, hdata, rfl⟩
  | readRaised id u e hpc => exact ret rfl (.inl ⟨id, u, _, hpc⟩) (dataCall_cleanup l)
  | readReturns id u r hpc => exact ret rfl (.inl ⟨id, u, _, hpc⟩) rfl
  | readDone id u r hpc =>
    refine outside rfl (by rw [hpc]; rfl) ?_
    split <;> rfl
  | write id content u pc b hpc hwrite =>
    obtain ⟨d, pc', hdata, hin, rfl⟩ := handleWrite_cases hwrite
    refine .inr ⟨.step b, ?_⟩
    rw [hpc, hin.data]
    exact Option.map_eq_some_iff.2 ⟨_, hdata, rfl⟩
  | writeRaised id content u e hpc => exact ret rfl (.inr ⟨id, content, u, _, hpc⟩) (dataCall_cleanup l)
  | writeReturns id content u r hpc => exact ret rfl (.inr ⟨id, content, u, _, hpc⟩) rfl
  | writeDone id content u r hpc =>
    refine outside rfl (by rw [hpc]; rfl) ?_
    split <;> rfl
  | publish pc pc' ok b d hpc => cases d <;> exact outside rfl (by rw [hpc]; rfl) rfl
  | published n hpc => exact outside rfl (by rw [hpc]; rfl) rfl
  | release pc caller hpc =>
    exact outside (releaseStep_data cfg s l caller pc).1 (by rw [hpc]; rfl)
      (dataCall_of_atRest (atRest_releaseStep l cfg s caller pc))

/-- The handlers of a server use its data layer as threads that call it. -/
theorem server_uses_data {file : Bytes} {s : Pool.State H (DistResServer H) (ClientHandler H)}
    (hr : (serverMachine cfg H file).Reachable s) :
    (dataMachine H file).Reachable ⟨s.shared.data, fun h => (s.thread h).pc.dataCall cfg⟩ := by
  refine Machine.Reach.map (fun s : Pool.State H (DistResServer H) (ClientHandler H) =>
    (⟨s.shared.data, fun h => (s.thread h).pc.dataCall cfg⟩ : Pool.State H (DataLayer H) Call)) ?_ ?_ hr
  · rintro s ⟨hs, hth⟩
    have hs : s.shared = { data := { file := file }, sessions := cfg.maxSessions } := hs
    refine ⟨by rw [hs]; rfl, fun h => ?_⟩
    show (s.thread h).pc.dataCall cfg = .idle
    rw [show s.thread h = {} from hth h]
    rfl
  · rintro s ⟨h, a⟩ s' - - hs
    obtain ⟨d, l, hstep, rfl⟩ := Pool.machine_step.1 hs
    have hupd : (fun k => (Function.update s.thread h l k).pc.dataCall cfg) =
        Function.update (fun k => (s.thread k).pc.dataCall cfg) h (l.pc.dataCall cfg) :=
      Function.comp_update (fun l : ClientHandler H => l.pc.dataCall cfg) s.thread h l
    simp only [hupd]
    rcases handlerStep_data hstep with ⟨hd, hcall⟩ | ⟨b, hb⟩
    · left
      rw [hd, hcall, Function.update_eq_self]
    · exact .inr ⟨(h, b), trivial, Pool.machine_step.2 ⟨_, _, hb, rfl⟩⟩

omit [DecidableEq H] in
theorem pc_of_writing {pc₀ : HandlerPc H} {id content : Json} {u : Text} {pc : WritePc}
    (hw : pc₀.work = .writing id content u pc) : pc₀ = .write id content u pc := by
  cases pc₀ <;> cases hw
  rfl

omit [DecidableEq H] in
theorem role_of_appending {pc₀ : HandlerPc H} (hw : pc₀.work.appending = true) :
    (pc₀.dataCall cfg).role = .writer := by
  unfold Work.appending at hw
  split at hw
  · rename_i h
    rw [pc_of_writing h]
    rfl
  · rename_i h
    rw [pc_of_writing h]
    rfl
  · cases hw

variable [Fintype H]

theorem serviceInv_of_reachable {file : Bytes}
    {p : Pool.State H (DistResServer H) (ClientHandler H) × ServiceHistory H}
    (hr : (servingServer cfg H file).Reachable p) :
    ServiceInv cfg p.2 file p.1.shared p.1.thread := by
  refine hr.invariant (fun p => ServiceInv cfg p.2 file p.1.shared p.1.thread) ?_ ?_
  · rintro ⟨s, L⟩ ⟨⟨hs, hth⟩, rfl⟩
    have hs : s.shared = { data := { file := file }, sessions := cfg.maxSessions } := hs
    refine ⟨fun h => ?_, List.nodup_nil, nofun, List.nodup_nil, nofun, by rw [hs]; rfl,
      by rw [hs]; simp, by rw [hs]; exact fun _ _ => nofun⟩
    rw [show s.thread h = {} from hth h]
    trivial
  · rintro ⟨s, L⟩ ⟨h, a⟩ ⟨s', L'⟩ hr hi hs
    obtain ⟨hserver, hh⟩ := Machine.withHistory_step.1 hs
    obtain ⟨d, l, hstep, rfl⟩ := Pool.machine_step.1 hserver
    simp only at hh hi ⊢
    subst hh
    refine hi.step (handlerStep_serves hstep) fun id content u pc hw hpc k hk => ?_
    -- a writer is alone
    have hl := lockInv_of_reachable (server_uses_data (Machine.Reach.erase hr))
    have hrole : ((s.thread h).pc.dataCall cfg).role = .writer := by
      rw [pc_of_writing hw]
      rcases hpc with rfl | ⟨rec, rest, rfl⟩ <;> rfl
    by_contra hk'
    exact hk ((hl.writer_alone hrole).1 (role_of_appending (by simpa using hk'))).symm

end Reachable

end DistRes
