import DistRes.JsonRoundTrip
import DistRes.Replies

/-!
# What the server's messages hold

What a handler sends is made of what it has got, of the file, and of texts and numbers of its own.

* `Contents` — what may stand in a message;
* `fits_handlerStep` and `fits_sockets` — what a handler sends holds nothing else if what it gets does;
* `delivered_as_sent` — no message of the server has a surrogate pair.
-/

namespace DistRes

open Lib

/-! ## What a message may hold -/

/-- The values that may stand in a message; of the strings all those without surrogate pairs. -/
structure Contents where
  value : Json → Prop
  null : value .null
  text : ∀ s, value (.str s) ↔ PairFree s
  below : ∀ {m n : ℕ}, m ≤ n → value (.int n) → value (.int m)

/-- A dict of such values, whose keys have no pairs. -/
def Json.dictOf (V : Json → Prop) (x : Json) : Prop :=
  ∃ fields, x = .obj fields ∧ (fields.map Prod.fst).Nodup ∧ ∀ e ∈ fields, PairFree e.1 ∧ V e.2

theorem Json.dictOf.mono {V W : Json → Prop} {x : Json} (hx : x.dictOf V) (h : ∀ y, V y → W y) :
    x.dictOf W := by
  obtain ⟨fields, rfl, hnd, hfields⟩ := hx
  exact ⟨fields, rfl, hnd, fun e he => (hfields e he).imp_right (h e.2)⟩

section Texts

variable {s : Text}

theorem encodable_universalNewlines (h : encodable s = true) : encodable (universalNewlines s) = true := by
  have hlf : encodable [10] = true := rfl
  simp only [encodable, List.all_eq_true] at h hlf ⊢
  fun_induction universalNewlines s with
  | case1 => exact List.forall_mem_nil _
  | case2 => exact hlf
  | case3 r ih =>
    refine List.forall_mem_cons.2 ⟨hlf 10 List.mem_cons_self, ih fun c hc => h c ?_⟩
    exact List.mem_cons_of_mem _ (List.mem_cons_of_mem _ hc)
  | case4 d r hd ih =>
    exact List.forall_mem_cons.2 ⟨hlf 10 List.mem_cons_self, ih fun c hc => h c (List.mem_cons_of_mem _ hc)⟩
  | case5 c s hc ih =>
    exact List.forall_mem_cons.2 ⟨h c List.mem_cons_self, ih fun c hc => h c (List.mem_cons_of_mem _ hc)⟩

/-- What is read from the file has no surrogates. -/
theorem pairFree_of_readText {file : Bytes} (h : readText file = some s) : PairFree s := by
  obtain ⟨t, ht, rfl⟩ := Option.map_eq_some_iff.1 h
  exact .of_encodable (encodable_universalNewlines (utf8Decode_eq_some.1 ht).2)

end Texts

section Contents

variable (K : Contents) {H : Type}

/-- A REQUEST as a handler gets it. -/
structure Arrives (cfg : Config) (fields : Message) : Prop where
  value : ∀ {key x}, field? fields key = some x → K.value x
  /-- the action is named in the message of an error -/
  action : hashable (getField fields (lit "action")) = true →
    PairFree (pyFormat cfg.strRepr (getField fields (lit "action")))

/-- What the RESPONSE carries fits. -/
structure Response.Fits (r : Response) : Prop where
  id : K.value r.id
  status : PairFree r.status
  message : ∀ m, r.message = some m → PairFree m
  version : ∀ v, r.version = some v → K.value (.int v)
  content : ∀ c, r.content = some c → PairFree c

/-- What the payload carries fits. -/
structure Update.Fits (p : Update) : Prop where
  version : K.value (.int p.version)
  updatedBy : ∀ u, p.updatedBy = some u → PairFree u
  summary : K.value p.summary

def Result.Fits (r : Result) : Prop := PairFree r.text ∧ K.value (.int r.version)

def Next.Fits : Next → Prop
  | .publish version text => K.value (.int version) ∧ K.value text
  | .loop | .release => True

def LoginPc.Fits : LoginPc → Prop
  | .authenticate u _ => K.value u
  | .isActive u _ | .acquire u _ | .hold u _ | .register u _ | .subscribe u | .version u => PairFree u

def ReadPc.Fits : ReadPc → Prop
  | .stamp content => PairFree content
  | .release (.ok r) | .done (.ok r) => r.Fits K
  | _ => True

def WritePc.Fits : WritePc → Prop
  | .release (.ok r) | .done (.ok r) => r.Fits K
  | _ => True

def PublishPc.Fits {C : Type} : PublishPc C → Prop
  | .snapshot topic p => PairFree topic ∧ p.Fits K
  | .deliver e _ _ | .drop _ e _ _ => PairFree e.topic ∧ e.payload.Fits K
  | .done _ => True

def HandlerPc.Fits : HandlerPc H → Prop
  | .respond r next => r.Fits K ∧ next.Fits K
  | .login id pc => K.value id ∧ pc.Fits K
  | .read id _ pc => K.value id ∧ pc.Fits K
  | .readDone id _ r => K.value id ∧ r.Fits K
  | .write id content _ pc => K.value id ∧ K.value content ∧ pc.Fits K
  | .writeDone id content _ r => K.value id ∧ K.value content ∧ r.Fits K
  | .publish pc => pc.Fits K
  | .connecting | .recv | .release _ _ | .ended => True

/-- What the handler has to send fits, and so does the user it is for. -/
structure ClientHandler.Fits (l : ClientHandler H) : Prop where
  userId : ∀ u, l.userId = some u → PairFree u
  pc : l.pc.Fits K

/-- What the message holds fits. -/
def ServerMessage.Fits : ServerMessage → Prop
  | .response r => r.Fits K
  | .event e => PairFree e.topic ∧ e.payload.Fits K

variable {K} {l l' : ClientHandler H}

theorem Arrives.getField {cfg : Config} {fields : Message} (hf : Arrives K cfg fields) (key : Text) :
    K.value (getField fields key) := by
  unfold DistRes.getField
  cases hx : field? fields key with
  | none => exact K.null
  | some x => exact hf.value hx

/-! ### The messages -/

theorem dictOf_response {r : Response} (hr : r.Fits K) : r.toJson.dictOf K.value := by
  obtain ⟨id, status, message, version, content⟩ := r
  have key : ∀ a b c : Bool, ([lit "type", lit "id", lit "status"] ++ (if a then [lit "message"] else []) ++
      (if b then [lit "version"] else []) ++ if c then [lit "content"] else []).Nodup := by decide
  have hkey := key message.isSome version.isSome content.isSome
  refine ⟨_, rfl, ?_, fun e he => ?_⟩
  · cases message <;> cases version <;> cases content <;> exact hkey
  · simp only [List.mem_append, List.mem_cons, List.not_mem_nil, or_false, Option.mem_toList,
      Option.map_eq_some_iff] at he
    rcases he with (((rfl | rfl | rfl) | ⟨m, hm, rfl⟩) | ⟨v, hv, rfl⟩) | ⟨c, hc, rfl⟩
    · exact ⟨.of_encodable rfl, (K.text _).2 (.of_encodable rfl)⟩
    · exact ⟨.of_encodable rfl, hr.id⟩
    · exact ⟨.of_encodable rfl, (K.text _).2 hr.status⟩
    · exact ⟨.of_encodable rfl, (K.text _).2 (hr.message m hm)⟩
    · obtain ⟨n, hn, ⟨⟩⟩ := Option.bind_eq_some_iff.1 hv
      exact ⟨.of_encodable rfl, hr.version n hn⟩
    · exact ⟨.of_encodable rfl, (K.text _).2 (hr.content c hc)⟩

theorem dictOf_update {p : Update} (hp : p.Fits K) : p.toJson.dictOf K.value := by
  have hkeys : [lit "version", lit "updated_by", lit "summary"].Nodup := by decide
  refine ⟨_, rfl, hkeys, ?_⟩
  simp only [List.forall_mem_cons, List.not_mem_nil, false_imp_iff, implies_true, and_true]
  refine ⟨⟨.of_encodable rfl, hp.version⟩, ⟨.of_encodable rfl, ?_⟩, .of_encodable rfl, hp.summary⟩
  cases hu : p.updatedBy with
  | none => exact K.null
  | some u => exact (K.text _).2 (hp.updatedBy u hu)

/-- A message is a dict of such values; an EVENT has its payload besides, which is one itself. -/
theorem ServerMessage.Fits.dictOf {m : ServerMessage} (hm : m.Fits K) :
    m.toJson.dictOf fun x => K.value x ∨ x.dictOf K.value := by
  cases m with
  | response r => exact (dictOf_response hm).mono fun _ => .inl
  | event e =>
    have hkeys : [lit "type", lit "topic", lit "payload"].Nodup := by decide
    refine ⟨_, rfl, hkeys, ?_⟩
    simp only [List.forall_mem_cons, List.not_mem_nil, false_imp_iff, implies_true, and_true]
    exact ⟨⟨.of_encodable rfl, .inl ((K.text _).2 (.of_encodable rfl))⟩,
      ⟨.of_encodable rfl, .inl ((K.text _).2 hm.1)⟩, .of_encodable rfl, .inr (dictOf_update hm.2)⟩

/-! ### A step of a handler -/

section Steps

variable {cfg : Config} {h : H} {s s' : DistResServer H} {a : HandlerAct}

theorem ClientHandler.Fits.goto (hl : l.Fits K) {pc : HandlerPc H} (hpc : pc.Fits K) :
    ({ l with pc } : ClientHandler H).Fits K := ⟨hl.userId, hpc⟩

theorem ClientHandler.Fits.releaseSession (hl : l.Fits K) (caller : Caller) :
    (l.releaseSession caller).Fits K := by
  unfold ClientHandler.releaseSession
  split
  · exact hl.goto trivial
  · exact hl.goto trivial
  · exact hl.goto (by cases caller <;> trivial)

theorem ClientHandler.Fits.cleanup (hl : l.Fits K) : l.cleanup.Fits K := hl.releaseSession .cleanup

theorem ClientHandler.Fits.reject (hl : l.Fits K) {id : Json} {message : Text}
    (hid : K.value id) (hm : PairFree message) : (l.reject id message).Fits K := by
  refine hl.goto ⟨⟨hid, .of_encodable rfl, ?_, nofun, nofun⟩, trivial⟩
  rintro _ ⟨⟩
  exact hm

theorem fits_proceed (hl : l.Fits K) {next : Next} (hn : next.Fits K) : (l.proceed next).Fits K := by
  cases next with
  | loop => exact hl.goto trivial
  | publish version text => exact hl.goto ⟨.of_encodable rfl, hn.1, hl.userId, hn.2⟩
  | release => exact hl.releaseSession .logout

theorem fits_dispatch (hl : l.Fits K) {m : Json} (hm : ∀ fields, m = .obj fields → Arrives K cfg fields) :
    (l.dispatch cfg m).Fits K := by
  have hd := dispatch_cases cfg l m
  generalize l.dispatch cfg m = l' at hd
  cases hd with
  | notDict | unhashable => exact hl.cleanup
  | ignored => exact hl.goto trivial
  | login => exact hl.goto ⟨(hm _ rfl).getField _, (hm _ rfl).getField _⟩
  | refused => exact hl.reject ((hm _ rfl).getField _) (.of_encodable rfl)
  | read => exact hl.goto ⟨(hm _ rfl).getField _, trivial⟩
  | @write fields u =>
    refine hl.goto ⟨(hm _ rfl).getField _, ?_, trivial⟩
    cases hx : field? fields (lit "content") with
    | none => exact (K.text _).2 (.of_encodable rfl)
    | some x => exact (hm _ rfl).value hx
  | logout | ping =>
    refine hl.goto ⟨⟨(hm _ rfl).getField _, .of_encodable rfl, ?_, nofun, nofun⟩, trivial⟩
    rintro _ ⟨⟩
    exact .of_encodable rfl
  | unknown hreq hhash =>
    exact hl.reject ((hm _ rfl).getField _) (((hm _ rfl).action hhash).around rfl rfl)

theorem fits_publish {b b' : PubSubBroker H} {ok : Bool} {pc pc' : PublishPc H} {x : Option (H × Event)}
    (hp : publish b ok pc = some (b', pc', x)) (hpc : pc.Fits K) : pc'.Fits K := by
  unfold publish at hp
  split at hp
  · cases hp
    exact hpc
  · split_ifs at hp <;> cases hp <;> exact hpc
  · cases hp
    trivial
  · cases hp
    exact hpc
  · cases hp

theorem fits_handleLogin (hl : l.Fits K) {id : Json} {pc : LoginPc} (hid : K.value id)
    (hpc : pc.Fits K) (hv : K.value (.int s.data.version)) :
    (handleLogin cfg h s l id pc).2.Fits K := by
  cases pc with
  | authenticate u n =>
    simp only [handleLogin]
    split
    · exact hl.goto ⟨hid, (K.text _).1 hpc⟩
    · exact hl.reject hid (.of_encodable rfl)
    · exact hl.cleanup
  | isActive u n =>
    simp only [handleLogin]
    split
    · have hu : PairFree ([] ++ u ++ lit " is already logged in elsewhere") := hpc.around rfl rfl
      exact hl.reject hid hu
    · exact hl.goto ⟨hid, hpc⟩
  | acquire u n =>
    simp only [handleLogin]
    split
    · refine hl.reject hid (.around rfl (.of_encodable (Printable.encodable ?_)) rfl)
      have := (intNumeral_valid (cfg.maxSessions : ℤ)).printable
      rwa [intNumeral_text] at this
    · exact hl.goto ⟨hid, hpc⟩
  | hold u n =>
    refine ⟨?_, hid, hpc⟩
    rintro _ ⟨⟩
    exact hpc
  | register u n | subscribe u => exact hl.goto ⟨hid, hpc⟩
  | version u =>
    refine hl.goto ⟨⟨hid, .of_encodable rfl, ?_, ?_, ?_⟩, trivial⟩
    · rintro _ ⟨⟩
      have hu : PairFree (lit "Logged in as " ++ u ++ []) := hpc.around rfl rfl
      rwa [List.append_nil] at hu
    · rintro _ ⟨⟩
      exact hv
    · rintro _ ⟨⟩

theorem fits_releaseStep (hl : l.Fits K) (caller : Caller) (pc : ReleasePc) :
    (releaseStep cfg s l caller pc).2.Fits K := by
  cases pc with
  | unsubscribe | unregister => exact hl.goto trivial
  | clear =>
    have hnone : ({ l with userId := none } : ClientHandler H).Fits K := ⟨nofun, hl.pc⟩
    exact hnone.releaseSession caller
  | free =>
    simp only [releaseStep]
    split
    · exact hl.goto trivial
    · cases caller with
      | logout => exact hl.cleanup
      | cleanup => exact hl.goto trivial
  | unhold => exact ⟨hl.userId, by cases caller <;> trivial⟩

variable [DecidableEq H]

theorem fits_readResource {t : H} {e e' : DataLayer H} {pc pc' : ReadPc} {b : DataAct}
    (hs : readResource t e pc b = some (e', pc')) (hpc : pc.Fits K) (hv : K.value (.int e.version)) :
    pc'.Fits K := by
  cases readResource_cases hs with
  | acquire p q =>
    unfold ReadPc.ofAcquire
    split <;> trivial
  | wake | calledBack | callbackRaised | unreadable | loadRaised => trivial
  | refused => exact ⟨.of_encodable rfl, hv⟩
  | loaded content hc => exact pairFree_of_readText hc
  | stamped content => exact ⟨hpc, hv⟩
  | released o k => cases o <;> exact hpc

theorem fits_writeResource {t : H} {e e' : DataLayer H} {u x : Text} {pc pc' : WritePc} {b : DataAct}
    (hs : writeResource t u x e pc b = some (e', pc')) (hpc : pc.Fits K)
    (hv : K.value (.int e'.version)) : pc'.Fits K := by
  cases writeResource_cases hs with
  | acquire p q =>
    unfold WritePc.ofAcquire
    split <;> trivial
  | wake | calledBack | callbackRaised | opened | unencodable | openRaised | flushed | closed
  | appendRaised | closeRaised => trivial
  | refused | bumped => exact ⟨.of_encodable rfl, hv⟩
  | released o k => cases o <;> exact hpc

/-- **A step of a handler** keeps what it has to send fitting. -/
theorem fits_handlerStep (hs : handlerStep cfg h s l a = some (s', l')) (hl : l.Fits K)
    (hm : ∀ fields, a = .receive (.obj fields) → Arrives K cfg fields) (hv' : K.value (.int s'.data.version)) :
    l'.Fits K := by
  have hv : K.value (.int s.data.version) := K.below (handlerStep_version hs) hv'
  have hpc := hl.pc
  cases handlerStep_cases hs with
  | accept => exact hl.goto trivial
  | receive m =>
    refine fits_dispatch hl ?_
    rintro fields rfl
    exact hm fields rfl
  | hangup | unsent | authenticate | readRaised | writeRaised => exact hl.cleanup
  | respond r next h =>
    rw [h] at hpc
    exact fits_proceed hl hpc.2
  | login id pc h =>
    rw [h] at hpc
    exact fits_handleLogin hl hpc.1 hpc.2 hv
  | read id u pc b h hread =>
    rw [h] at hpc
    obtain ⟨e, pc', hdata, hin, rfl⟩ := handleRead_cases hread
    exact hl.goto ⟨hpc.1, fits_readResource hdata hpc.2 hv⟩
  | readReturns id u r h =>
    rw [h] at hpc
    exact hl.goto hpc
  | readDone id u r h =>
    rw [h] at hpc
    split
    · refine hl.goto ⟨⟨hpc.1, .of_encodable rfl, nofun, ?_, ?_⟩, trivial⟩
      · rintro _ ⟨⟩
        exact hpc.2.2
      · rintro _ ⟨⟩
        exact hpc.2.1
    · exact hl.reject hpc.1 hpc.2.1
  | write id content u pc b h hwrite =>
    rw [h] at hpc
    obtain ⟨e, pc', hdata, hin, rfl⟩ := handleWrite_cases hwrite
    exact hl.goto ⟨hpc.1, hpc.2.1, fits_writeResource hdata hpc.2.2 (hin.data ▸ hv')⟩
  | writeReturns id content u r h =>
    rw [h] at hpc
    exact hl.goto hpc
  | writeDone id content u r h =>
    rw [h] at hpc
    split
    · refine hl.goto ⟨⟨hpc.1, .of_encodable rfl, ?_, ?_, nofun⟩, hpc.2.2.2, hpc.2.1⟩
      · rintro _ ⟨⟩
        exact hpc.2.2.1
      · rintro _ ⟨⟩
        exact hpc.2.2.2
    · exact hl.reject hpc.1 hpc.2.2.1
  | publish pc pc' ok b x h hok hp =>
    rw [h] at hpc
    exact hl.goto (fits_publish hp hpc)
  | published => exact hl.goto trivial
  | release pc caller => exact fits_releaseStep hl caller pc

/-- What it sends fits. -/
theorem fits_sockets (hs : handlerStep cfg h s l a = some (s', l')) (hl : l.Fits K)
    (hi : ∀ k, ∀ m ∈ s.sockets k, m.Fits K) : ∀ k, ∀ m ∈ s'.sockets k, m.Fits K := by
  have send : ∀ (k : H) (x : ServerMessage), x.Fits K → s' = s.send k x →
      ∀ t, ∀ m ∈ s'.sockets t, m.Fits K := by
    rintro k x hx rfl t m hm
    simp only [DistResServer.send] at hm
    by_cases ht : t = k
    · rw [ht, Function.update_self] at hm
      rcases List.mem_append.1 hm with hm | hm
      · exact hi k m hm
      · rwa [List.mem_singleton.1 hm]
    · rw [Function.update_of_ne ht] at hm
      exact hi t m hm
  have hpc := hl.pc
  cases handlerStep_sends hs with
  | nothing hsock => rwa [hsock]
  | response r next h _ hs =>
    rw [h] at hpc
    exact send _ (.response r) hpc.1 hs
  | event e u k todo n h _ hs =>
    rw [h] at hpc
    exact send _ (.event e) hpc hs

end Steps

end Contents

/-! ## In the system -/

section System

variable {C U H : Type} [DecidableEq C] [DecidableEq U] [DecidableEq H] {cfg : Config} {file : Bytes}
  {K : Contents} {s s' : System C U H} {a : SystemAct C U H}

/-- What the server has sent and has to send fits. -/
structure System.Fits (K : Contents) (s : System C U H) : Prop where
  threads : ∀ h, (s.server.thread h).Fits K
  sockets : ∀ h, ∀ m ∈ s.server.shared.sockets h, m.Fits K

theorem System.Fits.step (hi : s.Fits K) (hs : systemStep cfg file s a = some s')
    (harr : ∀ h fields, s.serverAct a = some (h, .receive (.obj fields)) → Arrives K cfg fields)
    (hv : K.value (.int s'.server.shared.data.version)) : s'.Fits K := by
  rcases systemStep_cases hs with ⟨c, act, x, -, -, rfl⟩ | ⟨h, act, e, -, hact, hserver, rfl⟩
  · exact ⟨by simpa using hi.threads, by simpa using hi.sockets⟩
  · obtain ⟨g, l, hstep, rfl⟩ := Pool.machine_step.1 hserver
    refine ⟨fun k => ?_, fits_sockets hstep (hi.threads h) hi.sockets⟩
    by_cases hk : k = h
    · subst hk
      simp only [Function.update_self]
      refine fits_handlerStep hstep (hi.threads k) ?_ hv
      rintro fields rfl
      exact harr k fields hact
    · simpa [hk] using hi.threads k

theorem System.Fits.init {L : SystemHistory C U H} (hinit : (systemMachine cfg file C U H).init (s, L)) :
    s.Fits K := by
  obtain ⟨⟨-, ⟨hshared, hthreads⟩, -⟩, -⟩ := hinit
  have hshared : s.server.shared = { data := { file }, sessions := cfg.maxSessions } := hshared
  have hthreads : ∀ h, s.server.thread h = {} := hthreads
  refine ⟨fun h => ?_, fun h m hm => ?_⟩
  · rw [hthreads]
    exact ⟨nofun, trivial⟩
  · rw [hshared] at hm
    cases hm

omit [DecidableEq C] [DecidableEq U] [DecidableEq H] in
/-- A handler gets what its client has sent. -/
theorem request_of_serverAct {h : H} {m : Json} (hact : s.serverAct a = some (h, .receive m)) :
    ∃ c r, r ∈ (s.client c).conn.sent h ∧ m = .obj r.arriving := by
  unfold System.serverAct at hact
  split at hact
  · cases hact
  · split at hact <;> cases hact
  · rename_i hne _
    cases hact
    exact absurd rfl (hne m)
  · obtain ⟨c, -, hact⟩ := Option.bind_eq_some_iff.1 hact
    obtain ⟨r, hr, heq⟩ := Option.map_eq_some_iff.1 hact
    cases heq
    exact ⟨c, r, List.mem_of_getElem? hr, rfl⟩
  · cases hact

/-! ### Surrogate pairs -/

/-- What arrives as it is. -/
def pairFreeContents : Contents where
  value x := x.joined = x
  null := rfl
  text s := by rw [Json.joined, Json.str.injEq, joinPairs_eq_self]
  below _ _ := rfl

theorem arrives_of_plain {r : Request} (hp : plainParams r.params = true) :
    Arrives pairFreeContents cfg r.arriving := by
  refine ⟨fun {key x} hx => ?_, fun _ => ?_⟩
  · obtain ⟨e, he, rfl⟩ := Option.map_eq_some_iff.1 hx
    obtain ⟨f, -, rfl⟩ := mem_joinFields (List.mem_of_find?_eq_some he)
    exact joined_joined f.2
  · rw [(getField_of_plain hp).2.2]
    exact joinPairs_pairFree r.action

theorem joined_of_dictOf {x : Json} (hx : x.dictOf fun y => y.joined = y) : x.joined = x := by
  obtain ⟨fields, rfl, hnd, hfields⟩ := hx
  exact congrArg Json.obj (joinFields_eq_self hnd hfields)

/-- **The messages of the server arrive as they are.** -/
theorem delivered_as_sent {p : System C U H × SystemHistory C U H}
    (hr : (systemMachine cfg file C U H).Reach (fun _ a => a.plain = true) p) (h : H) :
    ∀ m ∈ p.1.server.shared.sockets h, m.toJson.joined = m.toJson := by
  have hfits : p.1.Fits pairFreeContents := by
    refine hr.invariant (fun p => p.1.Fits pairFreeContents) ?_ ?_
    · exact fun p hp => .init hp
    · rintro ⟨s, L⟩ a ⟨s', L'⟩ hr hi - hs
      refine hi.step (Machine.withHistory_step.1 hs).1 (fun h fields hact => ?_) rfl
      obtain ⟨c, r, hsent, heq⟩ := request_of_serverAct hact
      cases heq
      have hclient := client_of_system hr c
      exact arrives_of_plain ((plainInv_of_reach hclient).2 r
        ((sentInv_of_reachable hclient.reachable).sent h r hsent))
  refine fun m hm => joined_of_dictOf (((hfits.sockets h m hm).dictOf).mono ?_)
  rintro y (hy | hy)
  · exact hy
  · exact joined_of_dictOf hy

end System

end DistRes
