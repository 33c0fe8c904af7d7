import DistRes.Replies
import DistRes.Transcript

/-!
# Every request is answered

On one connection, where sends and the file work, the RESPONSEs carry the ids of the REQUESTs, one for
each and in order, until a request raises in its handler: one whose action is no key of a dict, a LOGIN
that the credential query cannot be asked, a WRITE whose record cannot be encoded, or a request whose id
is nested so deeply that `json.dumps` gives up on the RESPONSE.

* `Works` — what the environment owes: nothing raises but the handling of the messages themselves;
* `Answerable` — the step does not raise for what is in the message;
* `Handled` — the invariant, and `Unanswered`, what an unanswerable request leads to;
* `answered_in_order_iff` — the requests are answered if and only if they are answerable.
-/

namespace DistRes

open Lib

/-! ## What may raise -/

section Raises

variable {H : Type}

/-- A file operation of the step raises. -/
def storageFails : HandlerPc H → HandlerAct → Bool
  | .read _ _ .load, .data .fail => true
  | .write _ _ _ .openFile, .data .fail => true
  | .write _ _ _ (.append _ _), .data .fail => true
  | .write _ _ _ (.bump _), .data .fail => true
  | _, _ => false

/-- The socket raises under a RESPONSE that can be encoded, or the query of the credentials or the callback
of the data layer raises. -/
def serviceFails (cfg : Config) : HandlerPc H → HandlerAct → Bool
  | .respond r _, .fail => cfg.encodes (.response r)
  | .login _ (.authenticate _ _), .fail => true
  | .read _ _ .callback, .data .fail => true
  | .write _ _ _ .callback, .data .fail => true
  | _, _ => false

/-- The message of the step, if there is one, is a JSON object. -/
def getsObject : HandlerAct → Bool
  | .receive (.obj _) => true
  | .receive _ => false
  | _ => true

theorem eq_obj_of_getsObject {m : Json} (h : getsObject (.receive m) = true) :
    ∃ fields, m = .obj fields := by
  cases m with
  | obj fields => exact ⟨fields, rfl⟩
  | _ => cases h

/-- Only a step that raises fails. -/
theorem works_of_ne (cfg : Config) {pc : HandlerPc H} {a : HandlerAct} (h : a ≠ .fail)
    (h' : a ≠ .data .fail) : storageFails pc a = false ∧ serviceFails cfg pc a = false := by
  constructor
  · unfold storageFails
    split <;> first | rfl | exact absurd rfl h'
  · unfold serviceFails
    split <;> first | rfl | exact absurd rfl h | exact absurd rfl h'

/-- The step does not raise for what is in the message: it looks up no action that is no key of a
dict, queries for no value that cannot be bound, opens no record that cannot be encoded, and dumps no
RESPONSE that is nested too deeply. -/
def AnswerableStep (cfg : Config) : HandlerPc H → HandlerAct → Prop
  | .recv, .receive (.obj fields) => isRequest fields → hashable (actionOf fields) = true
  | .login _ (.authenticate u n), .go => bindable u = true ∧ bindable n = true
  | .write _ content u .openFile, .data (.openAt stamp) =>
    encodable (record stamp u (pyFormat cfg.strRepr content)) = true
  | .respond r _, .fail => cfg.encodes (.response r) = true
  | _, _ => True

end Raises

/-! ## Ids -/

/-- The id of a REQUEST that has come in. -/
def requestId : ConnEvent → Option Json
  | .received (.obj fields) =>
    match getField fields (lit "type") with
    | .str t => if t = typeRequest then some (idOf fields) else none
    | _ => none
  | _ => none

/-- The ids of the REQUESTs of a transcript. -/
def requestIds (log : List ConnEvent) : List Json := log.filterMap requestId

/-- The ids of its RESPONSEs. -/
def answerIds (log : List ConnEvent) : List Json := (answersIn log).map Response.id

theorem requestId_request {fields : List (Text × Json)} (h : isRequest fields) :
    requestId (.received (.obj fields)) = some (idOf fields) := by
  have h : getField fields (lit "type") = .str typeRequest := h
  simp [requestId, h]

theorem requestId_other {fields : List (Text × Json)} (h : ¬ isRequest fields) :
    requestId (.received (.obj fields)) = none := by
  have h : getField fields (lit "type") ≠ .str typeRequest := h
  simp only [requestId]
  split
  · rename_i t ht
    exact if_neg fun heq => h (by rw [ht, heq])
  · rfl

theorem requestIds_concat (log : List ConnEvent) (e : ConnEvent) :
    requestIds (log ++ [e]) = requestIds log ++ (requestId e).toList := by
  cases h : requestId e <;> simp [requestIds, h]

theorem answerIds_append (log log' : List ConnEvent) :
    answerIds (log ++ log') = answerIds log ++ answerIds log' := by
  simp [answerIds, answersIn]

/-- The id of the request that a handler works for. -/
def HandlerPc.inHand {H : Type} : HandlerPc H → List Json
  | .respond r _ => [r.id]
  | .login id _ | .read id _ _ | .readDone id _ _ | .write id _ _ _ | .writeDone id _ _ _ => [id]
  | _ => []

/-! ## The request in hand -/

/-- The transcript ends with the REQUEST `fields`, and with what has happened for it so far. -/
structure Pending (log : List ConnEvent) (fields : List (Text × Json))
    (before since : List ConnEvent) : Prop where
  split : log = before ++ .received (.obj fields) :: since
  request : isRequest fields
  alone : ∀ e ∈ since, (∀ m, e ≠ .received m) ∧ ∀ r, e ≠ .answered r

theorem Pending.concat {log : List ConnEvent} {fields : List (Text × Json)}
    {before since : List ConnEvent} (hp : Pending log fields before since) {e : ConnEvent}
    (hm : ∀ m, e ≠ .received m) (hr : ∀ r, e ≠ .answered r) :
    Pending (log ++ [e]) fields before (since ++ [e]) := by
  refine ⟨by rw [hp.split]; simp, hp.request, fun d hd => ?_⟩
  rcases List.mem_append.1 hd with hd | hd
  · exact hp.alone d hd
  · rw [List.mem_singleton.1 hd]
    exact ⟨hm, hr⟩

/-- A request that may succeed: its action has a method, a LOGIN has got a slot, and a READ or a WRITE
has come in a session. -/
structure Sound (fields : List (Text × Json)) (before since : List ConnEvent) : Prop where
  known : ∃ a ∈ knownActions, actionOf fields = .str a
  login : actionOf fields = .str actionLogin → .slot true ∈ since
  session : actionOf fields = .str actionRead ∨ actionOf fields = .str actionWrite →
    ∃ u, LatestLogin before u

/-- The RESPONSE answers the REQUEST `fields`: with its id, and with an error unless it is sound. -/
structure Answered (fields : List (Text × Json)) (before since : List ConnEvent) (r : Response) :
    Prop where
  id : r.id = idOf fields
  status : r.status = statusOk ∨ r.status = statusError
  sound : r.status = statusOk → Sound fields before since

/-- Every RESPONSE answers the last message, which is a REQUEST that has had none. -/
def Replied (log : List ConnEvent) (e : ConnEvent) : Prop :=
  ∀ r, e = .answered r → ∃ fields before since, Pending log fields before since ∧
    Answered fields before since r

/-- A LOGIN that has got its slot. -/
def LoginPc.admitted : LoginPc → Bool
  | .authenticate _ _ | .isActive _ _ | .acquire _ _ => false
  | _ => true

/-- A read that has not raised, at a point that `read_resource` comes to. -/
structure ReadPc.Fine (pc : ReadPc) : Prop where
  raised : ∀ e, pc.outcome ≠ some (.error e)
  acquiring : ∀ b, pc ≠ .acquire (.returned b)

/-- A write that has not raised, at a point that `write_resource` comes to. -/
structure WritePc.Fine (pc : WritePc) : Prop where
  raised : ∀ e, pc.outcome ≠ some (.error e)
  acquiring : ∀ b, pc ≠ .acquire (.returned b)
  appending : ∀ rec, pc ≠ .append rec []

/-- Where a handler stands with the request in its hands. -/
def HandlerPc.handles {H : Type} (log : List ConnEvent) : HandlerPc H → Prop
  | .respond r _ => ∃ fields before since, Pending log fields before since ∧
      Answered fields before since r
  | .login id pc => ∃ fields before since, Pending log fields before since ∧ id = idOf fields ∧
      actionOf fields = .str actionLogin ∧ (pc.admitted = true → .slot true ∈ since)
  | .read id u pc => ∃ fields before since, Pending log fields before since ∧ id = idOf fields ∧
      actionOf fields = .str actionRead ∧ LatestLogin before u ∧ pc.Fine
  | .readDone id u _ => ∃ fields before since, Pending log fields before since ∧ id = idOf fields ∧
      actionOf fields = .str actionRead ∧ LatestLogin before u
  | .write id _ u pc => ∃ fields before since, Pending log fields before since ∧ id = idOf fields ∧
      actionOf fields = .str actionWrite ∧ LatestLogin before u ∧ pc.Fine
  | .writeDone id _ u _ => ∃ fields before since, Pending log fields before since ∧ id = idOf fields ∧
      actionOf fields = .str actionWrite ∧ LatestLogin before u
  | .release _ .cleanup | .ended => .hungUp ∈ log
  | _ => True

/-- **The invariant of a connection whose requests are answerable.**  The ids of the RESPONSEs are those
of the REQUESTs but for the one in hand, every RESPONSE answers, and the handler gives up only when the
client has. -/
structure Handled {H : Type} (log : List ConnEvent) (l : ClientHandler H) : Prop where
  ids : requestIds log = answerIds log ++ l.pc.inHand
  handles : l.pc.handles log
  replied : InPlace Replied log

/-- A handler that is on its way out with an exception. -/
def HandlerPc.lost {H : Type} : HandlerPc H → Bool
  | .release _ .cleanup | .ended => true
  | .write _ _ _ (.release (.error _)) | .write _ _ _ (.done (.error _)) => true
  | _ => false

/-- **What an unanswerable request leads to**: it has no RESPONSE, and its handler is on its way out
though the client has not hung up. -/
structure Unanswered {H : Type} (log : List ConnEvent) (l : ClientHandler H) : Prop where
  ids : ∃ id, requestIds log = answerIds log ++ [id]
  open' : ConnEvent.hungUp ∉ log
  lost : l.pc.lost = true

/-! ## The steps of the data layer -/

section DataSteps

variable {T : Type} [DecidableEq T] {t : T} {d d' : DataLayer T} {b : DataAct}

theorem fine_ofAcquire_read (q : Acquire) : (ReadPc.ofAcquire q).Fine := by
  rcases q with _ | _ | _ | (_ | _) <;> exact ⟨nofun, nofun⟩

theorem fine_ofAcquire_write (q : Acquire) : (WritePc.ofAcquire q).Fine := by
  rcases q with _ | _ | _ | (_ | _) <;> exact ⟨nofun, nofun, nofun⟩

/-- A read whose file can be read, and whose callback and file do not raise, does not. -/
theorem readResource_fine {pc pc' : ReadPc} (hs : readResource t d pc b = some (d', pc'))
    (hpc : pc.Fine) (hload : pc = .load → readText d.file ≠ none)
    (hfail : pc = .load ∨ pc = .callback → b ≠ .fail) : pc'.Fine := by
  cases readResource_cases hs with
  | acquire p q expired l hl => exact fine_ofAcquire_read q
  | callbackRaised => exact absurd rfl (hfail (.inr rfl))
  | unreadable hnone => exact absurd hnone (hload rfl)
  | loadRaised => exact absurd rfl (hfail (.inl rfl))
  | released o k => exact ⟨hpc.raised, fun b h => (by cases h)⟩
  | _ => exact ⟨fun e h => (by cases h), fun b h => (by cases h)⟩

/-- A write whose record can be encoded, and whose callback and file do not raise, does not. -/
theorem writeResource_fine {u x : Text} {pc pc' : WritePc}
    (hs : writeResource t u x d pc b = some (d', pc')) (hpc : pc.Fine)
    (hopen : ∀ stamp, pc = .openFile → b = .openAt stamp → encodable (record stamp u x) = true)
    (hfail : pc = .openFile ∨ (∃ rec rest, pc = .append rec rest) ∨ (∃ rec, pc = .bump rec) ∨
      pc = .callback → b ≠ .fail) : pc'.Fine := by
  cases writeResource_cases hs with
  | acquire p q expired l hl => exact fine_ofAcquire_write q
  | callbackRaised => exact absurd rfl (hfail (.inr (.inr (.inr rfl))))
  | opened stamp henc =>
    exact ⟨fun e h => (by cases h), fun b h => (by cases h),
      fun rec h => utf8_record_ne_nil stamp u x (WritePc.append.inj h).2⟩
  | unencodable stamp henc => exact absurd (hopen stamp rfl rfl) henc
  | openRaised => exact absurd rfl (hfail (.inl rfl))
  | flushed rec rest n hd =>
    exact ⟨fun e h => (by cases h), fun b h => (by cases h), fun rec h => hd (WritePc.append.inj h).2⟩
  | appendRaised rec rest => exact absurd rfl (hfail (.inr (.inl ⟨rec, rest, rfl⟩)))
  | closeRaised rec => exact absurd rfl (hfail (.inr (.inr (.inl ⟨rec, rfl⟩))))
  | released o k => exact ⟨hpc.raised, fun b h => (by cases h), fun rec h => (by cases h)⟩
  | _ => exact ⟨fun e h => (by cases h), fun b h => (by cases h), fun rec h => (by cases h)⟩

/-- A call of the lock that has not returned goes on. -/
theorem acquire_goes_on {pc : Acquire} (h : ∀ b, pc ≠ .returned b) (d : DataLayer T) (t : T) :
    pc = .wait ∨ (∃ r, d.rwLock.acquireRead t false pc = some r) ∧
      ∃ r, d.rwLock.acquireWrite t false pc = some r := by
  cases pc with
  | wait => exact .inl rfl
  | returned b => exact absurd rfl (h b)
  | enter | woken => exact .inr ⟨⟨_, rfl⟩, ⟨_, rfl⟩⟩

/-- A read goes on until it is done. -/
theorem readResource_goes_on (t : T) (d : DataLayer T) {pc : ReadPc}
    (hacq : ∀ b, pc ≠ .acquire (.returned b)) (hdone : ∀ o, pc ≠ .done o) :
    ∃ b r, readResource t d pc b = some r ∧ b ≠ .fail := by
  cases pc with
  | acquire q =>
    have hq : ∀ b, q ≠ .returned b := fun b h => hacq b (by rw [h])
    rcases acquire_goes_on hq d t with rfl | ⟨⟨r, hr⟩, -⟩
    · exact ⟨.wake, _, rfl, nofun⟩
    · exact ⟨.lock false, _, Option.map_eq_some_iff.2 ⟨r, hr, rfl⟩, nofun⟩
  | refused | callback | stamp => exact ⟨.go, _, rfl, nofun⟩
  | load =>
    cases h : readText d.file with
    | none => exact ⟨.go, (d, .release (.error .unicode)), by simp only [readResource, h], nofun⟩
    | some content => exact ⟨.go, (d, .stamp content), by simp only [readResource, h], nofun⟩
  | release o => exact ⟨.release 0, _, rfl, nofun⟩
  | done o => exact absurd rfl (hdone o)

/-- A write goes on until it is done. -/
theorem writeResource_goes_on (t : T) (u x : Text) (d : DataLayer T) {pc : WritePc}
    (hacq : ∀ b, pc ≠ .acquire (.returned b)) (happ : ∀ rec, pc ≠ .append rec [])
    (hdone : ∀ o, pc ≠ .done o) : ∃ b r, writeResource t u x d pc b = some r ∧ b ≠ .fail := by
  cases pc with
  | acquire q =>
    have hq : ∀ b, q ≠ .returned b := fun b h => hacq b (by rw [h])
    rcases acquire_goes_on hq d t with rfl | ⟨-, r, hr⟩
    · exact ⟨.wake, _, rfl, nofun⟩
    · exact ⟨.lock false, _, Option.map_eq_some_iff.2 ⟨r, hr, rfl⟩, nofun⟩
  | refused | callback | bump => exact ⟨.go, _, rfl, nofun⟩
  | openFile =>
    cases h : encodable (record [] u x) with
    | true => exact ⟨.openAt [], _, if_pos h, nofun⟩
    | false => exact ⟨.openAt [], _, if_neg (by rw [h]; nofun), nofun⟩
  | append rec rest =>
    have hpos : 0 < rest.length := List.length_pos_of_ne_nil fun h => happ rec (by rw [h])
    exact ⟨.flush rest.length, _, if_neg (by omega), nofun⟩
  | release o => exact ⟨.release 0, _, rfl, nofun⟩
  | done o => exact absurd rfl (hdone o)

end DataSteps

/-! ## One step of the handler -/

section Step

variable {H : Type} {cfg : Config} {log : List ConnEvent} {l : ClientHandler H}
  {fields : List (Text × Json)} {before since : List ConnEvent}

/-- Neither a message nor a RESPONSE. -/
def ConnEvent.inward : ConnEvent → Bool
  | .received _ | .answered _ => false
  | _ => true

theorem ConnEvent.ne_of_inward {e : ConnEvent} (he : e.inward = true) :
    (∀ m, e ≠ .received m) ∧ ∀ r, e ≠ .answered r := by
  constructor <;> (rintro x rfl; cases he)

theorem handled_idle {e : ConnEvent} {l' : ClientHandler H} (hi : InPlace Replied log)
    (he : ∀ r, e ≠ .answered r) (hids : requestIds (log ++ [e]) = answerIds (log ++ [e]) ++ l'.pc.inHand)
    (hl : l'.pc.handles (log ++ [e])) : Handled (log ++ [e]) l' :=
  ⟨hids, hl, hi.concat fun r hr => absurd hr (he r)⟩

theorem inHand_of_atRest {pc : HandlerPc H} (h : pc.atRest = true) : pc.inHand = [] := by
  cases pc <;> first | rfl | cases h

/-- A release that follows a LOGOUT, or that follows the end of the messages. -/
theorem handles_releaseSession {caller : Caller} (h : caller = .cleanup → ConnEvent.hungUp ∈ log) :
    (l.releaseSession caller).pc.handles log := by
  unfold ClientHandler.releaseSession
  split
  · cases caller with
    | logout => trivial
    | cleanup => exact h rfl
  · cases caller with
    | logout => trivial
    | cleanup => exact h rfl
  · cases caller with
    | logout => trivial
    | cleanup => exact h rfl

theorem answered_error (id : Json) (message : Text) (h : id = idOf fields) :
    Answered fields before since { id, status := statusError, message := some message } :=
  ⟨h, .inr rfl, fun hok => absurd (show statusError = statusOk from hok) (by decide)⟩

/-- A READ or a WRITE that comes in a session may succeed. -/
theorem sound_in_session {action u : Text} (ha : actionOf fields = .str action)
    (hdata : action = actionRead ∨ action = actionWrite) (hu : LatestLogin before u) :
    Sound fields before since := by
  refine ⟨⟨action, ?_, ha⟩, fun h => ?_, fun _ => ⟨u, hu⟩⟩
  · rcases hdata with rfl | rfl <;> simp [knownActions]
  · have he : actionLogin = action := Json.str.inj (h.symm.trans ha)
    rcases hdata with rfl | rfl <;> exact absurd he (by decide)

/-- A message other than a REQUEST leaves nothing in hand; a REQUEST is in hand until it is answered. -/
theorem handled_receive {m : Json} {l' : ClientHandler H} (hi : Handled log l)
    (hf : Follows log l) (hpc : l.pc = .recv) (hobj : ∃ fields, m = .obj fields)
    (hok : AnswerableStep cfg l.pc (.receive m)) (hd : Dispatch cfg l m l') :
    Handled (log ++ [.received m]) l' := by
  have hids : requestIds log = answerIds log := by
    rw [hi.ids, hpc]
    exact List.append_nil _
  have hsession : ∀ u, l.userId = some u → LatestLogin log u := by
    unfold Follows at hf
    rw [hpc] at hf
    exact hf
  -- a REQUEST: its id is the one in hand
  have taken : ∀ {fields}, m = .obj fields → isRequest fields → l'.pc.inHand = [idOf fields] →
      l'.pc.handles (log ++ [.received m]) → Handled (log ++ [.received m]) l' := by
    rintro fields rfl hreq hhand hl
    refine handled_idle hi.replied (fun _ he => by cases he) ?_ hl
    rw [requestIds_concat, requestId_request hreq, answerIds_append, hids, hhand]
    exact (congrArg (· ++ _) (List.append_nil _)).symm
  have pending : ∀ {fields}, m = .obj fields → isRequest fields →
      Pending (log ++ [.received m]) fields log [] := by
    rintro fields rfl hreq
    exact ⟨rfl, hreq, List.forall_mem_nil _⟩
  have known : ∀ {fields a}, actionOf fields = .str a → a ∈ knownActions → a ≠ actionLogin →
      a ≠ actionRead → a ≠ actionWrite → Sound fields log [] := by
    intro fields a ha hmem h1 h2 h3
    have hne : ∀ {b}, a ≠ b → actionOf fields ≠ .str b := fun hab h =>
      hab (Json.str.inj (ha.symm.trans h))
    exact ⟨⟨a, hmem, ha⟩, fun h => absurd h (hne h1), fun h => h.elim
      (fun h => absurd h (hne h2)) fun h => absurd h (hne h3)⟩
  cases hd with
  | notDict hnot =>
    obtain ⟨fields, rfl⟩ := hobj
    exact absurd rfl (hnot fields)
  | ignored hreq =>
    refine handled_idle hi.replied (fun _ he => by cases he) ?_ trivial
    rw [requestIds_concat, requestId_other hreq, answerIds_append, hids]
    simp [answerIds, answersIn, HandlerPc.inHand]
  | unhashable hreq hh =>
    rw [hpc] at hok
    rw [hok hreq] at hh
    cases hh
  | login hreq ha =>
    exact taken rfl hreq rfl ⟨_, log, [], pending rfl hreq, rfl, ha, fun h => by cases h⟩
  | refused hreq =>
    exact taken rfl hreq rfl ⟨_, log, [], pending rfl hreq, answered_error _ _ rfl⟩
  | read u hreq ha hu =>
    exact taken rfl hreq rfl ⟨_, log, [], pending rfl hreq, rfl, ha, hsession u hu,
      fine_ofAcquire_read .enter⟩
  | write u hreq ha hu =>
    exact taken rfl hreq rfl ⟨_, log, [], pending rfl hreq, rfl, ha, hsession u hu,
      fine_ofAcquire_write .enter⟩
  | logout hreq ha =>
    exact taken rfl hreq rfl ⟨_, log, [], pending rfl hreq, rfl, .inl rfl, fun _ =>
      known ha (by decide) (by decide) (by decide) (by decide)⟩
  | ping hreq ha =>
    exact taken rfl hreq rfl ⟨_, log, [], pending rfl hreq, rfl, .inl rfl, fun _ =>
      known ha (by decide) (by decide) (by decide) (by decide)⟩
  | unknown hreq =>
    exact taken rfl hreq rfl ⟨_, log, [], pending rfl hreq, answered_error _ _ rfl⟩

/-- The request in hand is answered. -/
theorem handled_respond {r : Response} {next : Next} (hi : Handled log l)
    (hpc : l.pc = .respond r next) : Handled (log ++ [.answered r]) (l.proceed next) := by
  have hreplied : Replied log (.answered r) := by
    intro r' hr'
    cases hr'
    have h := hi.handles
    rw [hpc] at h
    exact h
  have hhand : (l.proceed next).pc.inHand = [] := by
    cases next with
    | loop | publish => rfl
    | release => exact inHand_of_atRest (atRest_releaseSession l .logout)
  refine ⟨?_, ?_, hi.replied.concat hreplied⟩
  · have hids := hi.ids
    rw [hpc] at hids
    rw [requestIds_concat, answerIds_append, hids, hhand]
    simp [requestId, answerIds, answersIn, HandlerPc.inHand]
  · cases next with
    | loop | publish => trivial
    | release => exact handles_releaseSession fun h => by cases h

/-- Something happens for the request in hand, which stays in hand. -/
theorem Handled.during {l' : ClientHandler H} (hi : Handled log l) {o : Option ConnEvent}
    (ho : ∀ e ∈ o, (∀ m, e ≠ .received m) ∧ ∀ r, e ≠ .answered r)
    (hhand : l'.pc.inHand = l.pc.inHand) (hl : l'.pc.handles (log ++ o.toList)) :
    Handled (log ++ o.toList) l' := by
  cases o with
  | none =>
    rw [Option.toList_none, List.append_nil] at hl ⊢
    exact ⟨by rw [hi.ids, hhand], hl, hi.replied⟩
  | some e =>
    obtain ⟨hm, hr⟩ := ho e rfl
    have hreq : requestId e = none := by
      cases e with
      | received m => exact absurd rfl (hm m)
      | _ => rfl
    have hans : answerIds [e] = [] := by
      cases e with
      | answered r => exact absurd rfl (hr r)
      | _ => rfl
    refine ⟨?_, hl, hi.replied.concat fun r h => absurd h (hr r)⟩
    simp only [Option.toList_some]
    rw [requestIds_concat, hreq, answerIds_append, hans, hi.ids, hhand]
    simp

theorem Pending.during (hp : Pending log fields before since) {o : Option ConnEvent}
    (ho : ∀ e ∈ o, (∀ m, e ≠ .received m) ∧ ∀ r, e ≠ .answered r) :
    Pending (log ++ o.toList) fields before (since ++ o.toList) := by
  cases o with
  | none => simpa using hp
  | some e => exact hp.concat (ho e rfl).1 (ho e rfl).2

/-- A LOGIN that can be asked comes to a RESPONSE. -/
theorem handled_login [DecidableEq H] {h : H} {s : DistResServer H} {id : Json} {pc : LoginPc}
    (hi : Handled log l) (hpc : l.pc = .login id pc) (hok : AnswerableStep cfg l.pc .go) :
    Handled (log ++ (connEvent cfg s l .go).toList) (handleLogin cfg h s l id pc).2 := by
  have hpend := hi.handles
  rw [hpc] at hpend hok
  obtain ⟨fields, before, since, hp, rfl, ha, hadm⟩ := hpend
  have ho : ∀ e ∈ connEvent cfg s l .go, (∀ m, e ≠ .received m) ∧ ∀ r, e ≠ .answered r := by
    intro e he
    simp only [connEvent, hpc] at he
    cases pc <;> cases he <;> exact ConnEvent.ne_of_inward rfl
  have hp' := hp.during ho
  have refuse : ∀ message, Handled (log ++ (connEvent cfg s l .go).toList)
      (l.reject (idOf fields) message) := fun message =>
    hi.during ho (by rw [hpc]; rfl) ⟨fields, before, _, hp', answered_error _ _ rfl⟩
  have goOn : ∀ {l' : ClientHandler H} {pc' : LoginPc}, l'.pc = .login (idOf fields) pc' →
      (pc'.admitted = true → .slot true ∈ since ++ (connEvent cfg s l .go).toList) →
      Handled (log ++ (connEvent cfg s l .go).toList) l' := by
    intro l' pc' hl' hadm'
    refine hi.during ho (by rw [hpc, hl']; rfl) ?_
    rw [hl']
    exact ⟨fields, before, _, hp', rfl, ha, hadm'⟩
  cases pc with
  | authenticate u n =>
    have hauth : authenticate cfg u n ≠ none := by
      unfold authenticate queryUsers
      rw [if_pos (by rw [hok.1, hok.2]; rfl)]
      split <;> exact Option.some_ne_none _
    simp only [handleLogin]
    split
    · exact goOn rfl fun h => by cases h
    · exact refuse _
    · rename_i hnone
      exact absurd hnone hauth
  | isActive u n =>
    simp only [handleLogin]
    split
    · exact refuse _
    · exact goOn rfl fun h => by cases h
  | acquire u n =>
    simp only [handleLogin]
    split
    · exact refuse _
    · rename_i h0
      refine goOn rfl fun _ => List.mem_append_right _ ?_
      simp [connEvent, hpc, h0]
  | hold u n => exact goOn rfl fun _ => List.mem_append_left _ (hadm rfl)
  | register u n => exact goOn rfl fun _ => List.mem_append_left _ (hadm rfl)
  | subscribe u => exact goOn rfl fun _ => List.mem_append_left _ (hadm rfl)
  | version u =>
    refine hi.during ho (by rw [hpc]; rfl) ⟨fields, before, _, hp', rfl, .inl rfl, fun _ => ?_⟩
    refine ⟨⟨actionLogin, by simp [knownActions], ha⟩, fun _ => List.mem_append_left _ (hadm rfl), ?_⟩
    rintro (h | h)
    · exact absurd (Json.str.inj (ha.symm.trans h) : actionLogin = actionRead) (by decide)
    · exact absurd (Json.str.inj (ha.symm.trans h) : actionLogin = actionWrite) (by decide)

variable [DecidableEq H] {h : H} {s s' : DistResServer H} {l' : ClientHandler H} {a : HandlerAct}

/-- **A step that does not raise keeps the invariant.** -/
theorem Handled.step (hi : Handled log l) (hf : Follows log l)
    (hs : handlerStep cfg h s l a = some (s', l')) (hok : AnswerableStep cfg l.pc a)
    (hstore : storageFails l.pc a = false) (hserve : serviceFails cfg l.pc a = false)
    (hobj : getsObject a = true)
    (hread : ∀ id u, l.pc = .read id u .load → readText s.data.file ≠ none)
    (hfree : ∀ caller, l.pc = .release .free caller → s.sessions < cfg.maxSessions) :
    Handled (log ++ (connEvent cfg s l a).toList) l' := by
  have hpend := hi.handles
  -- nothing is noted, and what is in hand stays so
  have stays : connEvent cfg s l a = none → l'.pc.inHand = l.pc.inHand → l'.pc.handles log →
      Handled (log ++ (connEvent cfg s l a).toList) l' := by
    intro hev hhand hl
    rw [hev, Option.toList_none, List.append_nil]
    exact ⟨by rw [hi.ids, hhand], hl, hi.replied⟩
  have answers : ∀ {fields before since r next}, connEvent cfg s l a = none →
      l.pc.inHand = [idOf fields] → Pending log fields before since → Answered fields before since r →
      l'.pc = .respond r next → Handled (log ++ (connEvent cfg s l a).toList) l' := by
    intro fields before since r next hev hhand hp hans hl'
    refine stays hev ?_ ?_
    · rw [hl', hhand]
      exact congrArg (fun x => [x]) hans.id
    · rw [hl']
      exact ⟨fields, before, since, hp, hans⟩
  cases handlerStep_cases hs with
  | accept hpc => exact stays (by simp only [connEvent, hpc]) (by rw [hpc]; rfl) trivial
  | receive m hpc =>
    have hev : connEvent cfg s l (.receive m) = some (.received m) := by simp only [connEvent, hpc]
    rw [hev]
    exact handled_receive hi hf hpc (eq_obj_of_getsObject hobj) hok (dispatch_cases cfg l m)
  | hangup hpc =>
    have hev : connEvent cfg s l .hangup = some .hungUp := by simp only [connEvent, hpc]
    rw [hev]
    refine hi.during (o := some .hungUp) (fun e he => by cases he; exact ConnEvent.ne_of_inward rfl)
      ?_ (handles_releaseSession fun _ => by simp)
    rw [hpc, inHand_of_atRest (atRest_cleanup l)]
    rfl
  | respond r next hpc =>
    have hev : connEvent cfg s l .go = some (.answered r) := by simp only [connEvent, hpc]
    rw [hev]
    exact handled_respond hi hpc
  | unsent r next hpc =>
    rw [hpc] at hserve hok
    have henc : cfg.encodes (.response r) = false := hserve
    exact absurd (henc.symm.trans hok) Bool.false_ne_true
  | login id pc hpc => exact handled_login hi hpc hok
  | authenticate id u n hpc =>
    rw [hpc] at hserve
    cases hserve
  | read id u pc b hpc hstep =>
    rw [hpc] at hpend hstore hserve
    obtain ⟨fields, before, since, hp, hid, ha, hu, hout⟩ := hpend
    obtain ⟨d, pc', hdata, -, rfl⟩ := handleRead_cases hstep
    have hfine := readResource_fine hdata hout (fun h => hread id u (h ▸ hpc)) (by
      rintro (rfl | rfl) rfl
      · cases hstore
      · cases hserve)
    exact stays (by simp only [connEvent, hpc]) (by rw [hpc]; rfl)
      ⟨fields, before, since, hp, hid, ha, hu, hfine⟩
  | readRaised id u e hpc =>
    rw [hpc] at hpend
    obtain ⟨fields, before, since, hp, hid, ha, hu, hout⟩ := hpend
    exact absurd rfl (hout.raised e)
  | readReturns id u r hpc =>
    rw [hpc] at hpend
    obtain ⟨fields, before, since, hp, hid, ha, hu, -⟩ := hpend
    exact stays (by simp only [connEvent, hpc]) (by rw [hpc]; rfl)
      ⟨fields, before, since, hp, hid, ha, hu⟩
  | readDone id u r hpc =>
    rw [hpc] at hpend
    obtain ⟨fields, before, since, hp, rfl, ha, hu⟩ := hpend
    have hhand : l.pc.inHand = [idOf fields] := by rw [hpc]; rfl
    by_cases hr : r.ok = true
    · have hsound : Sound fields before since := sound_in_session ha (.inl rfl) hu
      exact answers (by simp only [connEvent, hpc]) hhand hp ⟨rfl, .inl rfl, fun _ => hsound⟩
        (by rw [if_pos hr]; rfl)
    · exact answers (by simp only [connEvent, hpc]) hhand hp (answered_error _ _ rfl)
        (by rw [if_neg hr]; rfl)
  | write id content u pc b hpc hstep =>
    rw [hpc] at hpend hstore hserve hok
    obtain ⟨fields, before, since, hp, hid, ha, hu, hout⟩ := hpend
    obtain ⟨d, pc', hdata, -, rfl⟩ := handleWrite_cases hstep
    have hfine := writeResource_fine hdata hout (by rintro stamp rfl rfl; exact hok) (by
      rintro (rfl | ⟨rec, rest, rfl⟩ | ⟨rec, rfl⟩ | rfl) rfl
      · cases hstore
      · cases hstore
      · cases hstore
      · cases hserve)
    have ho : ∀ e ∈ connEvent cfg s l (.data b), (∀ m, e ≠ .received m) ∧ ∀ r, e ≠ .answered r := by
      intro e he
      simp only [connEvent, hpc] at he
      split at he <;> cases he
      exact ConnEvent.ne_of_inward rfl
    exact hi.during ho (by rw [hpc]; rfl) ⟨fields, before, _, hp.during ho, hid, ha, hu, hfine⟩
  | writeRaised id content u e hpc =>
    rw [hpc] at hpend
    obtain ⟨fields, before, since, hp, hid, ha, hu, hout⟩ := hpend
    exact absurd rfl (hout.raised e)
  | writeReturns id content u r hpc =>
    rw [hpc] at hpend
    obtain ⟨fields, before, since, hp, hid, ha, hu, -⟩ := hpend
    exact stays (by simp only [connEvent, hpc]) (by rw [hpc]; rfl)
      ⟨fields, before, since, hp, hid, ha, hu⟩
  | writeDone id content u r hpc =>
    rw [hpc] at hpend
    obtain ⟨fields, before, since, hp, rfl, ha, hu⟩ := hpend
    have hhand : l.pc.inHand = [idOf fields] := by rw [hpc]; rfl
    by_cases hr : r.ok = true
    · have hsound : Sound fields before since := sound_in_session ha (.inr rfl) hu
      exact answers (by simp only [connEvent, hpc]) hhand hp ⟨rfl, .inl rfl, fun _ => hsound⟩
        (by rw [if_pos hr]; rfl)
    · exact answers (by simp only [connEvent, hpc]) hhand hp (answered_error _ _ rfl)
        (by rw [if_neg hr]; rfl)
  | publish pc pc' ok b d hpc =>
    exact stays (by cases ok <;> simp only [connEvent, hpc]) (by rw [hpc]; rfl) trivial
  | published n hpc => exact stays (by simp only [connEvent, hpc]) (by rw [hpc]; rfl) trivial
  | release pc caller hpc =>
    rw [hpc] at hpend
    have hhand : (releaseStep cfg s l caller pc).2.pc.inHand = l.pc.inHand := by
      rw [hpc]
      exact inHand_of_atRest (atRest_releaseStep l cfg s caller pc)
    refine stays (by simp only [connEvent, hpc]) hhand ?_
    have hup : caller = .cleanup → ConnEvent.hungUp ∈ log := by
      rintro rfl
      exact hpend
    cases pc with
    | unsubscribe | unregister =>
      cases caller with
      | logout => trivial
      | cleanup => exact hup rfl
    | clear => exact handles_releaseSession hup
    | free =>
      simp only [releaseStep]
      rw [if_pos (hfree caller hpc)]
      cases caller with
      | logout => trivial
      | cleanup => exact hup rfl
    | unhold =>
      cases caller with
      | logout => trivial
      | cleanup => exact hup rfl

/-! ## One step that raises -/

omit [DecidableEq H] in
theorem lost_releaseSession (l : ClientHandler H) : (l.releaseSession .cleanup).pc.lost = true := by
  unfold ClientHandler.releaseSession
  split <;> rfl

omit [DecidableEq H] in
theorem lost_cleanup (l : ClientHandler H) : l.cleanup.pc.lost = true := lost_releaseSession l

/-- A handler on its way out notes nothing more and stays on its way. -/
theorem lost_step (hl : l.pc.lost = true) (hs : handlerStep cfg h s l a = some (s', l')) :
    connEvent cfg s l a = none ∧ l'.pc.lost = true := by
  cases handlerStep_cases hs with
  | write id content u pc b hpc hstep =>
    obtain ⟨d, pc', hdata, -, rfl⟩ := handleWrite_cases hstep
    rw [hpc] at hl
    -- it has raised, and is about to release the lock
    have hpc' : ∃ e, pc = .release (.error e) := by
      unfold HandlerPc.lost at hl
      split at hl
      · rename_i h
        cases h
      · rename_i h
        cases h
      · rename_i e h
        cases h
        exact ⟨_, rfl⟩
      · rename_i e h
        cases h
        cases hdata
      · cases hl
    obtain ⟨e, rfl⟩ := hpc'
    cases b with
    | release k =>
      cases hdata
      exact ⟨by simp only [connEvent, hpc]; rfl, rfl⟩
    | _ => cases hdata
  | writeRaised id content u e hpc => exact ⟨by simp only [connEvent, hpc], lost_cleanup l⟩
  | release pc caller hpc =>
    rw [hpc] at hl
    cases caller with
    | logout => cases hl
    | cleanup =>
      refine ⟨by simp only [connEvent, hpc], ?_⟩
      cases pc with
      | unsubscribe | unregister | unhold => rfl
      | clear => exact lost_releaseSession _
      | free =>
        simp only [releaseStep]
        split <;> rfl
  | accept hpc | receive _ hpc | hangup hpc | respond _ _ hpc | unsent _ _ hpc | login _ _ hpc
  | authenticate _ _ _ hpc | read _ _ _ _ hpc | readRaised _ _ _ hpc | readReturns _ _ _ hpc
  | readDone _ _ _ hpc | writeReturns _ _ _ _ hpc | writeDone _ _ _ _ hpc | publish _ _ _ _ _ hpc
  | published _ hpc =>
    rw [hpc] at hl
    cases hl

omit [DecidableEq H] in
theorem eq_hangup_of_connEvent (hev : connEvent cfg s l a = some .hungUp) :
    l.pc = .recv ∧ a = .hangup := by
  unfold connEvent at hev
  split at hev
  case h_2 => exact ⟨‹_›, rfl⟩
  case h_5 => split at hev <;> cases hev
  all_goals cases hev

/-- Once its client has hung up, a handler is on its way out. -/
theorem left_step (hl : .hungUp ∈ log → l.pc.lost = true)
    (hs : handlerStep cfg h s l a = some (s', l'))
    (hup : .hungUp ∈ log ++ (connEvent cfg s l a).toList) : l'.pc.lost = true := by
  rcases List.mem_append.1 hup with hup | hup
  · exact (lost_step (hl hup) hs).2
  · obtain ⟨hpc, rfl⟩ := eq_hangup_of_connEvent (Option.mem_toList.1 hup)
    simp only [handlerStep, hpc, Option.some.injEq, Prod.mk.injEq] at hs
    exact hs.2 ▸ lost_cleanup l

/-- A request that raises is not answered. -/
theorem unanswered_of_step (hi : Handled log l) (hleft : .hungUp ∈ log → l.pc.lost = true)
    (hs : handlerStep cfg h s l a = some (s', l')) (hno : ¬ AnswerableStep cfg l.pc a) :
    Unanswered (log ++ (connEvent cfg s l a).toList) l' := by
  have hopen : l.pc.lost = false → ConnEvent.hungUp ∉ log := fun h hup => by
    rw [hleft hup] at h
    cases h
  have hids := hi.ids
  unfold AnswerableStep at hno
  split at hno
  · -- an action that is not hashable
    rename_i fields hpc
    simp only [Classical.not_imp, Bool.not_eq_true] at hno
    obtain ⟨hreq, hh⟩ := hno
    have hev : connEvent cfg s l (.receive (.obj fields)) = some (.received (.obj fields)) := by
      simp only [connEvent, hpc]
    have hlost : l'.pc.lost = true := by
      simp only [handlerStep, hpc, Option.some.injEq, Prod.mk.injEq] at hs
      obtain ⟨-, rfl⟩ := hs
      generalize hd : l.dispatch cfg (.obj fields) = l'
      have hcases := dispatch_cases cfg l (.obj fields)
      rw [hd] at hcases
      cases hcases with
      | notDict h => exact absurd rfl (h fields)
      | ignored h => exact absurd hreq h
      | unhashable => exact lost_cleanup l
      | login _ ha | read _ _ ha | write _ _ ha | logout _ ha | ping _ ha =>
        rw [ha] at hh
        cases hh
      | refused _ ha =>
        rcases ha with ha | ha <;> rw [ha] at hh <;> cases hh
      | unknown _ h =>
        rw [h] at hh
        cases hh
    rw [hev]
    refine ⟨⟨idOf fields, ?_⟩, fun hup => ?_, hlost⟩
    · rw [hpc] at hids
      simp only [Option.toList_some]
      rw [requestIds_concat, requestId_request hreq, answerIds_append, hids]
      simp [HandlerPc.inHand, answerIds, answersIn]
    · rcases List.mem_append.1 hup with hup | hup
      · exact hopen (by rw [hpc]; rfl) hup
      · cases List.mem_singleton.1 hup
  · -- credentials that cannot be bound
    rename_i id u n hpc
    have hnone : authenticate cfg u n = none := by
      unfold authenticate queryUsers
      exact if_neg fun hb => hno (by simpa using hb)
    have hev : connEvent cfg s l .go = some (.authenticated u n none) := by
      simp only [connEvent, hpc, hnone]
    simp only [handlerStep, hpc, handleLogin, hnone, Option.some.injEq, Prod.mk.injEq] at hs
    obtain ⟨-, rfl⟩ := hs
    rw [hev]
    refine ⟨⟨id, ?_⟩, fun hup => ?_, lost_cleanup l⟩
    · rw [hpc] at hids
      simp only [Option.toList_some]
      rw [requestIds_concat, answerIds_append, hids]
      simp [requestId, HandlerPc.inHand, answerIds, answersIn]
    · rcases List.mem_append.1 hup with hup | hup
      · exact hopen (by rw [hpc]; rfl) hup
      · cases List.mem_singleton.1 hup
  · -- a record that cannot be encoded
    rename_i id content u stamp hpc
    have hev : connEvent cfg s l (.data (.openAt stamp)) = none := by
      simp only [connEvent, hpc, WritePc.event, if_neg hno]
    simp only [handlerStep, hpc, handleWrite, writeResource, if_neg hno, Option.map_some,
      Option.some.injEq, Prod.mk.injEq] at hs
    obtain ⟨-, rfl⟩ := hs
    rw [hev, Option.toList_none, List.append_nil]
    refine ⟨⟨id, ?_⟩, hopen (by rw [hpc]; rfl), rfl⟩
    rw [hpc] at hids
    exact hids
  · -- a RESPONSE that is nested too deeply
    rename_i r next hpc
    have hev : connEvent cfg s l .fail = none := by simp only [connEvent, hpc]
    simp only [handlerStep, hpc, Option.some.injEq, Prod.mk.injEq] at hs
    obtain ⟨-, rfl⟩ := hs
    rw [hev, Option.toList_none, List.append_nil]
    refine ⟨⟨r.id, ?_⟩, hopen (by rw [hpc]; rfl), lost_cleanup l⟩
    rw [hpc] at hids
    exact hids
  · exact absurd trivial hno

/-- A handler with a request in its hands has a step to take, with an environment that works. -/
theorem can_step (hhand : l.pc.inHand ≠ [])
    (hread : ∀ id u pc, l.pc = .read id u pc → ∀ b, pc ≠ .acquire (.returned b))
    (hwrite : ∀ id content u pc, l.pc = .write id content u pc →
      (∀ b, pc ≠ .acquire (.returned b)) ∧ ∀ rec, pc ≠ .append rec []) :
    ∃ a r, handlerStep cfg h s l a = some r ∧ storageFails l.pc a = false ∧
      serviceFails cfg l.pc a = false ∧ getsObject a = true := by
  have works : ∀ {a r}, handlerStep cfg h s l a = some r → a ≠ .fail → a ≠ .data .fail →
      getsObject a = true → ∃ a r, handlerStep cfg h s l a = some r ∧ storageFails l.pc a = false ∧
        serviceFails cfg l.pc a = false ∧ getsObject a = true := by
    intro a r hr h1 h2 h3
    have hworks : storageFails l.pc a = false ∧ serviceFails cfg l.pc a = false := works_of_ne cfg h1 h2
    exact ⟨a, r, hr, hworks.1, hworks.2, h3⟩
  have go : (∃ r, handlerStep cfg h s l .go = some r) → ∃ a r, handlerStep cfg h s l a = some r ∧
      storageFails l.pc a = false ∧ serviceFails cfg l.pc a = false ∧ getsObject a = true := by
    rintro ⟨r, hr⟩
    exact works hr (fun h => by cases h) (fun h => by cases h) rfl
  obtain ⟨pc, hpc⟩ : ∃ pc, l.pc = pc := ⟨_, rfl⟩
  cases pc with
  | respond r next =>
    cases henc : cfg.encodes (.response r) with
    | true => exact go (by simp only [handlerStep, hpc, henc, if_true]; exact ⟨_, rfl⟩)
    | false =>
      refine ⟨.fail, (s, l.cleanup), by simp only [handlerStep, hpc], ?_, ?_, rfl⟩
      · rw [hpc]
        rfl
      · rw [hpc]
        exact henc
  | login id pc => exact go (by simp only [handlerStep, hpc]; exact ⟨_, rfl⟩)
  | readDone id u r => exact go (by simp only [handlerStep, hpc]; exact ⟨_, rfl⟩)
  | writeDone id content u r => exact go (by simp only [handlerStep, hpc]; exact ⟨_, rfl⟩)
  | read id u pc =>
    by_cases hdone : ∃ o, pc = .done o
    · obtain ⟨o, rfl⟩ := hdone
      cases o <;> exact go (by simp only [handlerStep, hpc]; exact ⟨_, rfl⟩)
    · obtain ⟨b, r, hr, hb⟩ := readResource_goes_on h s.data (hread id u pc hpc)
        fun o ho => hdone ⟨o, ho⟩
      have hstep : ∃ r, handlerStep cfg h s l (.data b) = some r := by
        simp only [handlerStep, hpc, handleRead, hr, Option.map_some]
        exact ⟨_, rfl⟩
      obtain ⟨r', hr'⟩ := hstep
      exact works hr' (fun h => by cases h) (fun heq => hb (HandlerAct.data.inj heq)) rfl
  | write id content u pc =>
    by_cases hdone : ∃ o, pc = .done o
    · obtain ⟨o, rfl⟩ := hdone
      cases o <;> exact go (by simp only [handlerStep, hpc]; exact ⟨_, rfl⟩)
    · obtain ⟨hacq, happ⟩ := hwrite id content u pc hpc
      obtain ⟨b, r, hr, hb⟩ := writeResource_goes_on h u (pyFormat cfg.strRepr content) s.data hacq happ
        fun o ho => hdone ⟨o, ho⟩
      have hstep : ∃ r, handlerStep cfg h s l (.data b) = some r := by
        simp only [handlerStep, hpc, handleWrite, hr, Option.map_some]
        exact ⟨_, rfl⟩
      obtain ⟨r', hr'⟩ := hstep
      exact works hr' (fun h => by cases h) (fun heq => hb (HandlerAct.data.inj heq)) rfl
  | _ =>
    rw [hpc] at hhand
    exact absurd rfl hhand

end Step

/-! ## The file can be read -/

section File

variable {H : Type} [DecidableEq H] {cfg : Config} {h : H} {s s' : DistResServer H}
  {l l' : ClientHandler H} {a : HandlerAct}

omit [DecidableEq H] in
theorem pc_of_dataCall_read {pc : HandlerPc H} {q : ReadPc} (hd : pc.dataCall cfg = .read q) :
    ∃ id u, pc = .read id u q := by
  cases pc with
  | read id u q' =>
    cases hd
    exact ⟨id, u, rfl⟩
  | _ => cases hd

omit [DecidableEq H] in
theorem pc_of_dataCall_write {pc : HandlerPc H} {u x : Text} {q : WritePc}
    (hd : pc.dataCall cfg = .write u x q) :
    ∃ id content, pc = .write id content u q ∧ x = pyFormat cfg.strRepr content := by
  cases pc with
  | write id content u' q' =>
    cases hd
    exact ⟨id, content, rfl, rfl⟩
  | _ => cases hd

theorem readStep_of_pc {id : Json} {u : Text} (hpc : l.pc = .read id u .load)
    (hs : handlerStep cfg h s l a = some (s', l')) :
    ∃ b, a = .data b ∧ handleRead h s l id u .load b = some (s', l') := by
  cases a with
  | data b => exact ⟨b, rfl, by simpa only [handlerStep, hpc] using hs⟩
  | _ => simp [handlerStep, hpc] at hs

theorem writeStep_of_pc {id content : Json} {u : Text} {pc : WritePc}
    (hpc : l.pc = .write id content u pc) (hne : ∀ o, pc ≠ .done o)
    (hs : handlerStep cfg h s l a = some (s', l')) :
    ∃ b, a = .data b ∧ handleWrite cfg h s l id content u pc b = some (s', l') := by
  cases a with
  | data b =>
    refine ⟨b, rfl, ?_⟩
    cases pc <;> simpa only [handlerStep, hpc] using hs
  | _ =>
    cases pc with
    | done o => exact absurd rfl (hne o)
    | _ => simp [handlerStep, hpc] at hs

/-- A file operation of a read raises only where the step says so. -/
theorem load_storage {id : Json} {u : Text} (hpc : l.pc = .read id u .load)
    (hs : handlerStep cfg h s l a = some (s', l'))
    (hl' : l'.pc.dataCall cfg = .read (.release (.error .storage))) : storageFails l.pc a = true := by
  obtain ⟨b, rfl, hread⟩ := readStep_of_pc hpc hs
  obtain ⟨d, pc', hdata, -, rfl⟩ := handleRead_cases hread
  cases hl'
  rw [hpc]
  cases readResource_cases hdata
  rfl

/-- A file operation of a write raises only where the step says so. -/
theorem write_storage {id content : Json} {u : Text} {pc : WritePc}
    (hpc : l.pc = .write id content u pc)
    (hfile : pc = .openFile ∨ (∃ rec rest, pc = .append rec rest) ∨ ∃ rec, pc = .bump rec)
    (hs : handlerStep cfg h s l a = some (s', l'))
    (hl' : ∃ x, l'.pc.dataCall cfg = .write u x (.release (.error .storage))) :
    storageFails l.pc a = true := by
  obtain ⟨x, hl'⟩ := hl'
  obtain ⟨b, rfl, hwrite⟩ := writeStep_of_pc hpc (by rintro o rfl; simp at hfile) hs
  obtain ⟨d, pc', hdata, -, rfl⟩ := handleWrite_cases hwrite
  cases hl'
  rw [hpc]
  rcases hfile with rfl | ⟨rec, rest, rfl⟩ | ⟨rec, rfl⟩
  · cases writeResource_cases hdata
    rfl
  · cases writeResource_cases hdata
    rfl
  · cases writeResource_cases hdata
    rfl

/-- A step of a handler in which no file operation raises is none of the data layer in which one
does. -/
theorem dataStep_works (hs : handlerStep cfg h s l a = some (s', l'))
    (hok : storageFails l.pc a = false) :
    s'.data = s.data ∧ l'.pc.dataCall cfg = l.pc.dataCall cfg ∨
      ∃ b, callStep h s.data (l.pc.dataCall cfg) b = some (s'.data, l'.pc.dataCall cfg) ∧
        fileFails (l.pc.dataCall cfg) b = false := by
  rcases handlerStep_data hs with hquiet | ⟨b, hb⟩
  · exact .inl hquiet
  · refine .inr ⟨b, hb, ?_⟩
    by_contra hfail
    refine absurd hok (Bool.not_eq_false _ ▸ ?_)
    simp only [Bool.not_eq_false] at hfail
    unfold fileFails at hfail
    split at hfail
    · rename_i hcall
      obtain ⟨id, u, hpc⟩ := pc_of_dataCall_read hcall
      rw [hcall] at hb
      exact load_storage hpc hs (congrArg Prod.snd (Option.some.inj hb)).symm
    · rename_i hcall
      obtain ⟨id, content, hpc, -⟩ := pc_of_dataCall_write hcall
      rw [hcall] at hb
      exact write_storage hpc (.inl rfl) hs ⟨_, (congrArg Prod.snd (Option.some.inj hb)).symm⟩
    · rename_i hcall
      obtain ⟨id, content, hpc, -⟩ := pc_of_dataCall_write hcall
      rw [hcall] at hb
      exact write_storage hpc (.inr (.inl ⟨_, _, rfl⟩)) hs
        ⟨_, (congrArg Prod.snd (Option.some.inj hb)).symm⟩
    · rename_i hcall
      obtain ⟨id, content, hpc, -⟩ := pc_of_dataCall_write hcall
      rw [hcall] at hb
      exact write_storage hpc (.inr (.inr ⟨_, rfl⟩)) hs
        ⟨_, (congrArg Prod.snd (Option.some.inj hb)).symm⟩
    · cases hfail

variable [Fintype H] {init : Text}

/-- While no file operation raises, the file is text: what was there and the records. -/
theorem fileInv_of_reach (henc : encodable init = true)
    {s : Pool.State H (DistResServer H) (ClientHandler H)}
    (hr : (serverMachine cfg H (utf8 init)).Reach
      (fun s a => storageFails (s.thread a.1).pc a.2 = false) s) :
    ∃ recs, FileInv init s.shared.data (fun h => (s.thread h).pc.dataCall cfg) recs := by
  refine hr.invariant (fun s => ∃ recs,
    FileInv init s.shared.data (fun h => (s.thread h).pc.dataCall cfg) recs) ?_ ?_
  · rintro s ⟨hs, hth⟩
    have hs : s.shared = { data := { file := utf8 init }, sessions := cfg.maxSessions } := hs
    have hidle : ∀ h, (s.thread h).pc.dataCall cfg = .idle := fun h => by
      rw [show s.thread h = {} from hth h]
      rfl
    refine ⟨[], ?_⟩
    rw [hs]
    refine ⟨rfl, by simpa [fileText] using henc, fun _ => by simp [fileText], ?_, ?_, ?_⟩
    · intro t u x rec rest ht
      simp only [hidle] at ht
      cases ht
    · intro t u x rec ht
      simp only [hidle] at ht
      cases ht
    · intro t content ht
      simp only [hidle] at ht
      cases ht
  · rintro s ⟨h, a⟩ s' hr ⟨recs, hi⟩ hok hs
    obtain ⟨d, l, hstep, rfl⟩ := Pool.machine_step.1 hs
    have hlock := lockInv_of_reachable (server_uses_data hr.reachable)
    have hupd : (fun k => (Function.update s.thread h l k).pc.dataCall cfg) =
        Function.update (fun k => (s.thread k).pc.dataCall cfg) h (l.pc.dataCall cfg) :=
      Function.comp_update (fun l : ClientHandler H => l.pc.dataCall cfg) s.thread h l
    simp only [hupd]
    rcases dataStep_works hstep hok with ⟨hd, hcall⟩ | ⟨b, hb, hworks⟩
    · refine ⟨recs, ?_⟩
      rw [hd, hcall, Function.update_eq_self]
      exact hi
    · exact ⟨_, hi.step hlock hworks hb⟩

/-- A handler that reads the file finds text. -/
theorem readable_of_reach (henc : encodable init = true)
    {s : Pool.State H (DistResServer H) (ClientHandler H)}
    (hr : (serverMachine cfg H (utf8 init)).Reach
      (fun s a => storageFails (s.thread a.1).pc a.2 = false) s) {id : Json} {u : Text}
    (hpc : (s.thread h).pc = .read id u .load) : readText s.shared.data.file ≠ none := by
  obtain ⟨recs, hi⟩ := fileInv_of_reach henc hr
  have hlock := lockInv_of_reachable (server_uses_data hr.reachable)
  have hrole : ((s.thread h).pc.dataCall cfg).role = .reader := by
    rw [hpc]
    rfl
  rw [hi.clean fun k => ?_, readText_fileText hi.encodable]
  · nofun
  · -- nobody writes beside a reader
    by_contra hd
    exact (hlock.writer_alone (dirty_role (by simpa using hd))).2 hrole

end File

/-! ## Every run -/

section Run

variable {H : Type} [DecidableEq H]

/-- The environment does its part for the connection of `h`: no file operation raises, no send of a
RESPONSE that can be encoded, no query and no callback of `h` does, and the messages of `h` are JSON
objects. -/
def Works (cfg : Config) (h : H)
    (p : Pool.State H (DistResServer H) (ClientHandler H) × (H → List ConnEvent)) (a : H × HandlerAct) :
    Prop :=
  storageFails (p.1.thread a.1).pc a.2 = false ∧
    (a.1 = h → serviceFails cfg (p.1.thread h).pc a.2 = false ∧ getsObject a.2 = true)

/-- The step of `h` is answerable. -/
def Answerable (cfg : Config) (h : H)
    (p : Pool.State H (DistResServer H) (ClientHandler H) × (H → List ConnEvent))
    (a : H × HandlerAct) : Prop :=
  a.1 = h → AnswerableStep cfg (p.1.thread h).pc a.2

/-- The RESPONSEs on the socket of `h` carry the ids of its REQUESTs in order, but for the one in hand,
each answers its REQUEST, and the handler leaves only when its client has. -/
structure AnsweredInOrder (h : H)
    (p : Pool.State H (DistResServer H) (ClientHandler H) × (H → List ConnEvent)) : Prop where
  ids : requestIds (p.2 h) =
    (responsesIn (p.1.shared.sockets h)).map Response.id ++ (p.1.thread h).pc.inHand
  replied : InPlace Replied (p.2 h)
  stays : (p.1.thread h).pc.lost = true → .hungUp ∈ p.2 h

variable {cfg : Config} {h : H} {init : Text}
  {p q : Pool.State H (DistResServer H) (ClientHandler H) × (H → List ConnEvent)} {a : H × HandlerAct}

/-- What the other handlers do leaves the connection alone. -/
theorem transcripts_other {file : Bytes} (hs : (transcripts cfg H file).step p a = some q)
    (ha : a.1 ≠ h) : q.2 h = p.2 h ∧ q.1.thread h = p.1.thread h := by
  obtain ⟨g, l, -, rfl⟩ := Pool.withLocal_step.1 hs
  exact ⟨Function.update_of_ne ha.symm _ _, Function.update_of_ne ha.symm _ _⟩

theorem transcripts_own {file : Bytes} {b : HandlerAct}
    (hs : (transcripts cfg H file).step p (h, b) = some q) :
    handlerStep cfg h p.1.shared (p.1.thread h) b = some (q.1.shared, q.1.thread h) ∧
      q.2 h = p.2 h ++ (connEvent cfg p.1.shared (p.1.thread h) b).toList := by
  obtain ⟨g, l, hstep, rfl⟩ := Pool.withLocal_step.1 hs
  refine ⟨?_, Function.update_self ..⟩
  simp only [Function.update_self]
  exact hstep

/-- Once its client has hung up, `h` is on its way out. -/
theorem left_of_reachable {file : Bytes} (hr : (transcripts cfg H file).Reachable p) (h : H) :
    .hungUp ∈ p.2 h → (p.1.thread h).pc.lost = true :=
  Pool.withLocal_invariant (P := serverPool cfg H file)
    (fun log l => .hungUp ∈ log → l.pc.lost = true) (fun hup => absurd hup List.not_mem_nil)
    (fun _ _ _ _ _ _ _ hs ih => left_step ih hs) hr h

variable [Fintype H]

omit [Fintype H] in
theorem storage_of_works (hr : (transcripts cfg H (utf8 init)).Reach (Works cfg h) p) :
    (serverMachine cfg H (utf8 init)).Reach
      (fun s a => storageFails (s.thread a.1).pc a.2 = false) p.1 := by
  have hstore : (transcripts cfg H (utf8 init)).Reach
      (fun p a => storageFails (p.1.thread a.1).pc a.2 = false) p := hr.mono fun _ _ hw => hw.1
  exact Pool.erase_local (P := serverPool cfg H (utf8 init)) hstore

/-- What a step of `h` that works needs of the state. -/
theorem handled_step (henc : encodable init = true)
    (hr : (transcripts cfg H (utf8 init)).Reach (Works cfg h) p) {b : HandlerAct}
    (hw : Works cfg h p (h, b)) (hok : AnswerableStep cfg (p.1.thread h).pc b)
    (hs : (transcripts cfg H (utf8 init)).step p (h, b) = some q)
    (hi : Handled (p.2 h) (p.1.thread h)) : Handled (q.2 h) (q.1.thread h) := by
  obtain ⟨hstep, hlog⟩ := transcripts_own hs
  rw [hlog]
  refine hi.step (follows_of_reachable hr.reachable h).2 hstep hok hw.1 (hw.2 rfl).1 (hw.2 rfl).2
    (fun id u hpc => readable_of_reach henc (storage_of_works hr) hpc) fun caller hpc => ?_
  obtain ⟨slots, hslots⟩ := slotInv_of_reachable (storage_of_works hr).reachable
  exact hslots.free_lt (h := h) caller (by simp only [ClientHandler.session, hpc]; rfl)

/-- **Every request is answered or unanswerable.** -/
theorem handled_or_unanswered (henc : encodable init = true)
    (hr : (transcripts cfg H (utf8 init)).Reach (Works cfg h) p) :
    Handled (p.2 h) (p.1.thread h) ∨ Unanswered (p.2 h) (p.1.thread h) := by
  refine hr.invariant (fun p => Handled (p.2 h) (p.1.thread h) ∨ Unanswered (p.2 h) (p.1.thread h))
    ?_ ?_
  · rintro ⟨s, G⟩ ⟨⟨-, hth⟩, hG⟩
    left
    simp only at hG ⊢
    rw [hG, show s.thread h = {} from hth h]
    exact ⟨rfl, trivial, inPlace_nil⟩
  · rintro p ⟨k, b⟩ q hr ih hw hs
    by_cases hk : k = h
    · subst hk
      rcases ih with hi | hi
      · by_cases hok : AnswerableStep cfg (p.1.thread k).pc b
        · exact .inl (handled_step henc hr hw hok hs hi)
        · obtain ⟨hstep, hlog⟩ := transcripts_own hs
          rw [hlog]
          exact .inr (unanswered_of_step hi (left_of_reachable hr.reachable k) hstep hok)
      · obtain ⟨hstep, hlog⟩ := transcripts_own hs
        obtain ⟨hev, hlost⟩ := lost_step hi.lost hstep
        rw [hlog, hev, Option.toList_none, List.append_nil]
        exact .inr ⟨hi.ids, hi.open', hlost⟩
    · obtain ⟨hlog, hl⟩ := transcripts_other hs hk
      rw [hlog, hl]
      exact ih

theorem handled_of_reach (henc : encodable init = true)
    (hr : (transcripts cfg H (utf8 init)).Reach (fun p a => Works cfg h p a ∧ Answerable cfg h p a) p) :
    Handled (p.2 h) (p.1.thread h) := by
  refine hr.invariant (fun p => Handled (p.2 h) (p.1.thread h)) ?_ ?_
  · rintro ⟨s, G⟩ ⟨⟨-, hth⟩, hG⟩
    simp only at hG ⊢
    rw [hG, show s.thread h = {} from hth h]
    exact ⟨rfl, trivial, inPlace_nil⟩
  · rintro p ⟨k, b⟩ q hr hi ⟨hw, hok⟩ hs
    by_cases hk : k = h
    · subst hk
      exact handled_step henc (hr.mono fun _ _ hok => hok.1) hw (hok rfl) hs hi
    · obtain ⟨hlog, hl⟩ := transcripts_other hs hk
      rw [hlog, hl]
      exact hi

omit [Fintype H] in
/-- A handler that is lost with a request stays so. -/
theorem unanswered_of_reach {q' : Pool.State H (DistResServer H) (ClientHandler H) × (H → List ConnEvent)}
    (hr : ((transcripts cfg H (utf8 init)).startingAt q).Reachable q')
    (hi : Unanswered (q.2 h) (q.1.thread h)) : Unanswered (q'.2 h) (q'.1.thread h) := by
  refine hr.invariant (fun p => Unanswered (p.2 h) (p.1.thread h)) ?_ ?_
  · rintro p hp
    have hp : p = q := hp
    rw [hp]
    exact hi
  · rintro p ⟨k, b⟩ p' - hi hs
    have hs : (transcripts cfg H (utf8 init)).step p (k, b) = some p' := hs
    by_cases hk : k = h
    · subst hk
      obtain ⟨hstep, hlog⟩ := transcripts_own hs
      obtain ⟨hev, hlost⟩ := lost_step hi.lost hstep
      rw [hlog, hev, Option.toList_none, List.append_nil]
      exact ⟨hi.ids, hi.open', hlost⟩
    · obtain ⟨hlog, hl⟩ := transcripts_other hs hk
      rw [hlog, hl]
      exact hi

/-- **Every request is answered once and in order, if and only if it is answerable.**  While sends and
the file work, and every step of the handler is answerable, the RESPONSEs on its socket carry the ids of
the REQUESTs in order, but for the one in hand; each answers its REQUEST, with an error if it is bad; and
the handler leaves only when its client has hung up.  A step that is not answerable leaves its request
without a RESPONSE for ever, and its handler on its way out.  With a request in hand there is always a
step to take. -/
theorem answered_in_order_iff (cfg : Config) (henc : encodable init = true) (h : H) :
    (∀ p, (transcripts cfg H (utf8 init)).Reach (fun p a => Works cfg h p a ∧ Answerable cfg h p a) p →
      AnsweredInOrder h p) ∧
    (∀ p b q, (transcripts cfg H (utf8 init)).Reach (Works cfg h) p → Works cfg h p (h, b) →
      (transcripts cfg H (utf8 init)).step p (h, b) = some q → ¬ Answerable cfg h p (h, b) →
        ∀ q', ((transcripts cfg H (utf8 init)).startingAt q).Reachable q' →
          Unanswered (q'.2 h) (q'.1.thread h)) ∧
    ∀ p, (transcripts cfg H (utf8 init)).Reach (Works cfg h) p → (p.1.thread h).pc.inHand ≠ [] →
      ∃ b q, (transcripts cfg H (utf8 init)).step p (h, b) = some q ∧ Works cfg h p (h, b) := by
  refine ⟨fun p hr => ?_, fun p b q hr hw hs hno q' hq' => ?_, fun p hr hhand => ?_⟩
  · have hi := handled_of_reach henc hr
    refine ⟨?_, hi.replied, fun hlost => ?_⟩
    · rw [answers_sent hr.reachable h]
      exact hi.ids
    · have hpc := hi.handles
      unfold HandlerPc.lost at hlost
      split at hlost
      · rename_i h
        rw [h] at hpc
        exact hpc
      · rename_i h
        rw [h] at hpc
        exact hpc
      · rename_i h
        rw [h] at hpc
        obtain ⟨_, _, _, -, -, -, -, hfine⟩ := hpc
        exact absurd rfl (hfine.raised _)
      · rename_i h
        rw [h] at hpc
        obtain ⟨_, _, _, -, -, -, -, hfine⟩ := hpc
        exact absurd rfl (hfine.raised _)
      · cases hlost
  · have hno' : ¬ AnswerableStep cfg (p.1.thread h).pc b := fun hok => hno fun _ => hok
    obtain ⟨hstep, hlog⟩ := transcripts_own hs
    refine unanswered_of_reach hq' ?_
    rcases handled_or_unanswered henc hr with hi | hi
    · rw [hlog]
      exact unanswered_of_step hi (left_of_reachable hr.reachable h) hstep hno'
    · obtain ⟨hev, hlost⟩ := lost_step hi.lost hstep
      rw [hlog, hev, Option.toList_none, List.append_nil]
      exact ⟨hi.ids, hi.open', hlost⟩
  · have hpcs : (∀ id u pc, (p.1.thread h).pc = .read id u pc → ∀ b, pc ≠ .acquire (.returned b)) ∧
        ∀ id content u pc, (p.1.thread h).pc = .write id content u pc →
          (∀ b, pc ≠ .acquire (.returned b)) ∧ ∀ rec, pc ≠ .append rec [] := by
      rcases handled_or_unanswered henc hr with hi | hi
      · refine ⟨fun id u pc hpc => ?_, fun id content u pc hpc => ?_⟩
        · have hpend := hi.handles
          rw [hpc] at hpend
          obtain ⟨_, _, _, -, -, -, -, hfine⟩ := hpend
          exact hfine.acquiring
        · have hpend := hi.handles
          rw [hpc] at hpend
          obtain ⟨_, _, _, -, -, -, -, hfine⟩ := hpend
          exact ⟨hfine.acquiring, hfine.appending⟩
      · have hlost := hi.lost
        refine ⟨fun id u pc hpc => ?_, fun id content u pc hpc => ⟨?_, ?_⟩⟩
        · rw [hpc] at hlost
          cases hlost
        · rintro b rfl
          rw [hpc] at hlost
          cases hlost
        · rintro rec rfl
          rw [hpc] at hlost
          cases hlost
    have hcan : ∃ b r, handlerStep cfg h p.1.shared (p.1.thread h) b = some r ∧
        storageFails (p.1.thread h).pc b = false ∧ serviceFails cfg (p.1.thread h).pc b = false ∧
        getsObject b = true := can_step hhand hpcs.1 hpcs.2
    obtain ⟨b, r, hstep, hstore, hserve, hobj⟩ := hcan
    exact ⟨b, _, Pool.withLocal_step.2 ⟨r.1, r.2, hstep, rfl⟩, hstore, fun _ => ⟨hserve, hobj⟩⟩

/-! ### Runs -/

instance (fields : List (Text × Json)) : Decidable (isRequest fields) :=
  match h : getField fields (lit "type") with
  | .str t => decidable_of_iff (t = typeRequest) (by simp [isRequest, h])
  | .null | .bool _ | .int _ | .float _ _ | .arr _ | .obj _ => isFalse (by simp [isRequest, h])

instance (pc : HandlerPc H) (b : HandlerAct) : Decidable (AnswerableStep cfg pc b) := by
  unfold AnswerableStep
  split <;> infer_instance

instance (p : Pool.State H (DistResServer H) (ClientHandler H) × (H → List ConnEvent))
    (a : H × HandlerAct) : Decidable (Works cfg h p a) :=
  inferInstanceAs (Decidable (_ ∧ (_ → _ ∧ _)))

instance (p : Pool.State H (DistResServer H) (ClientHandler H) × (H → List ConnEvent))
    (a : H × HandlerAct) : Decidable (Answerable cfg h p a) :=
  inferInstanceAs (Decidable (_ → AnswerableStep ..))

/-- A REQUEST whose action is a list. -/
def listAction : Json :=
  .obj [(lit "type", .str typeRequest), (lit "id", .int 1), (lit "action", .arr [])]

omit [Fintype H] in
theorem transcripts_start {ok} :
    (transcripts cfg H (utf8 [])).Reach ok (serverStart cfg, fun _ => []) :=
  .init ⟨⟨rfl, fun _ => rfl⟩, rfl⟩

/-- Its handler cleans up, and no RESPONSE goes out. -/
theorem listAction_unanswered :
    ¬ ∀ p, (transcripts shippedConfig (Fin 1) (utf8 [])).Reach (Works shippedConfig 0) p →
      AnsweredInOrder 0 p := by
  intro hall
  have hs : ((transcripts shippedConfig (Fin 1) (utf8 [])).runIf (Works shippedConfig 0)
      (serverStart shippedConfig, fun _ => []) [(0, .accept), (0, .receive listAction)]).map (fun p =>
        ((requestIds (p.2 0)).length, (responsesIn (p.1.shared.sockets 0)).length,
          (p.1.thread 0).pc.inHand.length)) = some (1, 0, 0) := by decide
  obtain ⟨p, hrun, hval⟩ := Option.map_eq_some_iff.1 hs
  simp only [Prod.mk.injEq] at hval
  obtain ⟨hreq, hresp, hhand⟩ := hval
  have hids := congrArg List.length (hall p (transcripts_start.runIf hrun)).ids
  rw [List.length_append, List.length_map, hreq, hresp, hhand] at hids
  cases hids

/-- Two LOGINs, a WRITE and a READ are answered in order; a list as an action is not answered. -/
theorem sessionRun_answered :
    (∃ p, (transcripts shippedConfig (Fin 1) (utf8 [])).runIf
        (fun p a => Works shippedConfig 0 p a ∧ Answerable shippedConfig 0 p a)
        (serverStart shippedConfig, fun _ => []) (sessionRun 0) = some p ∧
      (responsesIn (p.1.shared.sockets 0)).length = 4 ∧ AnsweredInOrder 0 p) ∧
    ∃ p q, (transcripts shippedConfig (Fin 1) (utf8 [])).Reach (Works shippedConfig 0) p ∧
      (transcripts shippedConfig (Fin 1) (utf8 [])).step p (0, .receive listAction) = some q ∧
        Unanswered (q.2 0) (q.1.thread 0) := by
  have hiff := answered_in_order_iff shippedConfig (show encodable [] = true from rfl) (0 : Fin 1)
  constructor
  · have hs : ((transcripts shippedConfig (Fin 1) (utf8 [])).runIf
        (fun p a => Works shippedConfig 0 p a ∧ Answerable shippedConfig 0 p a)
        (serverStart shippedConfig, fun _ => []) (sessionRun 0)).map
          (fun p => (responsesIn (p.1.shared.sockets 0)).length) = some 4 := by decide +kernel
    obtain ⟨p, hrun, hlen⟩ := Option.map_eq_some_iff.1 hs
    exact ⟨p, hrun, hlen, hiff.1 p (transcripts_start.runIf hrun)⟩
  · have hs : (((transcripts shippedConfig (Fin 1) (utf8 [])).runIf (Works shippedConfig 0)
        (serverStart shippedConfig, fun _ => []) [(0, .accept)]).bind fun p =>
          ((transcripts shippedConfig (Fin 1) (utf8 [])).step p (0, .receive listAction)).map fun q =>
            (p, q)).map (fun x => (decide (Works shippedConfig 0 x.1 (0, .receive listAction)),
              decide (Answerable shippedConfig 0 x.1 (0, .receive listAction)))) =
        some (true, false) := by decide
    obtain ⟨⟨p, q⟩, hpq, hval⟩ := Option.map_eq_some_iff.1 hs
    obtain ⟨p', hrun, hq⟩ := Option.bind_eq_some_iff.1 hpq
    obtain ⟨q', hstep, heq⟩ := Option.map_eq_some_iff.1 hq
    cases heq
    obtain ⟨hw, hno⟩ := Prod.mk.inj hval
    have hreach : (transcripts shippedConfig (Fin 1) (utf8 [])).Reach (Works shippedConfig 0) p :=
      transcripts_start.runIf hrun
    refine ⟨p, q, hreach, hstep, hiff.2.1 p _ q hreach (of_decide_eq_true hw) hstep
      (of_decide_eq_false hno) q (.init rfl)⟩

end Run

end DistRes
