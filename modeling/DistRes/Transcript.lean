import DistRes.Notification
import DistRes.Service

/-!
# The transcript of a connection

What happens on one connection, in order: the messages that its handler gets, what the credential
database and the semaphore say, the records that it begins to append, and the RESPONSEs that go out.

* `transcripts` — the server with the transcript of every connection;
* `LatestLogin` — whose session a transcript ends in, told from the messages and the answers alone;
* `Follows` — where a handler stands in its transcript;
* `resource_only_in_session` — file content goes out, and records are appended, in a session only, and
  under the user of the latest LOGIN.
-/

namespace DistRes

open Lib

/-! ## Transcripts -/

/-- What happens on a connection. -/
inductive ConnEvent
  | received (message : Json)
  | hungUp
  /-- what `authenticate` returns, or `none` where it raises -/
  | authenticated (userId username : Json) (result : Option Bool)
  /-- what `sessions.acquire` returns -/
  | slot (acquired : Bool)
  /-- the file is open, and the record is about to be written to it -/
  | opened (rec : Text)
  | answered (r : Response)

section Transcripts

variable {H : Type} [DecidableEq H]

/-- What happens on the connection of a handler with its step. -/
def connEvent (cfg : Config) (s : DistResServer H) (l : ClientHandler H) (a : HandlerAct) :
    Option ConnEvent :=
  match l.pc, a with
  | .recv, .receive m => some (.received m)
  | .recv, .hangup => some .hungUp
  | .login _ (.authenticate u n), .go => some (.authenticated u n (authenticate cfg u n))
  | .login _ (.acquire _ _), .go => some (.slot (decide (s.sessions ≠ 0)))
  | .write _ content u pc, .data b =>
    match pc.event u (pyFormat cfg.strRepr content) b with
    | some (.opened rec) => some (.opened rec)
    | _ => none
  | .respond r _, .go => some (.answered r)
  | _, _ => none

/-- The server with the transcript of every connection. -/
def transcripts (cfg : Config) (H : Type) [DecidableEq H] (file : Bytes) :=
  (serverPool cfg H file).withLocal ([] : List ConnEvent) fun log s l a =>
    log ++ (connEvent cfg s l a).toList

/-! ## The latest LOGIN -/

/-- The message is a LOGIN with the given user id and name. -/
def LoginRequest (m : Json) (userId username : Json) : Prop :=
  ∃ fields, m = .obj fields ∧ isRequest fields ∧ actionOf fields = .str actionLogin ∧
    getField fields (lit "user_id") = userId ∧ getField fields (lit "username") = username

/-- The message is a LOGOUT. -/
def LogoutRequest (m : Json) : Prop :=
  ∃ fields, m = .obj fields ∧ isRequest fields ∧ actionOf fields = .str actionLogout

/-- A LOGIN is authenticated and gets a slot. -/
def admission (m : Json) (u n : Text) : List ConnEvent :=
  [.received m, .authenticated (.str u) (.str n) (some true), .slot true]

/-- The event ends no session: it is no LOGOUT, and no slot for a further one. -/
def ConnEvent.Keeps (e : ConnEvent) : Prop :=
  e ≠ .slot true ∧ ∀ m, e = .received m → ¬ LogoutRequest m

/-- The transcript tells of a LOGIN of `u` that was authenticated, got a slot and was answered, and of
no LOGOUT and no other such LOGIN after it. -/
def LatestLogin (log : List ConnEvent) (u : Text) : Prop :=
  ∃ before m n r after, log = before ++ admission m u n ++ .answered r :: after ∧
    LoginRequest m (.str u) (.str n) ∧ r.status = statusOk ∧ ∀ e ∈ after, e.Keeps

theorem LatestLogin.concat {log : List ConnEvent} {u : Text} (h : LatestLogin log u) {e : ConnEvent}
    (he : e.Keeps) : LatestLogin (log ++ [e]) u := by
  obtain ⟨before, m, n, r, after, rfl, hm, hr, hafter⟩ := h
  refine ⟨before, m, n, r, after ++ [e], by simp, hm, hr, fun d hd => ?_⟩
  rcases List.mem_append.1 hd with hd | hd
  · exact hafter d hd
  · rw [List.mem_singleton.1 hd]
    exact he

/-- A LOGIN that is admitted is the latest one once it is answered. -/
theorem latestLogin_answered {before : List ConnEvent} {m : Json} {u n : Text} {r : Response}
    (hm : LoginRequest m (.str u) (.str n)) (hr : r.status = statusOk) :
    LatestLogin (before ++ admission m u n ++ [.answered r]) u :=
  ⟨before, m, n, r, [], rfl, hm, hr, nofun⟩

/-- The session of the handler, if it has one, is that of the latest LOGIN. -/
def InSession (log : List ConnEvent) (userId : Option Text) : Prop :=
  ∀ u, userId = some u → LatestLogin log u

theorem InSession.concat {log : List ConnEvent} {userId : Option Text} (h : InSession log userId)
    {e : ConnEvent} (he : e.Keeps) : InSession (log ++ [e]) userId := fun u hu => (h u hu).concat he

theorem keeps_received {m : Json} (hm : ¬ LogoutRequest m) : (ConnEvent.received m).Keeps :=
  ⟨nofun, fun m' hm' => by cases hm'; exact hm⟩

theorem keeps_authenticated (u n : Json) (b : Option Bool) : (ConnEvent.authenticated u n b).Keeps :=
  ⟨nofun, nofun⟩

theorem keeps_refused : (ConnEvent.slot false).Keeps := ⟨nofun, nofun⟩

theorem keeps_opened (rec : Text) : (ConnEvent.opened rec).Keeps := ⟨nofun, nofun⟩

theorem keeps_answered (r : Response) : (ConnEvent.answered r).Keeps := ⟨nofun, nofun⟩

/-- A message that asks for another action is no LOGOUT. -/
theorem not_logout {fields : List (Text × Json)} (h : actionOf fields ≠ .str actionLogout) :
    ¬ LogoutRequest (.obj fields) := by
  rintro ⟨fields', heq, -, ha⟩
  cases heq
  exact h ha

/-! ## Where a handler stands in its transcript -/

/-- The RESPONSE acknowledges the LOGIN of `u` that the transcript ends with. -/
def Acknowledges (log : List ConnEvent) (userId : Option Text) (r : Response) (next : Next) : Prop :=
  ∃ before m u n, log = before ++ admission m u n ∧ LoginRequest m (.str u) (.str n) ∧
    userId = some u ∧ r.status = statusOk ∧ r.content = none ∧ next = .loop

/-- Where a handler that is in no login stands in its transcript, with the session `userId`. -/
def HandlerPc.follows (log : List ConnEvent) (userId : Option Text) : HandlerPc H → Prop
  | .connecting => userId = none
  | .recv | .publish _ => InSession log userId
  | .respond r next => Acknowledges log userId r next ∨ r.content = none ∧ next = .release ∨
      InSession log userId ∧ next ≠ .release ∧ (r.content.isSome → userId.isSome)
  | .login _ (.authenticate u n) => ∃ before m, log = before ++ [.received m] ∧ LoginRequest m u n ∧
      InSession before userId
  | .login _ (.isActive u n) | .login _ (.acquire u n) => ∃ before m,
      log = before ++ [.received m, .authenticated (.str u) (.str n) (some true)] ∧
        LoginRequest m (.str u) (.str n) ∧ InSession before userId
  | .login _ (.hold u n) => ∃ before m, log = before ++ admission m u n ∧
      LoginRequest m (.str u) (.str n)
  | .login _ (.register u n) => userId = some u ∧ ∃ before m, log = before ++ admission m u n ∧
      LoginRequest m (.str u) (.str n)
  | .login _ (.subscribe u) | .login _ (.version u) => userId = some u ∧ ∃ before m n,
      log = before ++ admission m u n ∧ LoginRequest m (.str u) (.str n)
  | .read _ u _ | .readDone _ u _ | .writeDone _ _ u _ => userId = some u ∧ LatestLogin log u
  | .write _ content u pc => userId = some u ∧ LatestLogin log u ∧ (pc.early = true → ∃ before m,
      log = before ++ [.received (.obj m)] ∧ isWrite m ∧ content = writeContent m) ∧
        ∀ rec rest, pc = .append rec rest → ∃ before, log = before ++ [.opened rec] ∧ ∃ done,
          utf8 rec = done ++ rest
  | .release .unhold _ | .release .free _ => userId = none
  | .release _ _ | .ended => True

def Follows (log : List ConnEvent) (l : ClientHandler H) : Prop := l.pc.follows log l.userId

/-- What has to come before an event: a session before content goes out, and before a record that
carries its user and the content of the WRITE in hand. -/
def Authorised (cfg : Config) (before : List ConnEvent) : ConnEvent → Prop
  | .answered r => r.content.isSome → ∃ u, LatestLogin before u
  | .opened rec => ∃ u stamp before' m, LatestLogin before u ∧
      before = before' ++ [.received (.obj m)] ∧ isWrite m ∧
        rec = record stamp u (pyFormat cfg.strRepr (writeContent m))
  | _ => True

variable {cfg : Config} {h : H} {s s' : DistResServer H} {l l' : ClientHandler H} {a : HandlerAct}
  {log : List ConnEvent}

section

omit [DecidableEq H]

theorem follows_releaseSession (l : ClientHandler H) (caller : Caller) (log : List ConnEvent) :
    Follows log (l.releaseSession caller) := by
  obtain ⟨u, holds, pc⟩ := l
  unfold ClientHandler.releaseSession
  cases u with
  | some u => trivial
  | none =>
    cases holds with
    | true => exact rfl
    | false =>
      cases caller with
      | logout => exact nofun
      | cleanup => trivial

theorem follows_cleanup (l : ClientHandler H) (log : List ConnEvent) : Follows log l.cleanup :=
  follows_releaseSession l .cleanup log

theorem follows_reject (h : InSession log l.userId) (id : Json) (message : Text) :
    Follows log (l.reject id message) :=
  .inr (.inr ⟨h, nofun, fun hc => by cases hc⟩)

theorem follows_dispatch {m : Json} {l' : ClientHandler H} (hc : InSession log l.userId)
    (hd : Dispatch cfg l m l') : Follows (log ++ [.received m]) l' := by
  have hother : ∀ {fields b}, m = .obj fields → actionOf fields = .str b → b ≠ actionLogout →
      InSession (log ++ [.received m]) l.userId := by
    rintro fields b rfl hb hne
    refine hc.concat (keeps_received (not_logout fun h => hne ?_))
    exact Json.str.inj (hb.symm.trans h)
  cases hd with
  | notDict | unhashable => exact follows_cleanup l _
  | ignored hreq =>
    refine hc.concat (keeps_received ?_)
    rintro ⟨fields, heq, hreq', -⟩
    cases heq
    exact hreq hreq'
  | login hreq ha => exact ⟨log, _, rfl, ⟨_, rfl, hreq, ha, rfl, rfl⟩, hc⟩
  | refused hreq ha hu =>
    rcases ha with ha | ha
    · exact follows_reject (hother rfl ha (by decide)) _ _
    · exact follows_reject (hother rfl ha (by decide)) _ _
  | read u hreq ha hu => exact ⟨hu, hother rfl ha (by decide) u hu⟩
  | write u hreq ha hu =>
    exact ⟨hu, hother rfl ha (by decide) u hu, fun _ => ⟨log, _, rfl, ⟨hreq, ha⟩, rfl⟩, nofun⟩
  | logout hreq ha => exact .inr (.inl ⟨rfl, rfl⟩)
  | ping hreq ha =>
    exact .inr (.inr ⟨hother rfl ha (by decide), nofun, fun hc => by cases hc⟩)
  | unknown hreq _ ha =>
    exact follows_reject (hc.concat (keeps_received (not_logout (ha _ (by simp [knownActions]))))) _ _

end

theorem LoginRequest.not_logout {m u n : Json} (hm : LoginRequest m u n) : ¬ LogoutRequest m := by
  obtain ⟨fields, rfl, -, ha, -⟩ := hm
  exact DistRes.not_logout fun h =>
    absurd (Json.str.inj (ha.symm.trans h) : actionLogin = actionLogout) (by decide)

/-- A LOGIN does not disturb the session before it has a slot. -/
theorem current_asked {before : List ConnEvent} {userId : Option Text} {m u n : Json}
    (hc : InSession before userId) (hm : LoginRequest m u n) (b : Option Bool) :
    InSession (before ++ [.received m, .authenticated u n b]) userId := by
  rw [show before ++ [.received m, .authenticated u n b] =
    before ++ [.received m] ++ [.authenticated u n b] by simp]
  exact (hc.concat (keeps_received hm.not_logout)).concat (keeps_authenticated u n b)

omit [DecidableEq H] in
theorem follows_login {id : Json} {pc : LoginPc} (hpc : l.pc = .login id pc) (hf : Follows log l) :
    Follows (log ++ (connEvent cfg s l .go).toList) (handleLogin cfg h s l id pc).2 := by
  obtain ⟨userId, holds, _⟩ := l
  simp only at hpc
  subst hpc
  cases pc with
  | authenticate u n =>
    obtain ⟨before, m, rfl, hm, hc⟩ := hf
    have hlog : before ++ [.received m] ++
        (connEvent cfg s ⟨userId, holds, .login id (.authenticate u n)⟩ .go).toList =
          before ++ [.received m, .authenticated u n (authenticate cfg u n)] := by
      simp [connEvent]
    rw [hlog]
    simp only [handleLogin]
    split
    · rename_i u n ha
      rw [ha]
      exact ⟨before, m, rfl, hm, hc⟩
    · exact follows_reject (current_asked hc hm _) _ _
    · exact follows_cleanup _ _
  | isActive u n =>
    obtain ⟨before, m, rfl, hm, hc⟩ := hf
    simp only [handleLogin, connEvent, Option.toList_none, List.append_nil]
    split
    · exact follows_reject (current_asked hc hm _) _ _
    · exact ⟨before, m, rfl, hm, hc⟩
  | acquire u n =>
    obtain ⟨before, m, rfl, hm, hc⟩ := hf
    simp only [handleLogin, connEvent, Option.toList_some]
    split
    · rename_i h0
      rw [h0]
      exact follows_reject ((current_asked hc hm _).concat keeps_refused) _ _
    · rename_i h0
      refine ⟨before, m, ?_, hm⟩
      simp [admission, h0]
  | hold u n =>
    obtain ⟨before, m, rfl, hm⟩ := hf
    simp only [handleLogin, connEvent, Option.toList_none, List.append_nil]
    exact ⟨rfl, before, m, rfl, hm⟩
  | register u n =>
    obtain ⟨hu, before, m, rfl, hm⟩ := hf
    simp only [handleLogin, connEvent, Option.toList_none, List.append_nil]
    exact ⟨hu, before, m, n, rfl, hm⟩
  | subscribe u =>
    simp only [handleLogin, connEvent, Option.toList_none, List.append_nil]
    exact hf
  | version u =>
    obtain ⟨hu, before, m, n, rfl, hm⟩ := hf
    simp only [handleLogin, connEvent, Option.toList_none, List.append_nil]
    exact .inl ⟨before, m, u, n, rfl, hm, hu, rfl, rfl, rfl⟩

omit [DecidableEq H] in
/-- A step without an event. -/
theorem follows_quiet (hn : connEvent cfg s l a = none) (hl : Follows log l') :
    (∀ e ∈ connEvent cfg s l a, Authorised cfg log e) ∧
      Follows (log ++ (connEvent cfg s l a).toList) l' := by
  rw [hn, Option.toList_none, List.append_nil]
  exact ⟨nofun, hl⟩

theorem follows_write {id content : Json} {u : Text} {pc : WritePc} {b : DataAct}
    (hpc : l.pc = .write id content u pc) (hf : Follows log l)
    (hs : handleWrite cfg h s l id content u pc b = some (s', l')) :
    (∀ e ∈ connEvent cfg s l (.data b), Authorised cfg log e) ∧
      Follows (log ++ (connEvent cfg s l (.data b)).toList) l' := by
  unfold Follows at hf
  rw [hpc] at hf
  obtain ⟨hu, hlog, hearly, happ⟩ := hf
  obtain ⟨d, pc', hw, -, rfl⟩ := handleWrite_cases hs
  have hev : connEvent cfg s l (.data b) =
      match pc.event u (pyFormat cfg.strRepr content) b with
      | some (.opened rec) => some (.opened rec)
      | _ => none := by simp only [connEvent, hpc]
  cases writeResource_writes hw with
  | early _ _ h1 h2 h3 =>
    rw [h3] at hev
    exact follows_quiet hev
      ⟨hu, hlog, fun _ => hearly h1, fun rec rest hp => by rw [hp] at h2; cases h2⟩
  | fails o _ ho _ h3 =>
    rw [h3] at hev
    have hearly' : pc'.early ≠ true := by
      intro he
      cases pc' with
      | release | done | append | bump => cases he
      | _ => cases ho
    exact follows_quiet hev
      ⟨hu, hlog, fun he => absurd he hearly', fun rec rest hp => by rw [hp] at ho; cases ho⟩
  | opened stamp _ h3 =>
    rw [h3] at hev
    obtain ⟨before, m, rfl, hm, rfl⟩ := hearly rfl
    rw [hev]
    refine ⟨fun e he => ?_, hu, hlog.concat (keeps_opened _), nofun, fun rec rest hp => ?_⟩
    · cases he
      exact ⟨u, stamp, before, m, hlog, rfl, hm, rfl⟩
    · cases hp
      exact ⟨_, rfl, [], rfl⟩
  | @flushed rec rest n ha _ _ _ =>
    subst ha
    refine follows_quiet hev ⟨hu, hlog, nofun, fun rec' rest' hp => ?_⟩
    cases hp
    obtain ⟨before, rfl, done, hdone⟩ := happ _ _ rfl
    refine ⟨before, rfl, done ++ rest.take n, ?_⟩
    rw [hdone, List.append_assoc, List.take_append_drop]
  | closed n ha _ _ _ =>
    subst ha
    exact follows_quiet hev ⟨hu, hlog, nofun, nofun⟩
  | bumped rec ha _ _ =>
    subst ha
    exact follows_quiet hev ⟨hu, hlog, nofun, nofun⟩
  | released o _ _ h3 =>
    rw [h3] at hev
    exact follows_quiet hev ⟨hu, hlog, nofun, nofun⟩

omit [DecidableEq H] in
theorem follows_respond {r : Response} {next : Next} (hpc : l.pc = .respond r next)
    (hf : Follows log l) :
    Authorised cfg log (.answered r) ∧ Follows (log ++ [.answered r]) (l.proceed next) := by
  unfold Follows at hf
  rw [hpc] at hf
  rcases hf with ⟨before, m, u, n, rfl, hm, hu, hr, hc, rfl⟩ | ⟨hc, rfl⟩ | ⟨hlog, hnext, hc⟩
  · refine ⟨fun h => absurd h (by rw [hc]; nofun), fun v hv => ?_⟩
    cases hu.symm.trans hv
    exact latestLogin_answered hm hr
  · exact ⟨fun h => absurd h (by rw [hc]; nofun), follows_releaseSession l .logout _⟩
  · refine ⟨fun h => ?_, ?_⟩
    · obtain ⟨u, hu⟩ := Option.isSome_iff_exists.1 (hc h)
      exact ⟨u, hlog u hu⟩
    · have hlog' := hlog.concat (keeps_answered r)
      cases next with
      | loop | publish => exact hlog'
      | release => exact absurd rfl hnext

omit [DecidableEq H] in
theorem follows_release {pc : ReleasePc} {caller : Caller} (hpc : l.pc = .release pc caller)
    (hf : Follows log l) : Follows log (releaseStep cfg s l caller pc).2 := by
  unfold Follows at hf
  rw [hpc] at hf
  cases pc with
  | unsubscribe | unregister => trivial
  | clear => exact follows_releaseSession _ caller log
  | free =>
    simp only [releaseStep]
    split
    · exact hf
    · cases caller with
      | logout => exact follows_cleanup l log
      | cleanup => trivial
  | unhold =>
    have hu : l.userId = none := hf
    cases caller with
    | logout => exact fun u h => by cases hu.symm.trans h
    | cleanup => trivial

/-- **A step of the handler keeps to the transcript**, and what happens with it is authorised. -/
theorem follows_step (hf : Follows log l) (hs : handlerStep cfg h s l a = some (s', l')) :
    (∀ e ∈ connEvent cfg s l a, Authorised cfg log e) ∧
      Follows (log ++ (connEvent cfg s l a).toList) l' := by
  have hf' : l.pc.follows log l.userId := hf
  cases handlerStep_cases hs with
  | accept hpc =>
    rw [hpc] at hf'
    refine follows_quiet (by simp only [connEvent, hpc]) fun u hu => ?_
    rw [show l.userId = none from hf'] at hu
    cases hu
  | receive m hpc =>
    rw [hpc] at hf'
    have he : connEvent cfg s l (.receive m) = some (.received m) := by simp only [connEvent, hpc]
    rw [he]
    exact ⟨fun e h => by cases h; trivial, follows_dispatch hf' (dispatch_cases cfg l m)⟩
  | hangup hpc =>
    have he : connEvent cfg s l .hangup = some .hungUp := by simp only [connEvent, hpc]
    rw [he]
    exact ⟨fun e h => by cases h; trivial, follows_cleanup l _⟩
  | respond r next hpc =>
    have he : connEvent cfg s l .go = some (.answered r) := by simp only [connEvent, hpc]
    obtain ⟨hauth, hl⟩ := follows_respond hpc hf
    rw [he]
    exact ⟨fun e h => by cases h; exact hauth, hl⟩
  | unsent r next hpc => exact follows_quiet (by simp only [connEvent, hpc]) (follows_cleanup l log)
  | login id pc hpc =>
    refine ⟨fun e he => ?_, follows_login hpc hf⟩
    simp only [connEvent, hpc] at he
    cases pc <;> cases he <;> trivial
  | authenticate id u n hpc =>
    exact follows_quiet (by simp only [connEvent, hpc]) (follows_cleanup l log)
  | read id u pc b hpc hread =>
    obtain ⟨d, pc', -, -, rfl⟩ := handleRead_cases hread
    rw [hpc] at hf'
    exact follows_quiet (by simp only [connEvent, hpc]) hf'
  | readRaised id u e hpc =>
    exact follows_quiet (by simp only [connEvent, hpc]) (follows_cleanup l log)
  | readReturns id u r hpc =>
    rw [hpc] at hf'
    exact follows_quiet (by simp only [connEvent, hpc]) hf'
  | readDone id u r hpc =>
    rw [hpc] at hf'
    obtain ⟨hu, hlog⟩ := hf'
    have hcur : InSession log l.userId := fun v hv => by cases hu.symm.trans hv; exact hlog
    refine follows_quiet (by simp only [connEvent, hpc]) ?_
    split
    · exact .inr (.inr ⟨hcur, nofun, fun _ => Option.isSome_iff_exists.2 ⟨u, hu⟩⟩)
    · exact follows_reject hcur _ _
  | write id content u pc b hpc hwrite => exact follows_write hpc hf hwrite
  | writeRaised id content u e hpc =>
    exact follows_quiet (by simp only [connEvent, hpc]) (follows_cleanup l log)
  | writeReturns id content u r hpc =>
    rw [hpc] at hf'
    exact follows_quiet (by simp only [connEvent, hpc]) ⟨hf'.1, hf'.2.1⟩
  | writeDone id content u r hpc =>
    rw [hpc] at hf'
    obtain ⟨hu, hlog⟩ := hf'
    have hcur : InSession log l.userId := fun v hv => by cases hu.symm.trans hv; exact hlog
    refine follows_quiet (by simp only [connEvent, hpc]) ?_
    split
    · exact .inr (.inr ⟨hcur, nofun, fun hc => by cases hc⟩)
    · exact follows_reject hcur _ _
  | publish pc pc' ok b d hpc hok hp =>
    rw [hpc] at hf'
    exact follows_quiet (by cases ok <;> simp only [connEvent, hpc]) hf'
  | published n hpc =>
    rw [hpc] at hf'
    exact follows_quiet (by simp only [connEvent, hpc]) hf'
  | release pc caller hpc =>
    exact follows_quiet (by simp only [connEvent, hpc]) (follows_release hpc hf)

/-! ## Every transcript -/

variable {file : Bytes}
  {p q : Pool.State H (DistResServer H) (ClientHandler H) × (H → List ConnEvent)}

theorem follows_of_reachable (hr : (transcripts cfg H file).Reachable p) (h : H) :
    InPlace (Authorised cfg) (p.2 h) ∧ Follows (p.2 h) (p.1.thread h) := by
  refine Pool.withLocal_invariant (P := serverPool cfg H file)
    (fun log l => InPlace (Authorised cfg) log ∧ Follows log l) ⟨inPlace_nil, rfl⟩
    (fun p t a g l _ _ hs ih => ?_) hr h
  obtain ⟨hauth, hl⟩ := follows_step ih.2 hs
  exact ⟨ih.1.append_toList hauth, hl⟩

/-- The RESPONSEs of a transcript. -/
def answersIn (log : List ConnEvent) : List Response :=
  log.filterMap fun e => match e with
    | .answered r => some r
    | _ => none

/-- The RESPONSEs that have gone out on a socket. -/
def responsesIn (sent : List ServerMessage) : List Response :=
  sent.filterMap fun m => match m with
    | .response r => some r
    | .event _ => none

/-- A RESPONSE goes out on the socket of the handler that answers, and nothing else is one. -/
theorem sockets_step (hs : handlerStep cfg h s l a = some (s', l')) (k : H) :
    responsesIn (s'.sockets k) = responsesIn (s.sockets k) ++
      if k = h then answersIn (connEvent cfg s l a).toList else [] := by
  cases handlerStep_sends hs with
  | nothing hsock hne =>
    have hev : answersIn (connEvent cfg s l a).toList = [] := by
      unfold connEvent
      split
      case h_6 r next hpc => exact absurd rfl (hne r next hpc)
      case h_5 =>
        split <;> rfl
      all_goals rfl
    rw [hsock, hev, ite_self, List.append_nil]
  | response r next hpc ha hs' =>
    have hev : answersIn (connEvent cfg s l a).toList = [r] := by
      rw [ha]
      simp [connEvent, hpc, answersIn]
    rw [hs', hev]
    by_cases hk : k = h
    · subst hk
      simp [DistResServer.send, responsesIn]
    · simp [DistResServer.send, responsesIn, hk]
  | event e u t todo n hpc ha hs' =>
    have hev : connEvent cfg s l a = none := by
      rw [ha]
      simp only [connEvent, hpc]
    rw [hs', hev]
    by_cases hk : k = t
    · subst hk
      simp [DistResServer.send, responsesIn, answersIn]
    · simp [DistResServer.send, responsesIn, answersIn, hk]

theorem answers_sent (hr : (transcripts cfg H file).Reachable p) (h : H) :
    responsesIn (p.1.shared.sockets h) = answersIn (p.2 h) := by
  refine hr.invariant (fun p => responsesIn (p.1.shared.sockets h) = answersIn (p.2 h)) ?_ ?_
  · rintro ⟨s, G⟩ ⟨⟨hs, -⟩, hG⟩
    have hs : s.shared = { data := { file := file }, sessions := cfg.maxSessions } := hs
    simp only at hG ⊢
    rw [hs, hG]
    rfl
  · rintro p ⟨t, a⟩ q - ih hs
    obtain ⟨g, l, hstep, rfl⟩ := Pool.withLocal_step.1 hs
    have hstep : handlerStep cfg t p.1.shared (p.1.thread t) a = some (g, l) := hstep
    simp only at ih ⊢
    rw [sockets_step hstep h, ih]
    by_cases hk : h = t
    · subst hk
      rw [if_pos rfl, Function.update_self]
      simp only [answersIn, List.filterMap_append]
    · rw [if_neg hk, Function.update_of_ne hk, List.append_nil]

/-- **A step that changes the file writes a piece of the record that its handler has opened last.** -/
def FileGrows (log : List ConnEvent) (file file' : Bytes) : Prop :=
  ∃ before rec done piece rest, log = before ++ [.opened rec] ∧ file' = file ++ piece ∧
    utf8 rec = done ++ piece ++ rest

theorem file_step (hf : Follows log l) (hs : handlerStep cfg h s l a = some (s', l')) :
    s'.data.file = s.data.file ∨ FileGrows log s.data.file s'.data.file := by
  cases handlerStep_serves hs with
  | quiet h1 | answers _ h1 => exact .inl h1
  | got _ h1 | written h1 => exact .inl (by rw [h1])
  | reports _ h1 | replies _ h1 => exact .inl (by rw [h1])
  | writes b hw _ heff =>
    unfold Follows at hf
    rw [pc_of_writing hw] at hf
    obtain ⟨-, -, -, happ⟩ := hf
    cases heff with
    | early h1 | bumped _ _ h1 | released _ h1 => exact .inl h1
    | fails _ h1 | opened _ h1 => exact .inl (by rw [h1])
    | @flushed rec rest n _ _ h1 _ =>
      obtain ⟨before, hlog, done, hdone⟩ := happ rec rest rfl
      refine .inr ⟨before, rec, done, rest.take n, rest.drop n, hlog, h1, ?_⟩
      rw [hdone, List.append_assoc, List.take_append_drop]
    | @closed rec rest n _ _ h1 _ =>
      obtain ⟨before, hlog, done, hdone⟩ := happ rec rest rfl
      exact .inr ⟨before, rec, done, rest, [], hlog, h1, by rw [hdone, List.append_nil]⟩

/-- **The resource is reached through a session only, and records carry its user.**  In every run, on
every connection, file content goes out in a RESPONSE only after a LOGIN that was authenticated, got a
slot and was answered, with no LOGOUT since; a record is opened only for a WRITE in such a session, with
the user of the latest such LOGIN and the content of the WRITE.  The RESPONSEs on a socket are those of
its transcript, and the file grows only by pieces of the record that the handler has opened last. -/
theorem resource_only_in_session (hr : (transcripts cfg H file).Reachable p) :
    (∀ h, InPlace (Authorised cfg) (p.2 h)) ∧
    (∀ h, responsesIn (p.1.shared.sockets h) = answersIn (p.2 h)) ∧
    ∀ h a q, (transcripts cfg H file).step p (h, a) = some q →
      q.1.shared.data.file = p.1.shared.data.file ∨
        FileGrows (p.2 h) p.1.shared.data.file q.1.shared.data.file := by
  refine ⟨fun h => (follows_of_reachable hr h).1, answers_sent hr, fun h a q hs => ?_⟩
  obtain ⟨g, l, hstep, rfl⟩ := Pool.withLocal_step.1 hs
  exact file_step (follows_of_reachable hr h).2 hstep

/-! ### Runs -/

/-- The latest LOGIN is one, and the session survives refused ones. -/
def sessionRun (h : H) : List (H × HandlerAct) :=
  (h, .accept) :: acceptLogin h (lit "ENG001") (lit "Alice") ++
    (h, .receive (requestMessage 3 actionLogin (loginParams (lit "ENG002") (lit "Eve")))) ::
    (h, .go) :: (h, .go) :: commitWrite h (lit "a") 16 ++ List.replicate 5 (h, .go) ++
    (h, .receive (requestMessage 4 actionRead [])) :: (h, .data (.lock false)) ::
    List.replicate 3 (h, .data .go) ++ (h, .data (.release 0)) :: List.replicate 3 (h, .go)

/-- A refused LOGIN in between, a WRITE and a READ: the record carries the user of the session, and the
content goes out. -/
theorem sessionRun_attributed :
    ∃ p, (transcripts shippedConfig (Fin 1) []).run (serverStart shippedConfig, fun _ => [])
        (sessionRun 0) = some p ∧
      p.1.shared.data.file = utf8 (record (lit "now") (lit "ENG001") (lit "a")) ∧
      (answersIn (p.2 0)).map Response.content =
        [none, none, none, some (record (lit "now") (lit "ENG001") (lit "a"))] ∧
      InPlace (Authorised shippedConfig) (p.2 0) := by
  have hs : ((transcripts shippedConfig (Fin 1) []).run (serverStart shippedConfig, fun _ => [])
      (sessionRun 0)).map (fun p => (p.1.shared.data.file, (answersIn (p.2 0)).map Response.content)) =
      some (utf8 (record (lit "now") (lit "ENG001") (lit "a")),
        [none, none, none, some (record (lit "now") (lit "ENG001") (lit "a"))]) := by
    decide +kernel
  obtain ⟨p, hrun, hval⟩ := Option.map_eq_some_iff.1 hs
  obtain ⟨hfile, hcontent⟩ := Prod.mk.inj hval
  have hr : (transcripts shippedConfig (Fin 1) []).Reachable p :=
    Machine.Reachable.run (s := (serverStart shippedConfig, fun _ => []))
      (.init ⟨⟨rfl, fun _ => rfl⟩, rfl⟩) hrun
  exact ⟨p, hrun, hfile, hcontent, (resource_only_in_session hr).1 0⟩

end Transcripts

end DistRes
