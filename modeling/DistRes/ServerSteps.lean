import DistRes.Server

/-!
# What the steps of a handler do

The inversion lemmas of `handlerStep` and of `_dispatch`, a case for every kind of step and of
message, from which the invariants of the server are proved.
-/

namespace DistRes

open Lib

section Steps

variable {H : Type} [DecidableEq H] {cfg : Config} {h : H} {s s' : DistResServer H}
  {l l' : ClientHandler H} {a : HandlerAct}

/-- The server after a step of `publish` that makes the given delivery. -/
def DistResServer.delivered (s : DistResServer H) : Option (H × Event) → DistResServer H
  | some (subscriber, event) => s.send subscriber (.event event)
  | none => s

/-- **The steps of the handler `h`.** -/
inductive HandlerStep (cfg : Config) (h : H) (s : DistResServer H) (l : ClientHandler H) :
    HandlerAct → DistResServer H → ClientHandler H → Prop
  | accept : l.pc = .connecting → HandlerStep cfg h s l .accept s { l with pc := .recv }
  | receive (message : Json) : l.pc = .recv →
      HandlerStep cfg h s l (.receive message) s (l.dispatch cfg message)
  | hangup : l.pc = .recv → HandlerStep cfg h s l .hangup s l.cleanup
  | respond (r : Response) (next : Next) : l.pc = .respond r next → cfg.encodes (.response r) = true →
      HandlerStep cfg h s l .go (s.send h (.response r)) (l.proceed next)
  | unsent (r : Response) (next : Next) : l.pc = .respond r next →
      HandlerStep cfg h s l .fail s l.cleanup
  | login (id : Json) (pc : LoginPc) : l.pc = .login id pc →
      HandlerStep cfg h s l .go (handleLogin cfg h s l id pc).1 (handleLogin cfg h s l id pc).2
  | authenticate (id userId username : Json) : l.pc = .login id (.authenticate userId username) →
      HandlerStep cfg h s l .fail s l.cleanup
  | read {s' : DistResServer H} {l' : ClientHandler H} (id : Json) (u : Text) (pc : ReadPc)
      (a : DataAct) : l.pc = .read id u pc →
      handleRead h s l id u pc a = some (s', l') → HandlerStep cfg h s l (.data a) s' l'
  | readRaised (id : Json) (u : Text) (e : Raised) : l.pc = .read id u (.done (.error e)) →
      HandlerStep cfg h s l .go s l.cleanup
  | readReturns (id : Json) (u : Text) (r : Result) : l.pc = .read id u (.done (.ok r)) →
      HandlerStep cfg h s l .go s { l with pc := .readDone id u r }
  | readDone (id : Json) (u : Text) (r : Result) : l.pc = .readDone id u r →
      HandlerStep cfg h s l .go (s.setReader u false)
        (if r.ok then
          l.respond { id, status := statusOk, version := some r.version, content := some r.text }
        else l.reject id r.text)
  | write {s' : DistResServer H} {l' : ClientHandler H} (id content : Json) (u : Text) (pc : WritePc)
      (a : DataAct) : l.pc = .write id content u pc →
      handleWrite cfg h s l id content u pc a = some (s', l') → HandlerStep cfg h s l (.data a) s' l'
  | writeRaised (id content : Json) (u : Text) (e : Raised) :
      l.pc = .write id content u (.done (.error e)) → HandlerStep cfg h s l .go s l.cleanup
  | writeReturns (id content : Json) (u : Text) (r : Result) :
      l.pc = .write id content u (.done (.ok r)) →
      HandlerStep cfg h s l .go s { l with pc := .writeDone id content u r }
  | writeDone (id content : Json) (u : Text) (r : Result) : l.pc = .writeDone id content u r →
      HandlerStep cfg h s l .go (s.setWriter u false)
        (if r.ok then
          l.respond { id, status := statusOk, version := some r.version, message := some r.text }
            (.publish r.version content)
        else l.reject id r.text)
  | publish (pc pc' : PublishPc H) (ok : Bool) (b : PubSubBroker H) (d : Option (H × Event)) :
      l.pc = .publish pc → (ok = false → ∃ e x todo n, pc = .deliver e (x :: todo) n) →
      publish s.broker ok pc = some (b, pc', d) → (∀ t e, d = some (t, e) → cfg.encodes (.event e) = true) →
      HandlerStep cfg h s l (if ok then .go else .fail) ({ s with broker := b }.delivered d)
        { l with pc := .publish pc' }
  | published (n : ℕ) : l.pc = .publish (.done n) → HandlerStep cfg h s l .go s { l with pc := .recv }
  | release (pc : ReleasePc) (caller : Caller) : l.pc = .release pc caller →
      HandlerStep cfg h s l .go (releaseStep cfg s l caller pc).1 (releaseStep cfg s l caller pc).2

theorem publishStep_cases {ok : Bool} {pc : PublishPc H} (hpc : l.pc = .publish pc)
    (hok : ok = false → ∃ e x todo n, pc = .deliver e (x :: todo) n)
    (hs : handlerStep.publishStep cfg s l ok pc = some (s', l')) :
    HandlerStep cfg h s l (if ok then .go else .fail) s' l' := by
  unfold handlerStep.publishStep at hs
  obtain ⟨⟨b, pc', d⟩, hr, he⟩ := Option.bind_eq_some_iff.1 hs
  have hstep : (∀ t e, d = some (t, e) → cfg.encodes (.event e) = true) →
      HandlerStep cfg h s l (if ok then .go else .fail) ({ s with broker := b }.delivered d)
        { l with pc := .publish pc' } := .publish pc pc' ok b d hpc hok hr
  rcases d with _ | ⟨t, e⟩
  · cases he
    exact hstep nofun
  · obtain ⟨henc, he⟩ := Option.ite_none_right_eq_some.1 he
    cases he
    refine hstep ?_
    rintro _ _ ⟨⟩
    exact henc

/-- A RESPONSE that is sent. -/
theorem respond_step {r : Response} {next : Next} (hpc : l.pc = .respond r next)
    (hs : handlerStep cfg h s l .go = some (s', l')) :
    cfg.encodes (.response r) = true ∧ s' = s.send h (.response r) ∧ l' = l.proceed next := by
  simp only [handlerStep, hpc] at hs
  obtain ⟨henc, hs⟩ := Option.ite_none_right_eq_some.1 hs
  cases hs
  exact ⟨henc, rfl, rfl⟩

/-- An EVENT that is delivered. -/
theorem deliver_step {e : Event} {u : Text} {t : H} {todo : List (Text × H)} {n : ℕ}
    (hpc : l.pc = .publish (.deliver e ((u, t) :: todo) n))
    (hs : handlerStep cfg h s l .go = some (s', l')) :
    cfg.encodes (.event e) = true ∧ s' = s.send t (.event e) ∧
      l' = { l with pc := .publish (.deliver e todo (n + 1)) } := by
  simp only [handlerStep, hpc, handlerStep.publishStep, publish, if_true, Option.bind_some] at hs
  obtain ⟨henc, hs⟩ := Option.ite_none_right_eq_some.1 hs
  cases hs
  exact ⟨henc, rfl, rfl⟩

theorem handlerStep_cases (hs : handlerStep cfg h s l a = some (s', l')) :
    HandlerStep cfg h s l a s' l' := by
  have pair : ∀ {p : DistResServer H × ClientHandler H}, some p = some (s', l') →
      s' = p.1 ∧ l' = p.2 := by
    rintro _ ⟨rfl⟩
    exact ⟨rfl, rfl⟩
  unfold handlerStep at hs
  split at hs
  all_goals rename_i hpc
  case h_1 =>
    cases hs
    exact .accept hpc
  case h_2 m =>
    cases hs
    exact .receive m hpc
  case h_3 =>
    cases hs
    exact .hangup hpc
  case h_4 r next =>
    obtain ⟨henc, hs⟩ := Option.ite_none_right_eq_some.1 hs
    cases hs
    exact .respond r next hpc henc
  case h_5 r next =>
    cases hs
    exact .unsent r next hpc
  case h_6 id pc =>
    obtain ⟨rfl, rfl⟩ := pair hs
    exact .login id pc hpc
  case h_7 id u n =>
    cases hs
    exact .authenticate id u n hpc
  case h_8 id u e =>
    cases hs
    exact .readRaised id u e hpc
  case h_9 id u r =>
    cases hs
    exact .readReturns id u r hpc
  case h_10 id u pc a => exact .read id u pc a hpc hs
  case h_11 id u r =>
    cases hs
    exact .readDone id u r hpc
  case h_12 id content u e =>
    cases hs
    exact .writeRaised id content u e hpc
  case h_13 id content u r =>
    cases hs
    exact .writeReturns id content u r hpc
  case h_14 id content u pc a => exact .write id content u pc a hpc hs
  case h_15 id content u r =>
    cases hs
    exact .writeDone id content u r hpc
  case h_16 n =>
    cases hs
    exact .published n hpc
  case h_17 =>
    refine publishStep_cases hpc ?_ hs
    exact nofun
  case h_18 => exact publishStep_cases hpc (fun _ => ⟨_, _, _, _, rfl⟩) hs
  case h_19 pc caller =>
    obtain ⟨rfl, rfl⟩ := pair hs
    exact .release pc caller hpc
  case h_20 => cases hs

/-! ## Inside a login -/

omit [DecidableEq H] in
/-- A step of a login leaves the handler on its way out, with a RESPONSE to send, or inside the login. -/
theorem handleLogin_pc (cfg : Config) (h : H) (s : DistResServer H) (id : Json) (pc : LoginPc)
    {P : HandlerPc H → Prop} (hcleanup : P l.cleanup.pc) (hrespond : ∀ r, P (.respond r .loop))
    (hlogin : ∀ pc', P (.login id pc')) : P (handleLogin cfg h s l id pc).2.pc := by
  cases pc with
  | authenticate u n =>
    simp only [handleLogin]
    split
    · exact hlogin _
    · exact hrespond _
    · exact hcleanup
  | isActive u n | acquire u n =>
    simp only [handleLogin]
    split
    · exact hrespond _
    · exact hlogin _
  | hold | register | subscribe => exact hlogin _
  | version => exact hrespond _

/-! ## Inside the data layer -/

/-- Only the data layer, and who is shown as reading or writing, are others than before. -/
structure InDataLayer (s : DistResServer H) (d : DataLayer H) (s' : DistResServer H) : Prop where
  data : s'.data = d
  broker : s'.broker = s.broker
  activeUsers : s'.activeUsers = s.activeUsers
  sockets : s'.sockets = s.sockets

theorem handleRead_cases {id : Json} {u : Text} {pc : ReadPc} {b : DataAct}
    (hs : handleRead h s l id u pc b = some (s', l')) :
    ∃ d pc', readResource h s.data pc b = some (d, pc') ∧ InDataLayer s d s' ∧
      l' = { l with pc := .read id u pc' } := by
  unfold handleRead at hs
  obtain ⟨⟨d, pc'⟩, hread, he⟩ := Option.map_eq_some_iff.1 hs
  refine ⟨d, pc', hread, ?_⟩
  split at he <;> cases he <;> exact ⟨⟨rfl, rfl, rfl, rfl⟩, rfl⟩

theorem handleWrite_cases {id content : Json} {u : Text} {pc : WritePc} {b : DataAct}
    (hs : handleWrite cfg h s l id content u pc b = some (s', l')) :
    ∃ d pc', writeResource h u (pyFormat cfg.strRepr content) s.data pc b = some (d, pc') ∧
      InDataLayer s d s' ∧ l' = { l with pc := .write id content u pc' } := by
  unfold handleWrite at hs
  obtain ⟨⟨d, pc'⟩, hwrite, he⟩ := Option.map_eq_some_iff.1 hs
  refine ⟨d, pc', hwrite, ?_⟩
  split at he <;> cases he <;> exact ⟨⟨rfl, rfl, rfl, rfl⟩, rfl⟩

/-! ## What goes out on the sockets -/

omit [DecidableEq H] in
theorem handleLogin_data (cfg : Config) (h : H) (s : DistResServer H) (l : ClientHandler H) (id : Json)
    (pc : LoginPc) :
    (handleLogin cfg h s l id pc).1.data = s.data ∧
      (handleLogin cfg h s l id pc).1.sockets = s.sockets := by
  unfold handleLogin
  repeat' split
  all_goals exact ⟨rfl, rfl⟩

omit [DecidableEq H] in
theorem releaseStep_data (cfg : Config) (s : DistResServer H) (l : ClientHandler H) (caller : Caller)
    (pc : ReleasePc) :
    (releaseStep cfg s l caller pc).1.data = s.data ∧
      (releaseStep cfg s l caller pc).1.sockets = s.sockets := by
  unfold releaseStep
  repeat' split
  all_goals exact ⟨rfl, rfl⟩

/-- **What a step of the handler `h` sends**: nothing, a RESPONSE on its own socket, or an EVENT on the
socket of a subscriber. -/
inductive Sends (h : H) (s : DistResServer H) (l : ClientHandler H) (a : HandlerAct)
    (s' : DistResServer H) (l' : ClientHandler H) : Prop
  | nothing : s'.sockets = s.sockets → (∀ r next, l.pc = .respond r next → a ≠ .go) →
      Sends h s l a s' l'
  | response (r : Response) (next : Next) : l.pc = .respond r next → a = .go →
      s' = s.send h (.response r) → l' = l.proceed next → Sends h s l a s' l'
  | event (e : Event) (u : Text) (k : H) (todo : List (Text × H)) (n : ℕ) :
      l.pc = .publish (.deliver e ((u, k) :: todo) n) → a = .go → s' = s.send k (.event e) →
      l' = { l with pc := .publish (.deliver e todo (n + 1)) } → Sends h s l a s' l'

theorem publish_sends {pc pc' : PublishPc H} {ok : Bool} {b : PubSubBroker H} {d : Option (H × Event)}
    (hpc : l.pc = .publish pc) (hp : publish s.broker ok pc = some (b, pc', d)) :
    Sends h s l (if ok then .go else .fail) ({ s with broker := b }.delivered d)
      { l with pc := .publish pc' } := by
  have hne : ∀ r next, l.pc = .respond r next → (if ok then HandlerAct.go else .fail) ≠ .go := by
    intro r next h
    rw [hpc] at h
    cases h
  unfold publish at hp
  split at hp
  case h_2 e u k todo n =>
    split_ifs at hp with hok <;> cases hp
    · exact .event e u k todo n hpc (if_pos hok) rfl rfl
    · exact .nothing rfl hne
  case h_5 => cases hp
  all_goals
    cases hp
    exact .nothing rfl hne

theorem handlerStep_sends (hs : handlerStep cfg h s l a = some (s', l')) : Sends h s l a s' l' := by
  have quiet : s'.sockets = s.sockets → (∀ r next, l.pc ≠ .respond r next) → Sends h s l a s' l' :=
    fun hsock hne => .nothing hsock fun r next hpc => absurd hpc (hne r next)
  cases handlerStep_cases hs with
  | respond r next hpc => exact .response r next hpc rfl rfl rfl
  | unsent r next hpc => exact .nothing rfl fun _ _ _ => nofun
  | login id pc hpc => exact quiet (handleLogin_data cfg h s l id pc).2 (by rw [hpc]; nofun)
  | read id u pc b hpc hread =>
    obtain ⟨d, pc', -, hin, -⟩ := handleRead_cases hread
    exact quiet hin.sockets (by rw [hpc]; nofun)
  | write id content u pc b hpc hwrite =>
    obtain ⟨d, pc', -, hin, -⟩ := handleWrite_cases hwrite
    exact quiet hin.sockets (by rw [hpc]; nofun)
  | publish pc pc' ok b d hpc hok hp => exact publish_sends hpc hp
  | release pc caller hpc => exact quiet (releaseStep_data cfg s l caller pc).2 (by rw [hpc]; nofun)
  | accept hpc | receive _ hpc | hangup hpc | authenticate _ _ _ hpc | readRaised _ _ _ hpc
  | readReturns _ _ _ hpc | readDone _ _ _ hpc | writeRaised _ _ _ _ hpc
  | writeReturns _ _ _ _ hpc | writeDone _ _ _ _ hpc | published _ hpc =>
    exact quiet rfl (by rw [hpc]; nofun)

end Steps

/-! ## Dispatching a message -/

section Dispatching

variable {H : Type} {cfg : Config} {l : ClientHandler H}

/-- The dict is a REQUEST. -/
def isRequest (fields : List (Text × Json)) : Prop := getField fields (lit "type") = .str typeRequest

/-- The action that the dict asks for. -/
def actionOf (fields : List (Text × Json)) : Json := getField fields (lit "action")

/-- The id that the dict carries. -/
def idOf (fields : List (Text × Json)) : Json := getField fields (lit "id")

/-- A value that a dict can be asked for. -/
def hashable : Json → Bool
  | .arr _ | .obj _ => false
  | _ => true

/-- The actions that there is a method for. -/
def knownActions : List Text := [actionLogin, actionRead, actionWrite, actionLogout, actionPing]

/-- **What `_dispatch` makes of a message.** -/
inductive Dispatch (cfg : Config) (l : ClientHandler H) : Json → ClientHandler H → Prop
  | notDict {m : Json} : (∀ fields, m ≠ .obj fields) → Dispatch cfg l m l.cleanup
  | ignored {fields : List (Text × Json)} : ¬ isRequest fields →
      Dispatch cfg l (.obj fields) { l with pc := .recv }
  | unhashable {fields : List (Text × Json)} : isRequest fields → hashable (actionOf fields) = false →
      Dispatch cfg l (.obj fields) l.cleanup
  | login {fields : List (Text × Json)} : isRequest fields → actionOf fields = .str actionLogin →
      Dispatch cfg l (.obj fields) { l with
        pc := .login (idOf fields)
          (.authenticate (getField fields (lit "user_id")) (getField fields (lit "username"))) }
  | refused {fields : List (Text × Json)} : isRequest fields →
      actionOf fields = .str actionRead ∨ actionOf fields = .str actionWrite → l.userId = none →
      Dispatch cfg l (.obj fields) (l.reject (idOf fields) (lit "Not logged in"))
  | read {fields : List (Text × Json)} (u : Text) : isRequest fields →
      actionOf fields = .str actionRead → l.userId = some u →
      Dispatch cfg l (.obj fields) { l with pc := .read (idOf fields) u (.acquire .enter) }
  | write {fields : List (Text × Json)} (u : Text) : isRequest fields →
      actionOf fields = .str actionWrite → l.userId = some u →
      Dispatch cfg l (.obj fields) { l with
        pc := .write (idOf fields) ((field? fields (lit "content")).getD (.str [])) u
          (.acquire .enter) }
  | logout {fields : List (Text × Json)} : isRequest fields → actionOf fields = .str actionLogout →
      Dispatch cfg l (.obj fields) (l.respond
        { id := idOf fields, status := statusOk, message := some (lit "Logged out") } .release)
  | ping {fields : List (Text × Json)} : isRequest fields → actionOf fields = .str actionPing →
      Dispatch cfg l (.obj fields) (l.respond
        { id := idOf fields, status := statusOk, message := some (lit "PONG") })
  | unknown {fields : List (Text × Json)} : isRequest fields → hashable (actionOf fields) = true →
      (∀ a ∈ knownActions, actionOf fields ≠ .str a) →
      Dispatch cfg l (.obj fields) (l.reject (idOf fields)
        (lit "Unknown action '" ++ pyFormat cfg.strRepr (actionOf fields) ++ lit "'"))

/-- An action that is a string, looked up in the dict of the methods. -/
theorem dispatch_action {fields : List (Text × Json)} {a : Text} (hreq : isRequest fields)
    (ha : actionOf fields = .str a) : Dispatch cfg l (.obj fields) (l.dispatch cfg (.obj fields)) := by
  simp only [actionOf] at ha
  simp only [ClientHandler.dispatch, show getField fields (lit "type") = .str typeRequest from hreq, ha,
    ne_eq, not_true_eq_false, if_false]
  split
  · rename_i h
    exact .login hreq (h ▸ ha)
  · split
    · rename_i h
      split
      · rename_i hu
        exact .refused hreq (.inl (h ▸ ha)) hu
      · rename_i u hu
        exact .read u hreq (h ▸ ha) hu
    · split
      · rename_i h
        split
        · rename_i hu
          exact .refused hreq (.inr (h ▸ ha)) hu
        · rename_i u hu
          exact .write u hreq (h ▸ ha) hu
      · split
        · rename_i h
          exact .logout hreq (h ▸ ha)
        · split
          · rename_i h
            exact .ping hreq (h ▸ ha)
          · rename_i h1 h2 h3 h4 h5
            rw [← ha]
            refine .unknown hreq (by rw [actionOf, ha]; rfl) fun b hb hab => ?_
            have hb' : a = b := Json.str.inj (ha.symm.trans hab)
            subst hb'
            simp [knownActions, h1, h2, h3, h4, h5] at hb

theorem dispatch_cases (cfg : Config) (l : ClientHandler H) (m : Json) :
    Dispatch cfg l m (l.dispatch cfg m) := by
  cases m with
  | obj fields =>
    by_cases hreq : isRequest fields
    · cases ha : actionOf fields with
      | str a => exact dispatch_action hreq ha
      | arr | obj =>
        have hd : l.dispatch cfg (.obj fields) = l.cleanup := by
          simp only [actionOf] at ha
          simp [ClientHandler.dispatch, show getField fields (lit "type") = .str typeRequest from hreq, ha]
        rw [hd]
        exact .unhashable hreq (by rw [ha]; rfl)
      | _ =>
        have hd : l.dispatch cfg (.obj fields) = l.reject (idOf fields)
            (lit "Unknown action '" ++ pyFormat cfg.strRepr (actionOf fields) ++ lit "'") := by
          simp only [actionOf] at ha ⊢
          simp [ClientHandler.dispatch, show getField fields (lit "type") = .str typeRequest from hreq,
            ha, idOf]
        rw [hd]
        exact .unknown hreq (by rw [ha]; rfl) fun a _ h => by rw [ha] at h; cases h
    · have hd : l.dispatch cfg (.obj fields) = { l with pc := .recv } := by
        simp only [isRequest] at hreq
        simp only [ClientHandler.dispatch]
        split
        · rename_i t ht
          rw [if_pos fun h => hreq (by rw [ht, h])]
        · rfl
      rw [hd]
      exact .ignored hreq
  | _ => exact .notDict nofun

end Dispatching

end DistRes
