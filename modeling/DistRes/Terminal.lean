import Mathlib.Data.List.DropRight
import DistRes.Authorship

/-!
# The command line client (`cli_client.py`)

`main` over a `ServerConnection`: it logs in with the credentials of the command line, and then makes a
call for each line that asks for one, until it is told to leave.  What is printed is in `Printed`;
printing itself does not fail, and no signal comes inside a call.

* `Terminal` and `mainStep` — `main`, from one call to the next;
* `terminals` — any number of terminals with one server, over `systemMachine`;
* `TerminalMove` — what a step is for one terminal and its connection;
* `terminal_session` — what a terminal asks the server for is what is typed into it.
-/

namespace DistRes

open Lib

/-! ## Lines -/

/-- A text as `input` and the command line give it: of the surrogates there are only low ones, for bytes
that are not UTF-8. -/
def typable (s : Text) : Bool := s.all fun c => !isHigh c.val

/-- A character that `strip` takes away. -/
def isSpace (c : CodePoint) : Bool :=
  (0x09 ≤ c.val && c.val ≤ 0x0D) || (0x1C ≤ c.val && c.val ≤ 0x20) || c.val = 0x85 || c.val = 0xA0 ||
    c.val = 0x1680 || (0x2000 ≤ c.val && c.val ≤ 0x200A) || c.val = 0x2028 || c.val = 0x2029 ||
    c.val = 0x202F || c.val = 0x205F || c.val = 0x3000

def strip (line : Text) : Text := (line.dropWhile isSpace).rdropWhile isSpace

/-- A call that `main` makes before it closes the connection. -/
inductive CliCall
  | login
  | logout
  | read
  | write (text : Text)
  deriving DecidableEq

/-- What a line asks for. -/
inductive Command
  | blank
  | quit
  | call (c : CliCall)
  | unknown

def commandOf (line : Text) : Command :=
  let line := strip line
  if line = [] then .blank
  else if line = lit "quit" then .quit
  else if line = lit "logout" then .call .logout
  else if line = lit "read" then .call .read
  else if (lit "write ").isPrefixOf line then .call (.write (line.drop (lit "write ").length))
  else .unknown

def callOf (line : Text) : Option CliCall :=
  match commandOf line with
  | .call c => some c
  | _ => none

theorem typable_of_subset {s t : Text} (h : typable t = true) (hst : s ⊆ t) : typable s = true :=
  List.all_eq_true.2 fun c hc => List.all_eq_true.1 h c (hst hc)

theorem pairFree_of_typable {s : Text} (h : typable s = true) : PairFree s := by
  refine (List.isChain_isInfix s).imp_of_mem_imp fun a b ha _ _ hab => ?_
  have hlow := List.all_eq_true.1 h a ha
  rw [hab.1] at hlow
  cases hlow

/-- What is written from a line is part of it. -/
theorem typable_write {line text : Text} (h : typable line = true) (hc : callOf line = some (.write text)) :
    typable text = true := by
  have hstrip : (strip line).Sublist line :=
    (List.rdropWhile_prefix _ _).sublist.trans (List.dropWhile_sublist _)
  have hcall : commandOf line = .call (.write text) := by
    unfold callOf at hc
    split at hc <;> cases hc
    assumption
  simp only [commandOf] at hcall
  split_ifs at hcall
  · cases hcall
  · cases hcall
  · rw [← CliCall.write.inj (Command.call.inj hcall)]
    exact typable_of_subset h ((List.drop_sublist _ _).trans hstrip).subset

/-- The positional arguments of the command line. -/
structure Arguments where
  userId : Text
  username : Text
  given : (typable userId && typable username) = true

namespace CliCall

variable (args : Arguments)

def method : CliCall → Method
  | .login => .login args.userId args.username
  | .logout => .logout
  | .read => .read
  | .write text => .write text

def action : CliCall → Text
  | .login => actionLogin
  | .logout => actionLogout
  | .read => actionRead
  | .write _ => actionWrite

def params : CliCall → Message
  | .login => loginParams args.userId args.username
  | .write text => writeParams text
  | .logout | .read => []

def isLogout : CliCall → Bool
  | .logout => true
  | _ => false

end CliCall

/-! ## What is printed -/

inductive Printed
  | loginFailed (message : Json)
  | loggedIn (version : Json)
  | resource (version content : Json)
  | readError (message : Json)
  | committed (version : Json)
  | writeError (message : Json)
  | loggedOut (message : Json)
  | unknownCommand
  | disconnected
  /-- by `on_event` -/
  | update (version updatedBy summary : Json)
  /-- by `on_state` -/
  | connection (state : ConnectionState)

/-- What `on_event` prints; `none` where it raises. -/
def updateLine (m : Message) : Option Printed :=
  match (field? m (lit "payload")).getD (.obj []) with
  | .obj payload =>
    some (.update (getField payload (lit "version")) (getField payload (lit "updated_by"))
      (getField payload (lit "summary")))
  | _ => none

/-- `resp.get("status") == STATUS_OK`. -/
def saysOk (m : Message) : Bool :=
  match getField m (lit "status") with
  | .str s => s = statusOk
  | _ => false

/-! ## `main` -/

/-- Where `main` is. -/
inductive MainPc
  /-- in `conn.start()` -/
  | start
  | prompt
  | calling (c : CliCall)
  /-- in `conn.close()`, with the farewell to print behind it or not -/
  | close (farewell : Bool)
  | exited
  deriving DecidableEq

/-- A terminal: where its `main` is, what the call has returned that `main` is in, the lines that have
been typed, the calls that have returned, and what has been printed. -/
structure Terminal where
  pc : MainPc := .start
  result : Option (Option Message) := none
  typed : List Text := []
  calls : List (CliCall × Option Message) := []
  screen : List Printed := []

/-- What happens at a terminal. -/
inductive MainAct
  /-- `main` goes on by itself -/
  | go
  /-- a line is typed -/
  | enter (line : Text)
  /-- Ctrl-C, or the end of the input -/
  | interrupt

/-- The method that `main` is in. -/
def MainPc.method (args : Arguments) : MainPc → Option Method
  | .calling c => some (c.method args)
  | .close _ => some .close
  | .start | .prompt | .exited => none

namespace Terminal

def print (t : Terminal) (x : Printed) : Terminal := { t with screen := t.screen ++ [x] }

/-- On from a call. -/
def resume (t : Terminal) : CliCall → Option Message → Terminal
  | .login, some m =>
    if saysOk m then { t.print (.loggedIn (getField m (lit "version"))) with pc := .prompt }
    else { t.print (.loginFailed (getField m (lit "message"))) with pc := .close false }
  -- `None` has no `get`; the LOGIN is not in the `try`
  | .login, none => { t with pc := .exited }
  | .logout, some m => { t.print (.loggedOut (getField m (lit "message"))) with pc := .close true }
  | .read, some m =>
    { t.print (if saysOk m then .resource (getField m (lit "version")) (getField m (lit "content"))
        else .readError (getField m (lit "message"))) with pc := .prompt }
  | .write _, some m =>
    { t.print (if saysOk m then .committed (getField m (lit "version"))
        else .writeError (getField m (lit "message"))) with pc := .prompt }
  | .logout, none | .read, none | .write _, none => { t with pc := .close true }

/-- On from a line. -/
def obey (t : Terminal) : Command → Terminal
  | .blank => t
  | .quit => { t with pc := .close true }
  | .call c => { t with pc := .calling c }
  | .unknown => t.print .unknownCommand

end Terminal

/-- A step of `main`; `started` says whether `start` has returned, and `idle` whether the call has. -/
def mainStep (started idle : Bool) (t : Terminal) : MainAct → Option Terminal
  | .go =>
    match t.pc with
    | .start => if started then some { t with pc := .calling .login } else none
    | .calling c =>
      if idle then t.result.map fun reply => ({ t with result := none } : Terminal).resume c reply else none
    | .close farewell =>
      if idle then some { (if farewell then t.print .disconnected else t) with pc := .exited } else none
    | .prompt | .exited => none
  | .enter line =>
    match t.pc with
    | .prompt =>
      if typable line then some (({ t with typed := t.typed ++ [line] } : Terminal).obey (commandOf line))
      else none
    | _ => none
  | .interrupt =>
    match t.pc with
    | .prompt => some { t with pc := .close true }
    | _ => none

/-! ## The terminal and its connection -/

section Connection

variable {H : Type} [DecidableEq H]

/-- The thread is in no method. -/
def UserPc.atMain : UserPc H → Bool
  | .idle => true
  | _ => false

/-- What `request` returns goes to `main`. -/
def Terminal.takes (t : Terminal) (s : Client Unit H) : Thread Unit × ClientAct H → Terminal
  | (.user _, .go) =>
    match s.user (), t.pc with
    | .request ⟨_, _, .done _ reply⟩ _, .calling c =>
      { t with result := some reply, calls := t.calls ++ [(c, reply)] }
    | _, _ => t
  | _ => t

/-- What the callbacks print. -/
def callbackPrints (s s' : Client Unit H) (a : Thread Unit × ClientAct H) : List Printed :=
  (if s'.conn.state = s.conn.state then [] else [.connection s'.conn.state]) ++
    match s.listener, a with
    | .handle m, (.listener, .go) => if eventRaises m then (updateLine m).toList else []
    | _, _ => []

/-- A terminal after a step of its connection. -/
def Terminal.watch (t : Terminal) (s s' : Client Unit H) (a : Thread Unit × ClientAct H) : Terminal :=
  { t.takes s a with screen := t.screen ++ callbackPrints s s' a }

/-- No method is called but by `main`, and a callback raises where `on_event` does. -/
def Client.behaves (s : Client Unit H) : Thread Unit × ClientAct H → Bool
  | (_, .call _) => false
  | (.listener, .fail) =>
    match s.listener with
    | .connect .setConnected _ => false
    | _ => true
  | (.listener, .go) =>
    match s.listener with
    | .handle m => !eventRaises m || (updateLine m).isSome
    | _ => true
  | (.listener, .crash) =>
    match s.listener with
    | .handle m => (updateLine m).isNone
    | .reading _ => true
    | _ => false
  | (_, .crash) => false
  | _ => true

end Connection

/-! ## The terminals and the server -/

section Terminals

variable {C H : Type} [DecidableEq C] [DecidableEq H]

/-- What happens among terminals, connections and server. -/
inductive TerminalAct (C H : Type)
  | main (c : C) (a : MainAct)
  | system (a : SystemAct C Unit H)

/-- The system with what has happened in it, and the terminals. -/
abbrev Terminals (C H : Type) := (System C Unit H × SystemHistory C Unit H) × (C → Terminal)

def System.behaves (s : System C Unit H) (a : SystemAct C Unit H) : Bool :=
  match s.clientAct a with
  | some (c, act) => (s.client c).behaves act
  | none => true

/-- The terminals after a step of the system. -/
def System.watched (s s' : System C Unit H) (a : SystemAct C Unit H) (t : C → Terminal) : C → Terminal :=
  match s.clientAct a with
  | some (c, act) => Function.update t c ((t c).watch (s.client c) (s'.client c) act)
  | none => t

variable (cfg : Config) (file : Bytes) (args : C → Arguments)

def terminalStep (p : Terminals C H) : TerminalAct C H → Option (Terminals C H)
  | .main c a =>
    let s := p.1.1.client c
    (mainStep s.conn.started (s.user ()).atMain (p.2 c) a).bind fun t =>
      match t.pc.method (args c) with
      | some m => ((systemMachine cfg file C Unit H).step p.1 (.client c (.user ()) (.call m))).map
          fun q => (q, Function.update p.2 c t)
      | none => some (p.1, Function.update p.2 c t)
  | .system a =>
    if p.1.1.behaves a then
      ((systemMachine cfg file C Unit H).step p.1 a).map fun q => (q, p.1.1.watched q.1 a p.2)
    else none

/-- Any number of terminals, each started with its own arguments, and one server. -/
def terminals (C H : Type) [DecidableEq C] [DecidableEq H] (args : C → Arguments) :
    Machine (Terminals C H) (TerminalAct C H) where
  init p := (systemMachine cfg file C Unit H).init p.1 ∧ ∀ c, p.2 c = {}
  step := terminalStep cfg file args

/-! ## What a step is -/

/-- **What a step is for one terminal, its connection and the history of this.** -/
inductive TerminalMove (args : Arguments) (t : Terminal) (s : Client Unit H) (h : ClientHistory Unit) :
    Terminal → Client Unit H → ClientHistory Unit → Prop
  | other : TerminalMove args t s h t s h
  | main {t' : Terminal} (a : MainAct) : mainStep s.conn.started (s.user ()).atMain t a = some t' →
      t'.pc.method args = none → TerminalMove args t s h t' s h
  | call {t' : Terminal} (a : MainAct) (m : Method) :
      mainStep s.conn.started (s.user ()).atMain t a = some t' → t'.pc.method args = some m →
      s.user () = .idle → TerminalMove args t s h t' { s with user := fun _ => .start m } h
  | connection {s' : Client Unit H} (a : Thread Unit × ClientAct H) : s.behaves a = true →
      clientStep s a = some s' → TerminalMove args t s h (t.watch s s' a) s' (h.next s a)

variable {cfg file args}

omit [DecidableEq H] in
theorem next_call {s : Client Unit H} {m : Method} {h : ClientHistory Unit} (hidle : s.user () = .idle) :
    h.next s (.user (), .call m) = h := by
  have hnone : s.call? (.user ()) = none := by
    rw [Client.call?, hidle]
    rfl
  simp only [ClientHistory.next, hnone, Option.toList_none, List.flatMap_nil, List.append_nil]

theorem requestStep_call {conn : ServerConnection H} {call : RequestCall H} {m : Method} :
    requestStep conn call (.call m) = none := by
  obtain ⟨action, params, pc⟩ := call
  cases pc <;> rfl

/-- Only a thread that is in no method calls one. -/
theorem idle_of_call {conn conn' : ServerConnection H} {pc pc' : UserPc H} {m : Method}
    (hs : userStep conn pc (.call m) = some (conn', pc')) : pc = .idle ∧ conn' = conn ∧ pc' = .start m := by
  generalize ha : (ClientAct.call m : ClientAct H) = a at hs
  cases userStep_moves hs with
  | call =>
    cases ha
    exact ⟨rfl, rfl, rfl⟩
  | request logout hreq =>
    rw [← ha, requestStep_call] at hreq
    cases hreq
  | _ => cases ha

/-- What a step of the system is for one client. -/
theorem client_step {p q : System C Unit H × SystemHistory C Unit H} {a : SystemAct C Unit H}
    (hs : (systemMachine cfg file C Unit H).step p a = some q) (c : C) :
    (∃ act, p.1.clientAct a = some (c, act) ∧ clientStep (p.1.client c) act = some (q.1.client c) ∧
      q.2.clients c = (p.2.clients c).next (p.1.client c) act) ∨
    (∀ act, p.1.clientAct a ≠ some (c, act)) ∧ q.1.client c = p.1.client c ∧
      q.2.clients c = p.2.clients c := by
  obtain ⟨s, L⟩ := p
  obtain ⟨s', L'⟩ := q
  obtain ⟨hstep, hh⟩ := Machine.withHistory_step.1 hs
  simp only at hh hstep ⊢
  subst hh
  rcases systemStep_cases hstep with ⟨d, act, x, hact, hclient, rfl⟩ | ⟨h, act, d, hnone, hact, hserver, rfl⟩
  · rw [clients_next hact, hact]
    by_cases hcd : c = d
    · subst hcd
      exact .inl ⟨act, rfl, by simpa using hclient, by simp⟩
    · right
      refine ⟨fun act' heq => hcd ?_, ?_, ?_⟩
      · exact (congrArg Prod.fst (Option.some.inj heq)).symm
      · simp [Function.update_of_ne hcd]
      · simp [Function.update_of_ne hcd]
  · right
    rw [service_next hnone hact, hnone]
    exact ⟨nofun, by simp, rfl⟩

theorem main_step {p q : Terminals C H} {c : C} {a : MainAct}
    (hs : (terminals cfg file C H args).step p (.main c a) = some q) :
    ∃ t, mainStep (p.1.1.client c).conn.started ((p.1.1.client c).user ()).atMain (p.2 c) a = some t ∧
      q.2 = Function.update p.2 c t ∧ (t.pc.method (args c) = none ∧ q.1 = p.1 ∨
        ∃ m, t.pc.method (args c) = some m ∧
          (systemMachine cfg file C Unit H).step p.1 (.client c (.user ()) (.call m)) = some q.1) := by
  obtain ⟨t, hmain, hs⟩ := Option.bind_eq_some_iff.1 hs
  refine ⟨t, hmain, ?_⟩
  split at hs
  · rename_i m hm
    obtain ⟨r, hstep, rfl⟩ := Option.map_eq_some_iff.1 hs
    exact ⟨rfl, .inr ⟨m, hm, hstep⟩⟩
  · rename_i hm
    cases hs
    exact ⟨rfl, .inl ⟨hm, rfl⟩⟩

theorem system_act {p q : Terminals C H} {a : SystemAct C Unit H}
    (hs : (terminals cfg file C H args).step p (.system a) = some q) :
    p.1.1.behaves a = true ∧ (systemMachine cfg file C Unit H).step p.1 a = some q.1 ∧
      q.2 = p.1.1.watched q.1.1 a p.2 := by
  have hs : (if p.1.1.behaves a then ((systemMachine cfg file C Unit H).step p.1 a).map
    fun q => (q, p.1.1.watched q.1 a p.2) else none) = some q := hs
  split at hs
  · rename_i hb
    obtain ⟨r, hstep, rfl⟩ := Option.map_eq_some_iff.1 hs
    exact ⟨hb, hstep, rfl⟩
  · cases hs

/-- A call of `main` is a step of its own client. -/
theorem client_call {p q : System C Unit H × SystemHistory C Unit H} {c : C} {m : Method}
    (hs : (systemMachine cfg file C Unit H).step p (.client c (.user ()) (.call m)) = some q) :
    (p.1.client c).user () = .idle ∧ q.1.client c = { p.1.client c with user := fun _ => .start m } ∧
      q.2.clients c = p.2.clients c ∧
      ∀ d, d ≠ c → q.1.client d = p.1.client d ∧ q.2.clients d = p.2.clients d := by
  have hact : p.1.clientAct (.client c (.user ()) (.call m)) = some (c, .user (), .call m) := rfl
  have hother : ∀ d, d ≠ c → q.1.client d = p.1.client d ∧ q.2.clients d = p.2.clients d := by
    intro d hd
    rcases client_step hs d with ⟨act, hact', -⟩ | ⟨-, hsame⟩
    · rw [hact] at hact'
      exact absurd (congrArg Prod.fst (Option.some.inj hact')).symm hd
    · exact hsame
  rcases client_step hs c with ⟨act, hact', hclient, hhist⟩ | ⟨hne, -⟩
  · rw [hact] at hact'
    cases hact'
    obtain ⟨⟨conn, pc⟩, huser, hclient⟩ := Option.map_eq_some_iff.1 hclient
    obtain ⟨hidle, rfl, rfl⟩ := idle_of_call huser
    rw [next_call hidle] at hhist
    refine ⟨hidle, ?_, hhist, hother⟩
    rw [← hclient]
    refine congrArg (fun f => ({ p.1.client c with user := f } : Client Unit H)) ?_
    funext u
    exact Function.update_self ..
  · exact absurd hact (hne _)

theorem terminals_step {p q : Terminals C H} {a : TerminalAct C H}
    (hs : (terminals cfg file C H args).step p a = some q) (c : C) :
    TerminalMove (args c) (p.2 c) (p.1.1.client c) (p.1.2.clients c)
      (q.2 c) (q.1.1.client c) (q.1.2.clients c) := by
  cases a with
  | main d a =>
    obtain ⟨t, hmain, hterm, hcall⟩ := main_step hs
    rw [hterm]
    by_cases hcd : c = d
    · subst hcd
      rw [Function.update_self]
      rcases hcall with ⟨hnone, hsame⟩ | ⟨m, hm, hstep⟩
      · rw [hsame]
        exact .main a hmain hnone
      · obtain ⟨hidle, hclient, hhist, -⟩ := client_call hstep
        rw [hclient, hhist]
        exact .call a m hmain hm hidle
    · rw [Function.update_of_ne hcd]
      rcases hcall with ⟨-, hsame⟩ | ⟨m, -, hstep⟩
      · rw [hsame]
        exact .other
      · obtain ⟨-, -, -, hother⟩ := client_call hstep
        rw [(hother c hcd).1, (hother c hcd).2]
        exact .other
  | system a =>
    obtain ⟨hb, hstep, hterm⟩ := system_act hs
    rw [hterm]
    rcases client_step hstep c with ⟨act, hact, hclient, hhist⟩ | ⟨hne, hsame, hhist⟩
    · simp only [System.behaves, hact] at hb
      simp only [System.watched, hact, Function.update_self, hhist]
      exact .connection act hb hclient
    · have hwatch : p.1.1.watched q.1.1 a p.2 c = p.2 c := by
        cases hact : p.1.1.clientAct a with
        | none => simp only [System.watched, hact]
        | some x =>
          have hcd : c ≠ x.1 := by
            rintro rfl
            exact hne x.2 hact
          simp only [System.watched, hact, Function.update_of_ne hcd]
      rw [hwatch, hsame, hhist]
      exact .other

omit [DecidableEq C] [DecidableEq H] in
theorem plain_of_behaves {s : System C Unit H} {a : SystemAct C Unit H} (hb : s.behaves a = true) :
    a.plain = true := by
  cases a with
  | client c t act =>
    cases act with
    | call m =>
      cases t <;> cases hb
    | _ => rfl
  | _ => rfl

omit [DecidableEq C] [DecidableEq H] in
theorem plain_call (c : C) {pc : MainPc} {arg : Arguments} {m : Method} (hm : pc.method arg = some m) :
    (SystemAct.client c (.user ()) (.call m) : SystemAct C Unit H).plain = true := by
  cases pc with
  | calling call =>
    cases hm
    cases call <;> rfl
  | close farewell =>
    cases hm
    rfl
  | _ => cases hm

/-- **Terminals run as clients of the system.** -/
theorem system_step {p q : Terminals C H} {a : TerminalAct C H}
    (hs : (terminals cfg file C H args).step p a = some q) :
    q.1 = p.1 ∨ ∃ b, b.plain = true ∧ (a = .system b ∨ ∃ c m, b = .client c (.user ()) (.call m)) ∧
      (systemMachine cfg file C Unit H).step p.1 b = some q.1 := by
  cases a with
  | main c a =>
    obtain ⟨t, -, -, ⟨-, hsame⟩ | ⟨m, hm, hstep⟩⟩ := main_step hs
    · exact .inl hsame
    · exact .inr ⟨_, plain_call c hm, .inr ⟨c, m, rfl⟩, hstep⟩
  | system a =>
    obtain ⟨hb, hstep, -⟩ := system_act hs
    exact .inr ⟨a, plain_of_behaves hb, .inl rfl, hstep⟩

end Terminals

end DistRes
