import DistRes.Credentials
import DistRes.Heartbeat
import DistRes.Terminal

/-!
# Sessions at a terminal

`main` is a sequential program over calls that other threads serve.  What it asks the server for is a
LOGIN with the arguments of the command line, and then, as long as the answers let it go on, what the
lines ask for that are typed; when it has ended, it has called `close`.

* `mainStep_cases` — the steps of `main`;
* `Inside` — where the thread of `main` is in the connection;
* `SessionInv` — what `main` has called, and what is to come of it;
* `terminal_session` — in every run, the calls of a terminal are those of its lines.
-/

namespace DistRes

open Lib

/-! ## The steps of `main` -/

/-- `main` goes on to the prompt with the result of a call. -/
def goesOn : CliCall → Option Message → Bool
  | .login, some m => saysOk m
  | .read, some _ | .write _, some _ => true
  | .logout, _ | _, none => false

/-- The line that `main` prints of a call. -/
def reportOf : CliCall → Message → Printed
  | .login, m =>
    if saysOk m then .loggedIn (getField m (lit "version")) else .loginFailed (getField m (lit "message"))
  | .logout, m => .loggedOut (getField m (lit "message"))
  | .read, m =>
    if saysOk m then .resource (getField m (lit "version")) (getField m (lit "content"))
    else .readError (getField m (lit "message"))
  | .write _, m =>
    if saysOk m then .committed (getField m (lit "version")) else .writeError (getField m (lit "message"))

/-- Lines about calls, among what is printed. -/
def Printed.isReport : Printed → Bool
  | .unknownCommand | .disconnected | .update _ _ _ | .connection _ => false
  | _ => true

/-- Lines that a callback prints. -/
def Printed.byCallback : Printed → Bool
  | .update _ _ _ | .connection _ => true
  | _ => false

theorem isReport_reportOf (c : CliCall) (m : Message) : (reportOf c m).isReport = true := by
  cases c with
  | login | read | write =>
    simp only [reportOf]
    split <;> rfl
  | logout => rfl

theorem byCallback_reportOf (c : CliCall) (m : Message) : (reportOf c m).byCallback = false := by
  cases c with
  | login | read | write =>
    simp only [reportOf]
    split <;> rfl
  | logout => rfl

namespace Terminal

variable (t : Terminal) (c : CliCall) (reply : Option Message)

/-- The calls that `main` has gone on from. -/
def resumed : List (CliCall × Option Message) :=
  if t.result.isNone then t.calls else t.calls.dropLast

/-- What the screen tells of calls. -/
def reports : List Printed := t.screen.filter Printed.isReport

theorem resume_keeps : (t.resume c reply).typed = t.typed ∧ (t.resume c reply).calls = t.calls ∧
    (t.resume c reply).result = t.result := by
  cases c with
  | login =>
    cases reply with
    | none => exact ⟨rfl, rfl, rfl⟩
    | some m =>
      simp only [resume]
      split <;> exact ⟨rfl, rfl, rfl⟩
  | logout | read | write => cases reply <;> exact ⟨rfl, rfl, rfl⟩

/-- Where `main` goes on. -/
theorem resume_pc (m : Message) : goesOn c (some m) = true ∧ (t.resume c (some m)).pc = .prompt ∨
    ∃ farewell, (t.resume c (some m)).pc = .close farewell := by
  cases c with
  | login =>
    simp only [resume, goesOn]
    split
    · rename_i hok
      exact .inl ⟨hok, rfl⟩
    · exact .inr ⟨false, rfl⟩
  | logout => exact .inr ⟨true, rfl⟩
  | read | write => exact .inl ⟨rfl, rfl⟩

/-- What `main` prints of a call. -/
theorem resume_screen : (t.resume c reply).screen = t.screen ++ (reply.map (reportOf c)).toList := by
  cases reply with
  | none => cases c <;> exact (List.append_nil _).symm
  | some m =>
    cases c with
    | login =>
      simp only [resume, Option.map_some, Option.toList_some, reportOf]
      split <;> rfl
    | logout | read | write => rfl

theorem obey_keeps (cmd : Command) : (t.obey cmd).typed = t.typed ∧ (t.obey cmd).calls = t.calls ∧
    (t.obey cmd).result = t.result := by
  cases cmd <;> exact ⟨rfl, rfl, rfl⟩

end Terminal

/-- **The steps of `main`.** -/
inductive MainMove (started idle : Bool) (t : Terminal) : MainAct → Terminal → Prop
  | login : t.pc = .start → started = true →
      MainMove started idle t .go { t with pc := .calling .login }
  | resume (c : CliCall) (reply : Option Message) : t.pc = .calling c → idle = true →
      t.result = some reply →
      MainMove started idle t .go (({ t with result := none } : Terminal).resume c reply)
  | leave (farewell : Bool) : t.pc = .close farewell → idle = true →
      MainMove started idle t .go { (if farewell then t.print .disconnected else t) with pc := .exited }
  | enter (line : Text) : t.pc = .prompt → typable line = true → MainMove started idle t (.enter line)
      (({ t with typed := t.typed ++ [line] } : Terminal).obey (commandOf line))
  | interrupt : t.pc = .prompt → MainMove started idle t .interrupt { t with pc := .close true }

theorem mainStep_cases {started idle : Bool} {t t' : Terminal} {a : MainAct}
    (hs : mainStep started idle t a = some t') : MainMove started idle t a t' := by
  cases a with
  | go =>
    simp only [mainStep] at hs
    split at hs
    · rename_i hpc
      split at hs <;> cases hs
      exact .login hpc ‹_›
    · rename_i c hpc
      split at hs
      · obtain ⟨reply, hreply, rfl⟩ := Option.map_eq_some_iff.1 hs
        exact .resume c reply hpc ‹_› hreply
      · cases hs
    · rename_i farewell hpc
      split at hs
      · cases hs
        exact .leave farewell hpc ‹_›
      · cases hs
    · cases hs
    · cases hs
  | enter line =>
    simp only [mainStep] at hs
    split at hs
    · split_ifs at hs with hline
      cases hs
      exact .enter line ‹_› hline
    · cases hs
  | interrupt =>
    simp only [mainStep] at hs
    split at hs <;> cases hs
    exact .interrupt ‹_›

theorem MainMove.calls {started idle : Bool} {t t' : Terminal} {a : MainAct}
    (hm : MainMove started idle t a t') : t'.calls = t.calls := by
  cases hm with
  | resume c reply => exact (({ t with result := none } : Terminal).resume_keeps c reply).2.1
  | enter line => exact (({ t with typed := t.typed ++ [line] } : Terminal).obey_keeps (commandOf line)).2.1
  | leave farewell => cases farewell <;> rfl
  | login | interrupt => rfl

theorem MainMove.typed {started idle : Bool} {t t' : Terminal} {a : MainAct}
    (hm : MainMove started idle t a t') : t.typed <+: t'.typed := by
  cases hm with
  | resume c reply => rw [(({ t with result := none } : Terminal).resume_keeps c reply).1]
  | enter line =>
    rw [(({ t with typed := t.typed ++ [line] } : Terminal).obey_keeps (commandOf line)).1]
    exact List.prefix_append _ _
  | leave farewell => cases farewell <;> exact List.prefix_rfl
  | login | interrupt => exact List.prefix_rfl

/-- `main` prints what no callback does. -/
theorem MainMove.prints {started idle : Bool} {t t' : Terminal} {a : MainAct}
    (hm : MainMove started idle t a t') :
    ∃ xs, t'.screen = t.screen ++ xs ∧ ∀ x ∈ xs, x.byCallback = false := by
  have nothing : ∃ xs, t.screen = t.screen ++ xs ∧ ∀ x ∈ xs, x.byCallback = false :=
    ⟨[], (List.append_nil _).symm, List.forall_mem_nil _⟩
  have line : ∀ x : Printed, x.byCallback = false →
      ∃ xs, t.screen ++ [x] = t.screen ++ xs ∧ ∀ x ∈ xs, x.byCallback = false :=
    fun x hx => ⟨[x], rfl, fun y hy => List.mem_singleton.1 hy ▸ hx⟩
  cases hm with
  | login | interrupt => exact nothing
  | resume c reply =>
    refine ⟨_, ({ t with result := none } : Terminal).resume_screen c reply, fun x hx => ?_⟩
    obtain ⟨m, -, rfl⟩ := Option.map_eq_some_iff.1 (Option.mem_toList.1 hx)
    exact byCallback_reportOf c m
  | leave farewell =>
    cases farewell with
    | true => exact line .disconnected rfl
    | false => exact nothing
  | enter entered =>
    cases hcmd : commandOf entered with
    | unknown => exact line .unknownCommand rfl
    | blank | quit | call => exact nothing

/-! ## What `main` has called -/

/-- The call that `main` is in and that has not returned. -/
def Terminal.unanswered (t : Terminal) : List CliCall :=
  match t.pc, t.result with
  | .calling c, none => [c]
  | _, _ => []

/-- **The calls of a terminal are those of its lines**, and each but the last has let it go on. -/
structure ProgramInv (t : Terminal) : Prop where
  start : t.pc = .start → t.typed = [] ∧ t.calls = []
  quiet : (∀ c, t.pc ≠ .calling c) → t.result = none
  asked : t.pc ≠ .start → t.calls.map Prod.fst ++ t.unanswered = .login :: t.typed.filterMap callOf
  replied : ∀ e ∈ t.calls, ∃ m, e.2 = some m
  taken : ∀ c reply, t.pc = .calling c → t.result = some reply → ∃ l, t.calls = l ++ [(c, reply)]
  before : ∀ e ∈ t.calls.dropLast, goesOn e.1 e.2 = true
  goes : t.pc = .prompt ∨ t.unanswered ≠ [] → ∀ e ∈ t.calls, goesOn e.1 e.2 = true

theorem unanswered_of_ne {t : Terminal} (h : ∀ c, t.pc ≠ .calling c) : t.unanswered = [] := by
  unfold Terminal.unanswered
  split
  · exact absurd ‹_› (h _)
  · rfl

theorem unanswered_of_result {t : Terminal} {reply : Option Message} (h : t.result = some reply) :
    t.unanswered = [] := by
  unfold Terminal.unanswered
  split
  · rw [h] at *
    contradiction
  · rfl

theorem unanswered_calling {t : Terminal} {c : CliCall} (hpc : t.pc = .calling c) (h : t.result = none) :
    t.unanswered = [c] := by
  unfold Terminal.unanswered
  rw [hpc, h]

/-- A call returns. -/
theorem ProgramInv.takes {t : Terminal} (hi : ProgramInv t) {c : CliCall} (hpc : t.pc = .calling c)
    (hnone : t.result = none) (m : Message) :
    ProgramInv { t with result := some (some m), calls := t.calls ++ [(c, some m)] } := by
  have hopen := unanswered_calling hpc hnone
  have hall := hi.goes (.inr (by rw [hopen]; exact List.cons_ne_nil _ _))
  refine ⟨fun h => ?_, fun h => absurd hpc (h c), fun h => ?_, fun e he => ?_, fun c' reply h1 h2 => ?_,
    fun e he => ?_, fun h => ?_⟩
  · cases hpc.symm.trans h
  · have hasked := hi.asked h
    rw [hopen] at hasked
    rw [unanswered_of_result rfl, List.append_nil, List.map_append]
    exact hasked
  · rcases List.mem_append.1 he with he | he
    · exact hi.replied e he
    · rw [List.mem_singleton.1 he]
      exact ⟨m, rfl⟩
  · cases hpc.symm.trans h1
    cases h2
    exact ⟨t.calls, rfl⟩
  · rw [List.dropLast_concat] at he
    exact hall e he
  · rcases h with h | h
    · cases hpc.symm.trans h
    · exact absurd (unanswered_of_result rfl) h

/-- `main` leaves for the end. -/
theorem ProgramInv.ends {t t' : Terminal} (hi : ProgramInv t) (hstart : t.pc ≠ .start)
    (hclear : t.unanswered = []) (hpc : t'.pc = .exited ∨ ∃ farewell, t'.pc = .close farewell)
    (htyped : t'.typed.filterMap callOf = t.typed.filterMap callOf) (hcalls : t'.calls = t.calls)
    (hresult : t'.result = none) : ProgramInv t' := by
  have hne : ∀ c, t'.pc ≠ .calling c := by
    rintro c heq
    rcases hpc with h | ⟨b, h⟩ <;> cases h.symm.trans heq
  refine ⟨fun h => ?_, fun _ => hresult, fun _ => ?_, ?_, fun c reply h => absurd h (hne c), ?_, fun h => ?_⟩
  · rcases hpc with h' | ⟨b, h'⟩ <;> cases h'.symm.trans h
  · rw [unanswered_of_ne hne, hcalls, htyped, ← hclear]
    exact hi.asked hstart
  · rw [hcalls]
    exact hi.replied
  · rw [hcalls]
    exact hi.before
  · rcases h with h | h
    · rcases hpc with h' | ⟨b, h'⟩ <;> cases h'.symm.trans h
    · exact absurd (unanswered_of_ne hne) h

/-- `main` is at the prompt, or in a call that has not returned, after calls that let it go on. -/
theorem ProgramInv.next {t t' : Terminal} (hi : ProgramInv t)
    (hpc : t'.pc = .prompt ∨ ∃ c, t'.pc = .calling c) (hcalls : t'.calls = t.calls)
    (hresult : t'.result = none)
    (hasked : t.calls.map Prod.fst ++ t'.unanswered = .login :: t'.typed.filterMap callOf)
    (hgoes : ∀ e ∈ t.calls, goesOn e.1 e.2 = true) : ProgramInv t' := by
  refine ⟨fun h => ?_, fun _ => hresult, fun _ => ?_, ?_, fun c reply _ h => ?_, ?_, fun _ => ?_⟩
  · rcases hpc with h' | ⟨c, h'⟩ <;> cases h'.symm.trans h
  · rw [hcalls]
    exact hasked
  · rw [hcalls]
    exact hi.replied
  · cases hresult.symm.trans h
  · rw [hcalls]
    exact hi.before
  · rw [hcalls]
    exact hgoes

theorem ProgramInv.main {started idle : Bool} {t t' : Terminal} {a : MainAct} (hi : ProgramInv t)
    (hm : MainMove started idle t a t') : ProgramInv t' := by
  cases hm with
  | login hpc =>
    obtain ⟨htyped, hcalls⟩ := hi.start hpc
    have hnone := hi.quiet fun c h => by cases hpc.symm.trans h
    refine hi.next (.inr ⟨.login, rfl⟩) rfl hnone ?_ ?_
    · rw [unanswered_calling (t := { t with pc := .calling .login }) rfl hnone, hcalls, htyped]
      rfl
    · rw [hcalls]
      exact List.forall_mem_nil _
  | resume c reply hpc hidle hresult =>
    obtain ⟨l, hl⟩ := hi.taken c reply hpc hresult
    obtain ⟨m, hm⟩ := hi.replied (c, reply) (by rw [hl]; exact List.mem_append_right l List.mem_cons_self)
    obtain rfl : reply = some m := hm
    obtain ⟨htyped, hcalls, hnone⟩ := ({ t with result := none } : Terminal).resume_keeps c (some m)
    have hstart : t.pc ≠ .start := fun h => by cases hpc.symm.trans h
    have hclear := unanswered_of_result hresult
    rcases ({ t with result := none } : Terminal).resume_pc c m with ⟨hgo, hprompt⟩ | hclose
    · refine hi.next (.inl hprompt) hcalls hnone ?_ fun e he => ?_
      · rw [unanswered_of_ne fun c h => (by cases hprompt.symm.trans h), htyped, ← hclear]
        exact hi.asked hstart
      · rw [hl] at he
        rcases List.mem_append.1 he with he | he
        · refine hi.before e ?_
          rw [hl, List.dropLast_concat]
          exact he
        · rw [List.mem_singleton.1 he]
          exact hgo
    · exact hi.ends hstart hclear (.inr hclose) (by rw [htyped]) hcalls hnone
  | leave farewell hpc =>
    have hne : ∀ c, t.pc ≠ .calling c := fun c h => by cases hpc.symm.trans h
    have hstart : t.pc ≠ .start := fun h => by cases hpc.symm.trans h
    refine hi.ends hstart (unanswered_of_ne hne) (.inl rfl) ?_ ?_ ?_
    · cases farewell <;> rfl
    · cases farewell <;> rfl
    · cases farewell <;> exact hi.quiet hne
  | enter line hpc =>
    have hne : ∀ c, t.pc ≠ .calling c := fun c h => by cases hpc.symm.trans h
    have hstart : t.pc ≠ .start := fun h => by cases hpc.symm.trans h
    have hnone := hi.quiet hne
    have hasked := hi.asked hstart
    have hgoes := hi.goes (.inl hpc)
    rw [unanswered_of_ne hne, List.append_nil] at hasked
    have htyped : ∀ {x : Option CliCall}, callOf line = x →
        (t.typed ++ [line]).filterMap callOf = t.typed.filterMap callOf ++ x.toList := by
      rintro x rfl
      rw [List.filterMap_append]
      cases hx : callOf line <;> simp [hx]
    cases hcmd : commandOf line with
    | blank | unknown =>
      have hcall : callOf line = none := by
        unfold callOf
        rw [hcmd]
      refine hi.next (.inl hpc) rfl hnone ?_ hgoes
      rw [unanswered_of_ne (by exact hne), List.append_nil, hasked]
      exact congrArg _ ((htyped hcall).trans (List.append_nil _)).symm
    | quit =>
      have hcall : callOf line = none := by
        unfold callOf
        rw [hcmd]
      exact hi.ends hstart (unanswered_of_ne hne) (.inr ⟨true, rfl⟩)
        ((htyped hcall).trans (List.append_nil _)) rfl hnone
    | call c =>
      have hcall : callOf line = some c := by
        unfold callOf
        rw [hcmd]
      refine hi.next (.inr ⟨c, rfl⟩) rfl hnone ?_ hgoes
      rw [unanswered_calling (c := c) rfl (by exact hnone), hasked]
      exact congrArg _ (htyped hcall).symm
  | interrupt hpc =>
    have hne : ∀ c, t.pc ≠ .calling c := fun c h => by cases hpc.symm.trans h
    exact hi.ends (fun h => by cases hpc.symm.trans h) (unanswered_of_ne hne) (.inr ⟨true, rfl⟩) rfl rfl
      (hi.quiet hne)

/-! ### What `main` has told of them -/

/-- One line is printed for each call that `main` has gone on from, and no other line about calls. -/
def Terminal.Reports (t : Terminal) : Prop :=
  t.reports = t.resumed.filterMap fun e => e.2.map (reportOf e.1)

theorem reports_print (t : Terminal) {x : Printed} (hx : x.isReport = false) :
    (t.print x).reports = t.reports := by
  rw [Terminal.reports, Terminal.print, List.filter_append, List.filter_cons_of_neg (by rw [hx]; decide),
    List.filter_nil, List.append_nil]
  rfl

theorem reports_obey (t : Terminal) (cmd : Command) : (t.obey cmd).reports = t.reports := by
  cases cmd with
  | unknown => exact reports_print t rfl
  | blank | quit | call => rfl

theorem resumed_of_none {t : Terminal} (h : t.result = none) : t.resumed = t.calls := by
  rw [Terminal.resumed, h]
  rfl

/-- Nothing is to be told but what has been. -/
theorem Terminal.Reports.keep {t t' : Terminal} (hr : t.Reports) (hreports : t'.reports = t.reports)
    (hcalls : t'.calls = t.calls) (hresult : t'.result = t.result) : t'.Reports := by
  rw [Terminal.Reports, hreports, hr, Terminal.resumed, Terminal.resumed, hcalls, hresult]

theorem Terminal.Reports.main {started idle : Bool} {t t' : Terminal} {a : MainAct} (hr : t.Reports)
    (hi : ProgramInv t) (hm : MainMove started idle t a t') : t'.Reports := by
  cases hm with
  | login | interrupt => exact hr
  | resume c reply hpc hidle hresult =>
    obtain ⟨l, hl⟩ := hi.taken c reply hpc hresult
    obtain ⟨m, hm⟩ := hi.replied (c, reply) (by rw [hl]; exact List.mem_append_right l List.mem_cons_self)
    obtain rfl : reply = some m := hm
    obtain ⟨-, hcalls, hnone⟩ := ({ t with result := none } : Terminal).resume_keeps c (some m)
    have hbefore : t.resumed = l := by
      rw [Terminal.resumed, hresult, hl]
      exact List.dropLast_concat
    rw [Terminal.Reports, resumed_of_none hnone, hcalls, hl, List.filterMap_append, Terminal.reports,
      Terminal.resume_screen, List.filter_append, Option.map_some, Option.toList_some,
      List.filter_cons_of_pos (isReport_reportOf c m), List.filter_nil]
    rw [Terminal.Reports, hbefore] at hr
    exact congrArg (· ++ [reportOf c m]) hr
  | leave farewell =>
    cases farewell with
    | true => exact hr.keep (reports_print t rfl) rfl rfl
    | false => exact hr
  | enter line =>
    obtain ⟨-, hcalls, hresult⟩ :=
      ({ t with typed := t.typed ++ [line] } : Terminal).obey_keeps (commandOf line)
    exact hr.keep (reports_obey _ _) hcalls hresult

/-- `main` goes on from one call after the other. -/
theorem MainMove.resumed {started idle : Bool} {t t' : Terminal} {a : MainAct}
    (hm : MainMove started idle t a t') : t.resumed <+: t'.resumed := by
  cases hm with
  | login | interrupt => exact List.prefix_rfl
  | resume c reply hpc hidle hresult =>
    obtain ⟨-, hcalls, hnone⟩ := ({ t with result := none } : Terminal).resume_keeps c reply
    rw [resumed_of_none hnone, hcalls, Terminal.resumed, hresult]
    exact List.dropLast_prefix _
  | leave farewell => cases farewell <;> exact List.prefix_rfl
  | enter line =>
    obtain ⟨-, hcalls, hresult⟩ :=
      ({ t with typed := t.typed ++ [line] } : Terminal).obey_keeps (commandOf line)
    rw [Terminal.resumed, Terminal.resumed, hcalls, hresult]

theorem Terminal.Reports.takes {t : Terminal} (hr : t.Reports) (hnone : t.result = none) (c : CliCall)
    (reply : Option Message) :
    Terminal.Reports { t with result := some reply, calls := t.calls ++ [(c, reply)] } := by
  rw [Terminal.Reports, resumed_of_none hnone] at hr
  refine hr.trans (congrArg _ ?_)
  exact List.dropLast_concat.symm

/-! ## The thread of `main` -/

section Session

variable {H : Type} [DecidableEq H] {args : Arguments} {t t' : Terminal} {s s' : Client Unit H}
  {h h' : ClientHistory Unit}

/-- Where the thread of `main` is in the connection, when `main` is at the given point with the given
result. -/
inductive Inside (args : Arguments) : MainPc → Option (Option Message) → UserPc H → Bool → Prop
  | start (running : Bool) : Inside args .start none .idle running
  | prompt (running : Bool) : Inside args .prompt none .idle running
  | login (running : Bool) :
      Inside args (.calling .login) none (.login args.userId args.username) running
  | request (c : CliCall) (pc : RequestPc H) (running : Bool) :
      Inside args (.calling c) none (.request ⟨c.action, c.params args, pc⟩ c.isLogout) running
  | forget (reply : Option Message) (running : Bool) :
      Inside args (.calling .logout) (some reply) .forget running
  | returned (c : CliCall) (reply : Option Message) (running : Bool) :
      Inside args (.calling c) (some reply) .idle running
  | close (farewell running : Bool) : Inside args (.close farewell) none .close running
  | closeState (farewell : Bool) : Inside args (.close farewell) none .closeState false
  | closeSock (farewell : Bool) : Inside args (.close farewell) none .closeSock false
  | closed (farewell : Bool) : Inside args (.close farewell) none .idle false
  | exited : Inside args .exited none .idle false

section

omit [DecidableEq H]

theorem Inside.stop {pc : MainPc} {result : Option (Option Message)} {user : UserPc H} {running : Bool}
    (hi : Inside args pc result user running) : Inside args pc result user false := by
  cases hi with
  | start => exact .start _
  | prompt => exact .prompt _
  | login => exact .login _
  | request c pc => exact .request c pc _
  | forget reply => exact .forget reply _
  | returned c reply => exact .returned c reply _
  | close farewell => exact .close farewell _
  | closeState farewell => exact .closeState farewell
  | closeSock farewell => exact .closeSock farewell
  | closed farewell => exact .closed farewell
  | exited => exact .exited

/-- The call that the thread is in is the one that `main` is in. -/
theorem Inside.request_cases {pc : MainPc} {result : Option (Option Message)} {user : UserPc H}
    {running logout : Bool} {q : RequestCall H} (hi : Inside args pc result user running)
    (huser : user = .request q logout) : ∃ c, pc = .calling c ∧ result = none ∧ q.action = c.action ∧
      q.params = c.params args ∧ logout = c.isLogout := by
  cases hi with
  | request c p =>
    cases huser
    exact ⟨c, rfl, rfl, rfl, rfl, rfl⟩
  | _ => cases huser

/-- Into the method that `main` calls. -/
theorem inside_method {pc : MainPc} {m : Method} {running : Bool} (hm : pc.method args = some m) :
    Inside args pc none (UserPc.start m : UserPc H) running := by
  cases pc with
  | calling c =>
    cases hm
    cases c with
    | login => exact .login running
    | logout => exact .request .logout .next running
    | read => exact .request .read .next running
    | write text => exact .request (.write text) .next running
  | close farewell =>
    cases hm
    exact .close farewell running
  | start | prompt | exited => cases hm

/-- What `main` does, seen from its thread. -/
theorem Inside.main {started : Bool} {a : MainAct} {user : UserPc H} {running : Bool}
    (hi : Inside args t.pc t.result user running) (hp : ProgramInv t)
    (hm : MainMove started user.atMain t a t') :
    (t'.pc.method args = none → Inside args t'.pc t'.result user running) ∧
      ∀ m, t'.pc.method args = some m → t'.result = none := by
  have hnone : (∀ c, t.pc ≠ .calling c) → t.result = none := hp.quiet
  cases hm with
  | login hpc =>
    refine ⟨fun h => ?_, fun m _ => hnone fun c h => ?_⟩
    · cases h
    · cases hpc.symm.trans h
  | resume c reply hpc hidle hresult =>
    obtain ⟨l, hl⟩ := hp.taken c reply hpc hresult
    obtain ⟨m, hm⟩ := hp.replied (c, reply) (by rw [hl]; exact List.mem_append_right l List.mem_cons_self)
    obtain rfl : reply = some m := hm
    obtain ⟨-, -, hclear⟩ := ({ t with result := none } : Terminal).resume_keeps c (some m)
    refine ⟨fun h => ?_, fun _ _ => hclear⟩
    rw [hclear]
    rcases ({ t with result := none } : Terminal).resume_pc c m with ⟨-, hprompt⟩ | ⟨farewell, hclose⟩
    · rw [hpc, hresult] at hi
      rw [hprompt]
      cases hi with
      | forget => cases hidle
      | returned => exact .prompt running
    · rw [hclose] at h
      cases h
  | leave farewell hpc hidle =>
    have hclear := hnone fun c h => by cases hpc.symm.trans h
    have hresult : (if farewell then t.print .disconnected else t).result = none := by
      cases farewell <;> exact hclear
    refine ⟨fun _ => ?_, fun m h => by cases h⟩
    rw [hpc, hclear] at hi
    simp only [hresult]
    cases hi with
    | close | closeState | closeSock => cases hidle
    | closed => exact .exited
  | enter line hpc =>
    have hclear := hnone fun c h => by cases hpc.symm.trans h
    rw [hpc, hclear] at hi
    cases hcmd : commandOf line with
    | blank | unknown =>
      refine ⟨fun _ => ?_, fun _ _ => hclear⟩
      show Inside args t.pc t.result user running
      rw [hpc, hclear]
      exact hi
    | quit | call => exact ⟨fun h => (by cases h), fun _ _ => hclear⟩
  | interrupt hpc =>
    exact ⟨fun h => (by cases h), fun _ _ => hnone fun c h => by cases hpc.symm.trans h⟩

end

/-! ### The steps of the connection -/

omit [DecidableEq H] in
@[simp] theorem takes_pc (t : Terminal) (s : Client Unit H) (a : Thread Unit × ClientAct H) :
    (t.takes s a).pc = t.pc := by
  unfold Terminal.takes
  split
  · split <;> rfl
  · rfl

/-- Nothing is returned where `request` goes on. -/
theorem takes_of_request {call call' : RequestCall H} {logout : Bool} {act : ClientAct H}
    {conn conn' : ServerConnection H} (huser : s.user () = .request call logout)
    (hs : requestStep conn call act = some (conn', call')) : t.takes s (.user (), act) = t := by
  obtain ⟨action, params, pc⟩ := call
  cases act with
  | go =>
    cases pc with
    | done => cases hs
    | _ => simp only [Terminal.takes, huser]
  | _ => rfl

omit [DecidableEq H] in
theorem takes_of_done {action : Text} {params : Message} {id : ℕ} {reply : Option Message} {logout : Bool}
    {c : CliCall} (huser : s.user () = .request ⟨action, params, .done id reply⟩ logout)
    (hpc : t.pc = .calling c) : t.takes s (.user (), .go) =
      { t with result := some reply, calls := t.calls ++ [(c, reply)] } := by
  simp only [Terminal.takes, huser, hpc]

omit [DecidableEq H] in
theorem takes_of_other {a : Thread Unit × ClientAct H} (hcall : (s.user ()).call? = none) :
    t.takes s a = t := by
  unfold Terminal.takes
  split
  · split
    · rename_i huser _
      rw [huser] at hcall
      cases hcall
    · rfl
  · rfl

theorem Inside.user {act : ClientAct H} {conn : ServerConnection H} {pc : UserPc H}
    (hi : Inside args t.pc t.result (s.user ()) s.conn.running)
    (hb : s.behaves (.user (), act) = true) (hs : userStep s.conn (s.user ()) act = some (conn, pc)) :
    Inside args t.pc (t.takes s (.user (), act)).result pc conn.running := by
  have hcalls : ∀ m, act ≠ .call m := by
    rintro m rfl
    cases hb
  have hcrash : act ≠ .crash := by
    rintro rfl
    cases hb
  generalize huser : s.user () = user at hi hs
  generalize hmain : t.pc = main at hi ⊢
  generalize hresult : t.result = result at hi
  generalize hrun : s.conn.running = running at hi
  have keep : user.call? = none → (t.takes s (.user (), act)).result = result := by
    intro h
    rw [takes_of_other (huser ▸ h), hresult]
  cases userStep_moves hs with
  | call m => exact absurd rfl (hcalls m)
  | login u n =>
    rw [keep rfl]
    cases hi with
    | login => exact .request .login .next _
  | @request a call call' conn' logout hreq =>
    rw [takes_of_request huser hreq, hresult]
    obtain ⟨pc', rfl, -⟩ := requestStep_cases hreq
    cases hi with
    | request c q => exact .request c pc' _
  | returns action params id reply =>
    generalize false = logout at hi huser
    cases hi with
    | request c q =>
      rw [takes_of_done huser hmain]
      exact .returned c reply _
  | loggedOut action params id reply =>
    generalize hlogout : true = logout at hi huser
    cases hi with
    | request c q =>
      rw [takes_of_done huser hmain]
      cases c with
      | logout => exact .forget reply _
      | login | read | write => cases hlogout
  | forget =>
    rw [keep rfl]
    cases hi with
    | forget reply => exact .returned .logout reply _
  | close =>
    rw [keep rfl]
    cases hi with
    | close farewell => exact .closeState farewell
  | closeState =>
    rw [keep rfl]
    cases hi with
    | closeState farewell =>
      rw [show (s.conn.setState .disconnected).running = false from hrun]
      exact .closeSock farewell
  | closeRaises => exact absurd rfl hcrash
  | closeSock =>
    rw [keep rfl]
    cases hi with
    | closeSock farewell =>
      rw [show ({ s.conn with closed := s.conn.sock.toList ++ s.conn.closed } :
        ServerConnection H).running = false from hrun]
      exact .closed farewell

theorem Inside.connection {a : Thread Unit × ClientAct H}
    (hi : Inside args t.pc t.result (s.user ()) s.conn.running) (hb : s.behaves a = true)
    (hs : clientStep s a = some s') :
    Inside args (t.watch s s' a).pc (t.watch s s' a).result (s'.user ()) s'.conn.running := by
  have hpc : (t.watch s s' a).pc = t.pc := takes_pc t s a
  rw [hpc]
  show Inside args t.pc (t.takes s a).result _ _
  obtain ⟨th, act⟩ := a
  rcases clientStep_cases hs with ⟨u, conn', pc, hth, hstep, rfl⟩ | ⟨conn', pc, hth, hstep, rfl⟩ |
    ⟨conn', pc, hth, hstep, rfl⟩
  · obtain rfl : th = .user u := hth
    simp only [Function.update_self]
    exact hi.user hb hstep
  · obtain rfl : th = .listener := hth
    rw [listenerStep_running hstep]
    exact hi
  · obtain rfl : th = .beat := hth
    rw [show conn'.running = s.conn.running by rw [beatStep_frame hstep]]
    exact hi

/-! ## What has been asked for -/

/-- The calls of `main` that have returned. -/
def ClientHistory.mainReturns (h : ClientHistory Unit) : List (Returned Unit) :=
  h.returns.filter fun x => x.caller = .user ()

/-- What a call has sent, and what it has returned. -/
def Returned.exchange {U : Type} (x : Returned U) : Text × Message × Option Message :=
  (x.request.action, x.request.params, x.reply)

/-- `request` returns to `main` in this step. -/
def returnsToMain (s : Client Unit H) (a : Thread Unit × ClientAct H) : List (Returned Unit) :=
  match a with
  | (.user _, act) => (s.user ()).call?.toList.flatMap (·.returning (.user ()) act)
  | _ => []

section

omit [DecidableEq H]

theorem caller_of_returning {U : Type} {th : Thread U} {c : RequestCall H} {act : ClientAct H}
    {x : Returned U} (hx : x ∈ c.returning th act) : x.caller = th := by
  unfold RequestCall.returning at hx
  split at hx
  · rw [List.mem_singleton.1 hx]
  · cases hx

theorem mainReturns_next (h : ClientHistory Unit) (s : Client Unit H) (a : Thread Unit × ClientAct H) :
    (h.next s a).mainReturns = h.mainReturns ++ returnsToMain s a := by
  have hreturns : (h.next s a).returns = h.returns ++ (s.call? a.1).toList.flatMap (·.returning a.1 a.2) := by
    rcases a with ⟨_ | _ | _, act⟩ <;> rfl
  have hcaller : ∀ x ∈ (s.call? a.1).toList.flatMap (·.returning a.1 a.2), x.caller = a.1 := by
    intro x hx
    obtain ⟨c, -, hx⟩ := List.mem_flatMap.1 hx
    exact caller_of_returning hx
  rw [ClientHistory.mainReturns, hreturns, List.filter_append]
  refine congrArg (h.mainReturns ++ ·) ?_
  rcases a with ⟨u | _ | _, act⟩
  · exact List.filter_eq_self.2 fun x hx => decide_eq_true (hcaller x hx)
  · refine List.filter_eq_nil_iff.2 fun x hx => ?_
    rw [hcaller x hx]
    simp
  · rfl

theorem returnsToMain_cases (s : Client Unit H) (a : Thread Unit × ClientAct H) :
    returnsToMain s a = [] ∧ (∀ t : Terminal, t.takes s a = t) ∨
    ∃ action params id reply logout, a = (.user (), .go) ∧
      s.user () = .request ⟨action, params, .done id reply⟩ logout ∧
      returnsToMain s a = [⟨.user (), ⟨id, action, params⟩, reply⟩] := by
  rcases a with ⟨u | _ | _, act⟩
  · cases huser : s.user () with
    | request call logout =>
      obtain ⟨action, params, pc⟩ := call
      by_cases hdone : ∃ id reply, pc = .done id reply ∧ act = .go
      · obtain ⟨id, reply, rfl, rfl⟩ := hdone
        refine .inr ⟨action, params, id, reply, logout, rfl, rfl, ?_⟩
        simp only [returnsToMain, huser, UserPc.call?, Option.toList_some, List.flatMap_cons,
          List.flatMap_nil, List.append_nil]
        rfl
      · refine .inl ⟨?_, fun t => ?_⟩
        · simp only [returnsToMain, huser, UserPc.call?, Option.toList_some, List.flatMap_cons,
            List.flatMap_nil, List.append_nil]
          unfold RequestCall.returning
          split
          · rename_i id reply hpc
            exact absurd ⟨id, reply, hpc, rfl⟩ hdone
          · rfl
        · cases act with
          | go =>
            cases pc with
            | done id reply => exact absurd ⟨id, reply, rfl, rfl⟩ hdone
            | _ => simp only [Terminal.takes, huser]
          | _ => rfl
    | _ =>
      refine .inl ⟨?_, fun t => takes_of_other (by rw [huser]; rfl)⟩
      simp only [returnsToMain, huser]
      rfl
  · exact .inl ⟨rfl, fun t => rfl⟩
  · exact .inl ⟨rfl, fun t => rfl⟩

end

/-- **The invariant of a session.** -/
structure SessionInv (args : Arguments) (t : Terminal) (s : Client Unit H) (h : ClientHistory Unit) : Prop where
  program : ProgramInv t
  reports : t.Reports
  inside : Inside args t.pc t.result (s.user ()) s.conn.running
  returns : h.mainReturns.map Returned.exchange = t.calls.map fun e => (e.1.action, e.1.params args, e.2)

theorem ProgramInv.screen (hp : ProgramInv t) (screen : List Printed) :
    ProgramInv { t with screen } :=
  ⟨hp.start, hp.quiet, hp.asked, hp.replied, hp.taken, hp.before, hp.goes⟩

omit [DecidableEq H] in
theorem sessionInv_init (args : Arguments) : SessionInv args {} ({} : Client Unit H) {} := by
  refine ⟨⟨fun _ => ⟨rfl, rfl⟩, fun _ => rfl, fun h => absurd rfl h, List.forall_mem_nil _, ?_, ?_, ?_⟩,
    rfl, .start _, rfl⟩
  · intro c reply h
    cases h
  · exact List.forall_mem_nil _
  · exact fun _ => List.forall_mem_nil _

/-- What a step of the connection is for the calls: nothing, or the call of `main` returns, with a
message. -/
theorem SessionInv.takes (hi : SessionInv args t s h) (a : Thread Unit × ClientAct H)
    (hr : (clientMachine Unit H).Reachable (s', h.next s a)) :
    t.takes s a = t ∧ returnsToMain s a = [] ∨
    ∃ c m id, t.pc = .calling c ∧ t.result = none ∧
      t.takes s a = { t with result := some (some m), calls := t.calls ++ [(c, some m)] } ∧
      returnsToMain s a = [⟨.user (), ⟨id, c.action, c.params args⟩, some m⟩] ∧
      s.user () = .request ⟨c.action, c.params args, .done id (some m)⟩ c.isLogout := by
  rcases returnsToMain_cases s a with ⟨hnone, hsame⟩ | ⟨action, params, id, reply, logout, rfl, huser, hret⟩
  · exact .inl ⟨hsame t, hnone⟩
  · right
    have hmem : (⟨.user (), ⟨id, action, params⟩, reply⟩ : Returned Unit) ∈
        (h.next s (.user (), .go)).mainReturns := by
      rw [mainReturns_next, hret]
      exact List.mem_append_right _ List.mem_cons_self
    obtain ⟨m, hm, -⟩ := reply_cases hr (List.mem_of_mem_filter hmem)
    obtain rfl : reply = some m := hm
    obtain ⟨c, hpc, hresult, rfl, rfl, rfl⟩ := hi.inside.request_cases huser
    exact ⟨c, m, id, hpc, hresult, takes_of_done huser hpc, hret, huser⟩

omit [DecidableEq H] in
/-- What the callbacks print in a step. -/
theorem callbackPrints_cases {a : Thread Unit × ClientAct H} {x : Printed}
    (hx : x ∈ callbackPrints s s' a) : x = .connection s'.conn.state ∨
      ∃ m, s.listener = .handle m ∧ eventRaises m = true ∧ updateLine m = some x := by
  rcases List.mem_append.1 hx with hx | hx
  · split at hx
    · cases hx
    · exact .inl (List.mem_singleton.1 hx)
  · split at hx
    · split at hx
      · exact .inr ⟨_, ‹_›, ‹_›, Option.mem_toList.1 hx⟩
      · cases hx
    · cases hx

theorem update_of_updateLine {m : Message} {x : Printed} (hx : updateLine m = some x) :
    ∃ v u summary, x = .update v u summary := by
  unfold updateLine at hx
  split at hx <;> cases hx
  exact ⟨_, _, _, rfl⟩

omit [DecidableEq H] in
/-- No callback prints about calls. -/
theorem reports_callback (s s' : Client Unit H) (a : Thread Unit × ClientAct H) :
    (callbackPrints s s' a).filter Printed.isReport = [] := by
  refine List.filter_eq_nil_iff.2 fun x hx => ?_
  rcases callbackPrints_cases hx with rfl | ⟨m, -, -, hline⟩
  · exact Bool.false_ne_true
  · obtain ⟨v, u, summary, rfl⟩ := update_of_updateLine hline
    exact Bool.false_ne_true

theorem SessionInv.connection {a : Thread Unit × ClientAct H} (hi : SessionInv args t s h)
    (hb : s.behaves a = true) (hs : clientStep s a = some s')
    (hr : (clientMachine Unit H).Reachable (s', h.next s a)) :
    SessionInv args (t.watch s s' a) s' (h.next s a) := by
  have hinside := hi.inside.connection hb hs
  have hscreen : ∀ {t' : Terminal}, t'.Reports →
      Terminal.Reports { t' with screen := t'.screen ++ callbackPrints s s' a } := by
    intro t' ht
    refine ht.keep ?_ rfl rfl
    rw [Terminal.reports, List.filter_append, reports_callback, List.append_nil]
    rfl
  have hkeeps : (t.watch s s' a) =
      { t.takes s a with screen := (t.takes s a).screen ++ callbackPrints s s' a } := by
    have hsame : (t.takes s a).screen = t.screen := by
      unfold Terminal.takes
      split
      · split <;> rfl
      · rfl
    rw [Terminal.watch, hsame]
  rcases hi.takes a hr with ⟨hsame, hnone⟩ | ⟨c, m, id, hpc, hresult, htakes, hret, -⟩
  · refine ⟨?_, ?_, hinside, ?_⟩
    · refine ProgramInv.screen ?_ _
      rw [hsame]
      exact hi.program
    · rw [hkeeps, hsame]
      exact hscreen hi.reports
    · rw [mainReturns_next, hnone, List.append_nil, hi.returns]
      show _ = (t.takes s a).calls.map _
      rw [hsame]
  · -- the call of `main` returns
    refine ⟨?_, ?_, hinside, ?_⟩
    · refine ProgramInv.screen ?_ _
      rw [htakes]
      exact hi.program.takes hpc hresult m
    · rw [hkeeps, htakes]
      exact hscreen (hi.reports.takes hresult c (some m))
    · rw [mainReturns_next, hret, List.map_append, hi.returns]
      show _ = (t.takes s a).calls.map _
      rw [htakes, List.map_append]
      rfl

theorem SessionInv.step (hi : SessionInv args t s h) (hm : TerminalMove args t s h t' s' h')
    (hr : (clientMachine Unit H).Reachable (s', h')) : SessionInv args t' s' h' := by
  cases hm with
  | other => exact hi
  | main a hmain hnone =>
    have hmove := mainStep_cases hmain
    refine ⟨hi.program.main hmove, hi.reports.main hi.program hmove,
      (hi.inside.main hi.program hmove).1 hnone, ?_⟩
    rw [hi.returns, hmove.calls]
  | call a m hmain hcall hidle =>
    have hmove := mainStep_cases hmain
    refine ⟨hi.program.main hmove, hi.reports.main hi.program hmove, ?_, ?_⟩
    · rw [(hi.inside.main hi.program hmove).2 m hcall]
      exact inside_method hcall
    · rw [hi.returns, hmove.calls]
  | connection a hb hs => exact hi.connection hb hs hr

/-! ### The requests of a connection -/

/-- A PING, the LOGIN of the command line, or what a line asks for that has been typed. -/
def Asks (args : Arguments) (typed : List Text) (action : Text) (params : Message) : Prop :=
  action = actionPing ∧ params = [] ∨
    ∃ c, (c = .login ∨ c ∈ typed.filterMap callOf) ∧ action = c.action ∧ params = c.params args

theorem Asks.mono {typed typed' : List Text} {action : Text} {params : Message}
    (ha : Asks args typed action params) (hp : typed <+: typed') : Asks args typed' action params := by
  rcases ha with hping | ⟨c, hc, hrest⟩
  · exact .inl hping
  · exact .inr ⟨c, hc.imp_right fun hm => (hp.filterMap callOf).mem hm, hrest⟩

omit [DecidableEq H] in
/-- What gets an id in a step is asked for by the call of the thread, or is a PING. -/
theorem issued_next {a : Thread Unit × ClientAct H} {r : Request} (hr : r ∈ (h.next s a).issued) :
    r ∈ h.issued ∨ (∃ c, s.call? a.1 = some c ∧ r.action = c.action ∧ r.params = c.params) ∨
      r.action = actionPing ∧ r.params = [] := by
  have calls : ∀ r ∈ (s.call? a.1).toList.flatMap (·.issues s.conn a.2),
      ∃ c, s.call? a.1 = some c ∧ r.action = c.action ∧ r.params = c.params := by
    intro r hr
    obtain ⟨c, hc, hr⟩ := List.mem_flatMap.1 hr
    refine ⟨c, by simpa using hc, ?_⟩
    unfold RequestCall.issues at hr
    split at hr
    · rw [List.mem_singleton.1 hr]
      exact ⟨rfl, rfl⟩
    · cases hr
  rcases a with ⟨u | _ | _, act⟩
  · exact (List.mem_append.1 hr).imp_right fun hr => .inl (calls r hr)
  · exact (List.mem_append.1 hr).imp_right fun hr => .inl (calls r hr)
  · rcases List.mem_append.1 hr with hr | hr
    · exact (List.mem_append.1 hr).imp_right fun hr => .inl (calls r hr)
    · right
      right
      unfold BeatPc.issues at hr
      split at hr
      · rw [List.mem_singleton.1 hr]
        exact ⟨rfl, rfl⟩
      · cases hr

omit [DecidableEq H] in
/-- The call that `main` is in is one that it has been asked for. -/
theorem SessionInv.call (hi : SessionInv args t s h) {q : RequestCall H} (hq : s.call? (.user ()) = some q) :
    Asks args t.typed q.action q.params := by
  cases huser : s.user () with
  | request q' logout =>
    rw [Client.call?, huser] at hq
    obtain rfl : q' = q := Option.some.inj hq
    obtain ⟨c, hpc, hresult, haction, hparams, -⟩ := hi.inside.request_cases huser
    refine .inr ⟨c, ?_, haction, hparams⟩
    have hasked := hi.program.asked fun h => by cases hpc.symm.trans h
    rw [unanswered_calling hpc hresult] at hasked
    have hmem : c ∈ CliCall.login :: t.typed.filterMap callOf := by
      rw [← hasked]
      exact List.mem_append_right _ List.mem_cons_self
    exact List.mem_cons.1 hmem
  | _ =>
    rw [Client.call?, huser] at hq
    cases hq

structure RequestInv (args : Arguments) (t : Terminal) (s : Client Unit H) (h : ClientHistory Unit) : Prop where
  credentials : ∀ x, s.conn.credentials = some x → x = (args.userId, args.username)
  relogin : ∀ q, s.listener.call? = some q →
    q.action = actionLogin ∧ q.params = loginParams args.userId args.username
  issued : ∀ r ∈ h.issued, Asks args t.typed r.action r.params

/-- The listener logs in with the credentials that `login` has left. -/
theorem relogin_step {act : ClientAct H} {conn conn' : ServerConnection H} {pc pc' : ListenerPc H}
    (hcred : ∀ x, conn.credentials = some x → x = (args.userId, args.username))
    (hold : ∀ q, pc.call? = some q →
      q.action = actionLogin ∧ q.params = loginParams args.userId args.username)
    (hs : listenerStep conn pc act = some (conn', pc')) {q : RequestCall H} (hq : pc'.call? = some q) :
    q.action = actionLogin ∧ q.params = loginParams args.userId args.username := by
  cases listenerStep_cases hs with
  | handle m hm =>
    rw [(handleIncoming_sent hm).2] at hq
    cases hq
  | relogin u n hu =>
    cases hq
    cases hcred _ hu
    exact ⟨rfl, rfl⟩
  | @request a c c' conn' hreq =>
    cases hq
    obtain ⟨pc', rfl, -⟩ := requestStep_cases hreq
    exact hold c rfl
  | outside _ _ _ hb =>
    rw [call?_of_bare hb] at hq
    cases hq
  | connect | read | receive | crash | resolve | wake | lock | sweep | sweepWake | swept | returns =>
    cases hq

omit [DecidableEq H] in
theorem typed_watch (a : Thread Unit × ClientAct H) : (t.watch s s' a).typed = t.typed := by
  show (t.takes s a).typed = t.typed
  unfold Terminal.takes
  split
  · split <;> rfl
  · rfl

theorem RequestInv.connection {a : Thread Unit × ClientAct H} (hi : RequestInv args t s h)
    (hsession : SessionInv args t s h) (hs : clientStep s a = some s') :
    RequestInv args (t.watch s s' a) s' (h.next s a) := by
  refine ⟨?_, ?_, fun r hr => ?_⟩
  · obtain ⟨th, act⟩ := a
    rcases clientStep_cases hs with ⟨u, conn', pc, hth, hstep, rfl⟩ | ⟨conn', pc, hth, hstep, rfl⟩ |
      ⟨conn', pc, hth, hstep, rfl⟩
    · intro x hx
      have hx : conn'.credentials = some x := hx
      rcases userStep_credentials hstep with hsame | ⟨n, m, hpc, -, hnew⟩ | hnone
      · exact hi.credentials x (hsame ▸ hx)
      · have hinside := hsession.inside
        have hpc : s.user () = .login n m := hpc
        rw [hpc] at hinside
        generalize t.pc = pc at hinside
        generalize t.result = result at hinside
        cases hinside with
        | login =>
          rw [hnew] at hx
          exact (Option.some.inj hx).symm
      · rw [hnone] at hx
        cases hx
    · intro x hx
      have hx : conn'.credentials = some x := hx
      exact hi.credentials x (listenerStep_credentials hstep ▸ hx)
    · intro x hx
      have hx : conn'.credentials = some x := hx
      exact hi.credentials x (beatStep_credentials hstep ▸ hx)
  · rcases clientStep_cases hs with ⟨u, conn', pc, -, hstep, rfl⟩ | ⟨conn', pc, -, hstep, rfl⟩ |
      ⟨conn', pc, -, hstep, rfl⟩
    · exact hi.relogin
    · exact fun q hq => relogin_step hi.credentials hi.relogin hstep hq
    · exact hi.relogin
  · rw [typed_watch]
    rcases issued_next hr with hold | ⟨q, hq, haction, hparams⟩ | hping
    · exact hi.issued r hold
    · rw [haction, hparams]
      rcases a with ⟨u | _ | _, act⟩
      · exact hsession.call hq
      · obtain ⟨h1, h2⟩ := hi.relogin q hq
        exact .inr ⟨.login, .inl rfl, h1, h2⟩
      · cases hq
    · exact .inl hping

theorem RequestInv.step (hi : RequestInv args t s h) (hsession : SessionInv args t s h)
    (hm : TerminalMove args t s h t' s' h') : RequestInv args t' s' h' := by
  cases hm with
  | other => exact hi
  | main a hmain hnone =>
    exact ⟨hi.credentials, hi.relogin, fun r hr => (hi.issued r hr).mono (mainStep_cases hmain).typed⟩
  | call a m hmain hcall hidle =>
    exact ⟨hi.credentials, hi.relogin, fun r hr => (hi.issued r hr).mono (mainStep_cases hmain).typed⟩
  | connection a hb hs => exact hi.connection hsession hs

end Session

/-! ## Every run -/

section Runs

variable {C H : Type} [DecidableEq C] [DecidableEq H] {cfg : Config} {file : Bytes} {args : C → Arguments}
  {p : Terminals C H}

theorem system_of_terminals {ok : Terminals C H → TerminalAct C H → Prop}
    (hr : (terminals cfg file C H args).Reach ok p) :
    (systemMachine cfg file C Unit H).Reach (fun _ a => a.plain = true) p.1 := by
  refine Machine.Reach.map (fun p : Terminals C H => p.1) ?_ ?_ hr
  · rintro p ⟨hp, -⟩
    exact hp
  · intro p a q _ _ hs
    rcases system_step hs with hsame | ⟨b, hplain, -, hstep⟩
    · exact .inl hsame
    · exact .inr ⟨b, hplain, hstep⟩

theorem sessionInv_of_reachable (hr : (terminals cfg file C H args).Reachable p) (c : C) :
    SessionInv (args c) (p.2 c) (p.1.1.client c) (p.1.2.clients c) ∧
      RequestInv (args c) (p.2 c) (p.1.1.client c) (p.1.2.clients c) := by
  refine hr.invariant (fun p => SessionInv (args c) (p.2 c) (p.1.1.client c) (p.1.2.clients c) ∧
    RequestInv (args c) (p.2 c) (p.1.1.client c) (p.1.2.clients c)) ?_ ?_
  · rintro ⟨⟨s, L⟩, t⟩ ⟨⟨⟨hclient, -⟩, hL⟩, ht⟩
    have hclient : s.client c = {} := hclient c
    have hL : L = {} := hL
    have ht : t c = {} := ht c
    simp only [hclient, hL, ht]
    refine ⟨sessionInv_init (args c), ⟨fun x hx => ?_, fun q hq => ?_, List.forall_mem_nil _⟩⟩
    · cases hx
    · cases hq
  · intro p a q hr hi hs
    have hmove := terminals_step hs c
    have hnext := system_of_terminals (hr.step hs)
    exact ⟨hi.1.step hmove (client_of_system hnext c).reachable, hi.2.step hi.1 hmove⟩

/-- **A terminal asks the server for what is typed into it.**  In every run, whatever the other clients
and the server do: the calls of `main` that have returned are a LOGIN with the arguments of the command
line and then, in order, what the lines ask for that have been typed, with at most the last one still to
return; each of them has returned a message, and each but the last one that lets `main` go on.  What is
printed of calls is one line for each that `main` has gone on from, in order, with what the call has
returned.  Whatever else the connection has sent is that LOGIN again, or a PING.  And when `main` has
ended, `close` has told the connection to stop. -/
theorem terminal_session (hr : (terminals cfg file C H args).Reachable p) (c : C) :
    ((p.1.2.clients c).mainReturns.map Returned.exchange =
      (p.2 c).calls.map fun e => (e.1.action, e.1.params (args c), e.2)) ∧
    ((p.2 c).pc ≠ .start → ∃ pending, pending.length ≤ 1 ∧
      (p.2 c).calls.map Prod.fst ++ pending = .login :: (p.2 c).typed.filterMap callOf) ∧
    (∀ e ∈ (p.2 c).calls, ∃ m, e.2 = some m) ∧
    (∀ e ∈ (p.2 c).calls.dropLast, goesOn e.1 e.2 = true) ∧
    ((p.2 c).reports = (p.2 c).resumed.filterMap fun e => e.2.map (reportOf e.1)) ∧
    (∀ r ∈ (p.1.2.clients c).issued, Asks (args c) (p.2 c).typed r.action r.params) ∧
    ((p.2 c).pc = .exited → (p.1.1.client c).conn.running = false) := by
  obtain ⟨hi, hrequests⟩ := sessionInv_of_reachable hr c
  refine ⟨hi.returns, fun hstart => ⟨(p.2 c).unanswered, ?_, hi.program.asked hstart⟩, hi.program.replied,
    hi.program.before, hi.reports, hrequests.issued, fun hexited => ?_⟩
  · unfold Terminal.unanswered
    split
    · exact le_rfl
    · exact Nat.zero_le 1
  · have hinside := hi.inside
    rw [hexited] at hinside
    generalize (p.2 c).result = result at hinside
    generalize (p.1.1.client c).user () = user at hinside
    generalize (p.1.1.client c).conn.running = running at hinside ⊢
    cases hinside
    rfl

end Runs

/-! ### A run -/

section Run

variable {C H : Type}

def aliceArguments : Arguments := ⟨lit "ENG001", lit "Alice", rfl⟩

/-- The client connects. -/
def connects (c : C) (h : H) : List (SystemAct C Unit H) :=
  [.client c .listener .go, .connect c h] ++ List.replicate 6 (.client c .listener .go) ++
    [.handler h .accept]

/-- `main` makes a call, the request goes out in so many steps, is served, and the call returns. -/
def asks (c : C) (a : MainAct) (steps : ℕ) (served : List (SystemAct C Unit H)) : List (TerminalAct C H) :=
  .main c a :: ((roundTrip c () .read steps served).tail.map .system ++ [.main c .go])

/-- The terminal connects, and logs in. -/
def opens (c : C) (h : H) : List (TerminalAct C H) :=
  (connects c h).map .system ++ asks c .go 6 (.request h :: List.replicate 8 (.handler h .go))

def typesWrite (c : C) (h : H) : List (TerminalAct C H) :=
  asks c (.enter (lit "write hi")) 5
    [.request h, .handler h (.data (.lock false)), .handler h (.data .go),
      .handler h (.data (.openAt (lit "now"))), .handler h (.data (.flush 17)), .handler h (.data .go),
      .handler h (.data (.release 0)), .handler h .go, .handler h .go, .handler h .go]

def typesQuit (c : C) : List (TerminalAct C H) :=
  .main c (.enter (lit "quit")) ::
    ((List.replicate 3 (.client c (.user ()) .go : SystemAct C Unit H)).map .system ++ [.main c .go])

def terminalsStart (cfg : Config) : Terminals C H := ((systemStart cfg, {}), fun _ => {})

theorem terminalsStart_init [DecidableEq C] [DecidableEq H] (args : C → Arguments) :
    (terminals shippedConfig (utf8 []) C H args).init (terminalsStart shippedConfig) :=
  ⟨systemStart_init, fun _ => rfl⟩

end Run

theorem typesQuit_closed :
    ∃ p, (terminals shippedConfig (utf8 []) (Fin 1) (Fin 1) fun _ => aliceArguments).run
        (terminalsStart shippedConfig) (opens 0 0 ++ typesWrite 0 0 ++ typesQuit 0) = some p ∧
      (p.2 0).typed = [lit "write hi", lit "quit"] ∧ (p.1.1.client 0).conn.running = false ∧
      ∃ pending, (p.2 0).calls.map Prod.fst ++ pending = [.login, .write (lit "hi")] := by
  have hs : ((terminals shippedConfig (utf8 []) (Fin 1) (Fin 1) fun _ =>
      aliceArguments).run (terminalsStart shippedConfig)
        (opens 0 0 ++ typesWrite 0 0 ++ typesQuit 0)).map (fun p => ((p.2 0).pc, (p.2 0).typed)) =
      some (.exited, [lit "write hi", lit "quit"]) := by
    decide +kernel
  obtain ⟨p, hrun, hval⟩ := Option.map_eq_some_iff.1 hs
  obtain ⟨hpc, htyped⟩ := Prod.mk.inj hval
  have hr : (terminals shippedConfig (utf8 []) (Fin 1) (Fin 1) fun _ => aliceArguments).Reachable p :=
    Machine.Reachable.run (.init (terminalsStart_init _)) hrun
  obtain ⟨-, hasked, -, -, -, -, hexited⟩ := terminal_session hr 0
  obtain ⟨pending, -, hcalls⟩ := hasked fun h => by cases hpc.symm.trans h
  refine ⟨p, hrun, htyped, hexited hpc, pending, hcalls.trans ?_⟩
  rw [htyped]
  decide

end DistRes
