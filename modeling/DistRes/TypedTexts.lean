import DistRes.Linearizability
import DistRes.TerminalSession

/-!
# From one terminal to the others

What is typed into one terminal is what the other ones print: in the resource that they read, and in the
updates that they are told of.

* `typed_of_commit` — the records are those of lines that have been typed;
* `updates_are_typed` — so are the updates on every screen;
* `SinceInv` — what a terminal calls and prints from a point of a run on;
* `typed_write_is_read` — a write that one terminal has been told of is in what any terminal reads then.
-/

namespace DistRes

open Lib

/-! ## The records -/

/-- What is typed arrives as it is. -/
theorem userId_of_login {id : ℕ} {action u n : Text} (hu : typable u = true) :
    getField (Request.mk id action (loginParams u n)).arriving (lit "user_id") = .str u := by
  have hsent : getField (Request.mk id action (loginParams u n)).fields (lit "user_id") = .str u := rfl
  rw [getField_arriving _ (by decide), hsent, Json.joined, joinPairs_of_pairFree (pairFree_of_typable hu)]

theorem content_of_write {r : Request} {text : Text} (ht : typable text = true)
    (hr : r.params = writeParams text) : writeContent r.arriving = .str text := by
  rw [writeContent_write hr, joinPairs_of_pairFree (pairFree_of_typable ht)]

/-- The lines stay typable. -/
theorem typable_of_mainMove {started idle : Bool} {t t' : Terminal} {a : MainAct}
    (hm : MainMove started idle t a t') (ht : ∀ line ∈ t.typed, typable line = true) :
    ∀ line ∈ t'.typed, typable line = true := by
  cases hm with
  | resume c reply => rwa [(({ t with result := none } : Terminal).resume_keeps c reply).1]
  | enter line hpc hline =>
    rw [(({ t with typed := t.typed ++ [line] } : Terminal).obey_keeps (commandOf line)).1]
    exact List.forall_mem_append.2 ⟨ht, List.forall_mem_singleton.2 hline⟩
  | leave farewell => cases farewell <;> exact ht
  | login | interrupt => exact ht

section Records

variable {C H : Type} [DecidableEq C] [DecidableEq H] [Fintype H] {cfg : Config} {file : Bytes}
  {args : C → Arguments} {p : Terminals C H}

theorem write_of_asks {arg : Arguments} {typed : List Text} {params : Message}
    (ha : Asks arg typed actionWrite params) :
    ∃ text, CliCall.write text ∈ typed.filterMap callOf ∧ params = writeParams text := by
  rcases ha with ⟨haction, -⟩ | ⟨c, hc, haction, rfl⟩
  · exact absurd haction (by decide)
  · cases c with
    | write text => exact ⟨text, hc.resolve_left fun h => (by cases h), rfl⟩
    | login | logout | read => exact absurd haction (by decide)

theorem login_of_asks {arg : Arguments} {typed : List Text} {params : Message}
    (ha : Asks arg typed actionLogin params) : params = loginParams arg.userId arg.username := by
  rcases ha with ⟨haction, -⟩ | ⟨c, -, haction, rfl⟩
  · exact absurd haction (by decide)
  · cases c with
    | login => rfl
    | write text => exact absurd (show actionLogin = actionWrite from haction) (by decide)
    | logout | read => exact absurd haction (by decide)

section

omit [Fintype H]

theorem typable_of_typed (hr : (terminals cfg file C H args).Reachable p) (c : C) :
    ∀ line ∈ (p.2 c).typed, typable line = true := by
  refine hr.invariant (fun p => ∀ line ∈ (p.2 c).typed, typable line = true) ?_ ?_
  · rintro ⟨s, t⟩ ⟨-, ht⟩
    have ht : t c = {} := ht c
    simp only [ht]
    exact List.forall_mem_nil _
  · intro p a q _ hi hs
    have hmove := terminals_step hs c
    generalize q.2 c = t', q.1.1.client c = s', q.1.2.clients c = h' at hmove ⊢
    cases hmove with
    | other => exact hi
    | main a hmain | call a m hmain => exact typable_of_mainMove (mainStep_cases hmain) hi
    | connection a => rwa [typed_watch]

theorem typable_of_written (hr : (terminals cfg file C H args).Reachable p) {c : C} {text : Text}
    (hw : CliCall.write text ∈ (p.2 c).typed.filterMap callOf) : typable text = true := by
  obtain ⟨line, hline, hcall⟩ := List.mem_filterMap.1 hw
  exact typable_write (typable_of_typed hr c line hline) hcall

/-- The user of a terminal is the one of its command line. -/
theorem user_of_session (hr : (terminals cfg file C H args).Reachable p) {e : Commit H}
    (he : e ∈ p.1.2.service.commits) {c : C} {r : Request}
    (ho : p.1.1.origin e.handler e.number = some (c, r)) {u : Text} (hu : e.session = some u) :
    u = (args c).userId := by
  obtain ⟨⟨id, action, params⟩, hq, rfl, huser⟩ := author_of_commit (system_of_terminals hr) he ho hu
  obtain rfl := login_of_asks ((sessionInv_of_reachable hr c).2.issued _ hq)
  have hgiven := (Bool.and_eq_true_iff.1 (args c).given).1
  exact Json.str.inj (huser.symm.trans (userId_of_login hgiven))

end

/-- **A record is what has been typed into a terminal**, under the name of its user. -/
theorem typed_of_commit (hr : (terminals cfg file C H args).Reachable p) {e : Commit H}
    (he : e ∈ p.1.2.service.commits) :
    ∃ c text r stamp, p.1.1.origin e.handler e.number = some (c, r) ∧ r.params = writeParams text ∧
      CliCall.write text ∈ (p.2 c).typed.filterMap callOf ∧ e.text = record stamp (args c).userId text := by
  have hplain := system_of_terminals hr
  obtain ⟨m, u, stamp, hgot, hwrite, hu, htext, -⟩ :=
    (serviceInv_of_reachable (server_of_system hplain.reachable)).committed e he
  obtain ⟨c, r, ho, rfl⟩ := origin_of_got (systemInv_of_reachable hplain.reachable) hgot
  have hclient := client_of_system hplain c
  have hissued : r ∈ (p.1.2.clients c).issued :=
    (sentInv_of_reachable hclient.reachable).sent e.handler r
      (List.mem_of_getElem? (origin_eq_some.1 ho).2.2)
  have haction := (isWrite_of_plain ((plainInv_of_reach hclient).2 r hissued)).1 hwrite
  have hasks := (sessionInv_of_reachable hr c).2.issued r hissued
  rw [haction] at hasks
  obtain ⟨text, htyped, hparams⟩ := write_of_asks hasks
  refine ⟨c, text, r, stamp, ho, hparams, htyped, ?_⟩
  rw [htext, content_of_write (typable_of_written hr htyped) hparams, pyFormat_str,
    user_of_session hr he ho hu]

end Records

/-! ## The updates -/

section Updates

variable {H : Type} [DecidableEq H]

/-- An update is printed for an EVENT that has been received. -/
def UpdatesInv (t : Terminal) (h : ClientHistory Unit) : Prop :=
  ∀ x ∈ t.screen, (∃ v u s, x = .update v u s) →
    ∃ m ∈ h.received, eventRaises m = true ∧ updateLine m = some x

theorem UpdatesInv.step {args : Arguments} {t t' : Terminal} {s s' : Client Unit H}
    {h h' : ClientHistory Unit} (hi : UpdatesInv t h) (hr : ReceivedInv s h)
    (hm : TerminalMove args t s h t' s' h') : UpdatesInv t' h' := by
  have main : ∀ {started idle : Bool} {a : MainAct} {t'}, mainStep started idle t a = some t' →
      UpdatesInv t' h := by
    intro started idle a t' hs x hx hup
    obtain ⟨xs, hscreen, hxs⟩ := (mainStep_cases hs).prints
    rw [hscreen] at hx
    rcases List.mem_append.1 hx with hx | hx
    · exact hi x hx hup
    · obtain ⟨v, u, summary, rfl⟩ := hup
      cases hxs _ hx
  cases hm with
  | other => exact hi
  | main a hs | call a m hs => exact main hs
  | connection a hb hs =>
    intro x hx hup
    have hx : x ∈ t.screen ++ callbackPrints s s' a := hx
    have hgrow : h.received ⊆ (h.next s a).received := by
      rcases a with ⟨u | _ | _, act⟩
      · exact List.Subset.refl _
      · exact List.subset_append_left _ _
      · exact List.Subset.refl _
    rcases List.mem_append.1 hx with hx | hx
    · obtain ⟨m, hm, hrest⟩ := hi x hx hup
      exact ⟨m, hgrow hm, hrest⟩
    · rcases callbackPrints_cases hx with rfl | ⟨m, hl, hrest⟩
      · obtain ⟨v, u, summary, heq⟩ := hup
        cases heq
      · -- `on_event`, for the EVENT that the listener handles
        exact ⟨m, hgrow (hr.1 m hl), hrest⟩

theorem updateLine_of_payload {m : Message} {v : ℕ} {u : Text} {summary : Json}
    (hm : getField m (lit "payload") = (⟨v, some u, summary⟩ : Update).toJson) :
    updateLine m = some (.update (.int v) (.str u) summary) := by
  have hfield : field? m (lit "payload") = some (⟨v, some u, summary⟩ : Update).toJson := by
    cases h : field? m (lit "payload") with
    | none =>
      rw [getField, h] at hm
      cases hm
    | some x =>
      rw [getField, h] at hm
      exact congrArg some hm
  rw [updateLine, hfield]
  rfl

end Updates

section Screens

variable {C H : Type} [DecidableEq C] [DecidableEq H] {cfg : Config} {file : Bytes} {args : C → Arguments}
  {p : Terminals C H}

theorem updatesInv_of_reachable (hr : (terminals cfg file C H args).Reachable p) (d : C) :
    UpdatesInv (p.2 d) (p.1.2.clients d) := by
  refine hr.invariant (fun p => UpdatesInv (p.2 d) (p.1.2.clients d)) ?_ ?_
  · rintro ⟨s, t⟩ ⟨-, ht⟩
    have ht : t d = {} := ht d
    simp only [ht]
    exact fun x hx => absurd hx List.not_mem_nil
  · intro p a q hr hi hs
    exact hi.step (receivedInv_of_reachable (client_of_system (system_of_terminals hr) d).reachable)
      (terminals_step hs d)

variable [Fintype H]

/-- **The updates on a screen are what has been typed.**  In every run, every update that a terminal
prints names a version, the user of some terminal, and a text that has been typed after `write ` there;
and the record of this version is the one of this text. -/
theorem updates_are_typed (hr : (terminals cfg file C H args).Reachable p) {d : C}
    {version updatedBy summary : Json} (hx : .update version updatedBy summary ∈ (p.2 d).screen) :
    ∃ (v : ℕ) (c : C) (text stamp : Text) (e : Commit H), version = .int v ∧
      updatedBy = .str (args c).userId ∧ summary = .str text ∧
      CliCall.write text ∈ (p.2 c).typed.filterMap callOf ∧ 1 ≤ v ∧
      p.1.2.service.commits[v - 1]? = some e ∧ e.text = record stamp (args c).userId text := by
  obtain ⟨m, hm, hevent, hline⟩ := updatesInv_of_reachable hr d _ hx ⟨_, _, _, rfl⟩
  obtain ⟨v, u, e, c, r, -, hpayload, hv, he, ho, -, hu⟩ :=
    event_of_received (system_of_terminals hr) hm hevent
  have hmem := List.mem_of_getElem? he
  obtain ⟨c', text, r', stamp, ho', hparams, htyped, htext⟩ := typed_of_commit hr hmem
  obtain ⟨rfl, rfl⟩ := Prod.mk.inj (Option.some.inj (ho.symm.trans ho'))
  rw [updateLine_of_payload hpayload, content_of_write (typable_of_written hr htyped) hparams,
    user_of_session hr hmem ho hu] at hline
  obtain ⟨rfl, rfl, rfl⟩ := Printed.update.inj (Option.some.inj hline)
  exact ⟨v, c, text, stamp, e, rfl, rfl, rfl, htyped, hv, he, htext⟩

end Screens

/-! ## From a point of a run on -/

/-- The id of the request, from `next` on. -/
def RequestPc.id? {K : Type} : RequestPc K → Option ℕ
  | .next => none
  | .insert id | .send id _ | .failed id | .wait id | .timedOut id | .fetch id | .done id _ => some id

section Since

variable {H : Type} [DecidableEq H] {conn conn' : ServerConnection H} {act : ClientAct H}

omit [DecidableEq H] in
theorem id_of_ofSend (id : ℕ) (pc : SendPc H) : (RequestPc.ofSend id pc).id? = some id := by
  cases pc <;> rfl

/-- A call gets its id from the connection, and keeps it. -/
theorem id_of_userStep {pc pc' : UserPc H} (hs : userStep conn pc act = some (conn', pc'))
    {q' : RequestCall H} (hq' : pc'.call? = some q') {id : ℕ} (hid : q'.pc.id? = some id) :
    id = conn.nextId ∨ ∃ q, pc.call? = some q ∧ q.pc.id? = some id := by
  cases userStep_moves hs with
  | call m =>
    cases m with
    | login | close => cases hq'
    | logout | read | write | request =>
      cases hq'
      cases hid
  | login u n =>
    cases hq'
    cases hid
  | @request a q q₁ conn' logout hreq =>
    cases hq'
    obtain ⟨pc', rfl, hstep⟩ := requestStep_cases hreq
    obtain ⟨action, params, pc⟩ := q
    cases hstep with
    | next =>
      cases hid
      exact .inl rfl
    | send id' ok =>
      rw [id_of_ofSend] at hid
      exact .inr ⟨_, rfl, hid⟩
    | insert | unavailable | wakes | expires | timedOut | fetch => exact .inr ⟨_, rfl, hid⟩
  | returns | loggedOut | forget | close | closeState | closeRaises | closeSock => cases hq'

/-- **What a terminal has called and printed since a point** at which it has returned from the calls so
far, with the given requests issued: other requests. -/
structure SinceInv (old : List Request) (returns : List (Returned Unit)) (t₀ t : Terminal)
    (s : Client Unit H) (h : ClientHistory Unit) : Prop where
  issued : old ⊆ h.issued
  asking : ∀ q, (s.user ()).call? = some q → ∀ id, q.pc.id? = some id → ∀ r ∈ old, r.id ≠ id
  returned : ∃ xs, h.mainReturns = returns ++ xs ∧ ∀ x ∈ xs, x.request ∉ old
  resumed : t₀.resumed <+: t.resumed
  screen : t₀.screen <+: t.screen

variable {old : List Request} {returns : List (Returned Unit)} {args : Arguments} {t₀ t t' : Terminal}
  {s s' : Client Unit H} {h h' : ClientHistory Unit}

omit [DecidableEq H] in
/-- What returns to `main` has the id of its call. -/
theorem SinceInv.returns_new (hi : SinceInv old returns t₀ t s h) {a : Thread Unit × ClientAct H}
    {x : Returned Unit} (hx : x ∈ returnsToMain s a) : x.request ∉ old := by
  rcases returnsToMain_cases s a with ⟨hnone, -⟩ | ⟨action, params, id, reply, logout, -, huser, hret⟩
  · rw [hnone] at hx
    cases hx
  · rw [hret, List.mem_singleton] at hx
    subst hx
    intro hold
    exact hi.asking _ (by rw [huser]; rfl) id rfl _ hold rfl

theorem SinceInv.connection {a : Thread Unit × ClientAct H} (hi : SinceInv old returns t₀ t s h)
    (hsession : SessionInv args t s h) (hbelow : ∀ r ∈ h.issued, r.id < s.conn.nextId)
    (hs : clientStep s a = some s') (hr : (clientMachine Unit H).Reachable (s', h.next s a)) :
    SinceInv old returns t₀ (t.watch s s' a) s' (h.next s a) := by
  refine ⟨List.Subset.trans hi.issued (issued_subset h s a), ?_, ?_, ?_, ?_⟩
  · obtain ⟨th, act⟩ := a
    rcases clientStep_cases hs with ⟨u, conn', pc, -, hstep, rfl⟩ | ⟨conn', pc, -, hstep, rfl⟩ |
      ⟨conn', pc, -, hstep, rfl⟩
    · intro q hq id hid r hold
      have hq : pc.call? = some q := by simpa using hq
      rcases id_of_userStep hstep hq hid with rfl | ⟨q', hq', hid'⟩
      · exact (hbelow r (hi.issued hold)).ne
      · exact hi.asking q' hq' id hid' r hold
    · exact hi.asking
    · exact hi.asking
  · obtain ⟨xs, hxs, hnew⟩ := hi.returned
    refine ⟨xs ++ returnsToMain s a, ?_, fun x hx => ?_⟩
    · rw [mainReturns_next, hxs, List.append_assoc]
    · exact (List.mem_append.1 hx).elim (hnew x) hi.returns_new
  · have hkeep : (t.takes s a).resumed = t.resumed := by
      rcases hsession.takes a hr with ⟨hsame, -⟩ | ⟨c, m, id, -, hresult, htakes, -⟩
      · rw [hsame]
      · rw [htakes, resumed_of_none hresult]
        exact List.dropLast_concat
    exact hkeep ▸ hi.resumed
  · exact hi.screen.trans (List.prefix_append _ _)

omit [DecidableEq H] in
/-- At the prompt nothing is under way. -/
theorem SessionInv.prompt (hi : SessionInv args t s h) (hpc : t.pc = .prompt) :
    s.user () = .idle ∧ t.result = none := by
  have hinside := hi.inside
  rw [hpc] at hinside
  generalize s.user () = user at hinside ⊢
  generalize t.result = result at hinside ⊢
  cases hinside
  exact ⟨rfl, rfl⟩

omit [DecidableEq H] in
theorem SinceInv.main (hi : SinceInv old returns t₀ t s h) {started idle : Bool} {a : MainAct}
    (hm : MainMove started idle t a t') : SinceInv old returns t₀ t' s h := by
  obtain ⟨xs, hscreen, -⟩ := hm.prints
  exact ⟨hi.issued, hi.asking, hi.returned, hi.resumed.trans hm.resumed,
    hi.screen.trans (hscreen ▸ List.prefix_append _ _)⟩

theorem SinceInv.step (hi : SinceInv old returns t₀ t s h) (hsession : SessionInv args t s h)
    (hbelow : ∀ r ∈ h.issued, r.id < s.conn.nextId) (hm : TerminalMove args t s h t' s' h')
    (hr : (clientMachine Unit H).Reachable (s', h')) : SinceInv old returns t₀ t' s' h' := by
  cases hm with
  | other => exact hi
  | main a hs => exact hi.main (mainStep_cases hs)
  | call a m hs =>
    obtain ⟨hissued, -, hreturned, hresumed, hscreen⟩ := hi.main (mainStep_cases hs)
    refine ⟨hissued, fun q hq id hid => ?_, hreturned, hresumed, hscreen⟩
    -- a call begins without an id
    cases m with
    | login | close => cases hq
    | logout | read | write | request =>
      cases hq
      cases hid
  | connection a hb hs => exact hi.connection hsession hbelow hs hr

theorem read_of_report {c : CliCall} {m : Message} {version content : Json}
    (hx : reportOf c m = .resource version content) :
    c = .read ∧ saysOk m = true ∧ version = getField m (lit "version") ∧
      content = getField m (lit "content") := by
  cases c with
  | read =>
    simp only [reportOf] at hx
    split at hx
    · obtain ⟨rfl, rfl⟩ := Printed.resource.inj hx
      exact ⟨rfl, ‹_›, rfl, rfl⟩
    · cases hx
  | login | write =>
    simp only [reportOf] at hx
    split at hx <;> cases hx
  | logout => cases hx

omit [DecidableEq H] in
/-- A resource that is printed since a point at the prompt is what a READ has returned that was called
since. -/
theorem SinceInv.resource {s₀ : Client Unit H} {h₀ : ClientHistory Unit}
    (hi : SinceInv old h₀.mainReturns t₀ t s h) (hs₀ : SessionInv args t₀ s₀ h₀) (hpc : t₀.pc = .prompt)
    (hs : SessionInv args t s h) {version content : Json}
    (hx : .resource version content ∈ t.screen.drop t₀.screen.length) :
    ∃ x ∈ h.returns, x.request ∉ old ∧ x.request.action = actionRead ∧
      ∃ m, x.reply = some m ∧ saysOk m = true ∧ version = getField m (lit "version") ∧
        content = getField m (lit "content") := by
  have hcalls₀ := resumed_of_none (hs₀.prompt hpc).2
  obtain ⟨cs, hcs⟩ := hi.resumed
  obtain ⟨zs, hzs⟩ := hi.screen
  obtain ⟨xs, hxs, hnew⟩ := hi.returned
  -- what is printed since is about the calls since
  have hreports : zs.filter Printed.isReport = cs.filterMap fun e => e.2.map (reportOf e.1) := by
    have h := hs.reports
    rw [Terminal.Reports, Terminal.reports, ← hzs, ← hcs, List.filter_append, List.filterMap_append] at h
    have h₀ := hs₀.reports
    rw [Terminal.Reports, Terminal.reports] at h₀
    rw [h₀] at h
    exact List.append_cancel_left h
  rw [← hzs, List.drop_left] at hx
  have hmem : Printed.resource version content ∈ zs.filter Printed.isReport :=
    List.mem_filter.2 ⟨hx, rfl⟩
  rw [hreports, List.mem_filterMap] at hmem
  obtain ⟨⟨c, reply⟩, he, hline⟩ := hmem
  obtain ⟨m, rfl, hline⟩ := Option.map_eq_some_iff.1 hline
  obtain ⟨rfl, hok, hversion, hcontent⟩ := read_of_report hline
  -- and these are what has returned to `main` since
  have hprefix : t.resumed <+: t.calls := by
    unfold Terminal.resumed
    split
    · exact List.prefix_rfl
    · exact List.dropLast_prefix _
  obtain ⟨rest, hrest⟩ := hprefix
  have hreturns : xs.map Returned.exchange =
      (cs ++ rest).map fun e => (e.1.action, e.1.params args, e.2) := by
    have h := hs.returns
    rw [hxs, ← hrest, ← hcs, List.append_assoc, List.map_append, hs₀.returns, hcalls₀,
      List.map_append] at h
    exact List.append_cancel_left h
  have hexchange : (actionRead, [], some m) ∈ xs.map Returned.exchange := by
    rw [hreturns]
    exact List.mem_map.2 ⟨_, List.mem_append_left _ he, rfl⟩
  obtain ⟨x, hx, heq⟩ := List.mem_map.1 hexchange
  obtain ⟨haction, heq⟩ := Prod.mk.inj heq
  refine ⟨x, ?_, hnew x hx, haction, m, (Prod.mk.inj heq).2, hok, hversion, hcontent⟩
  refine List.mem_of_mem_filter (p := fun x => decide (x.caller = .user ())) (l := h.returns) ?_
  show x ∈ h.mainReturns
  rw [hxs]
  exact List.mem_append_right _ hx

end Since

section Runs

variable {C H : Type} [DecidableEq C] [DecidableEq H] {cfg : Config} {file : Bytes} {args : C → Arguments}
  {p p₀ : Terminals C H}

theorem sinceInv_of_reach {ok : Terminals C H → TerminalAct C H → Prop}
    (hr₀ : (terminals cfg file C H args).Reachable p₀)
    (hr : ((terminals cfg file C H args).startingAt p₀).Reach ok p) {d : C} (hd : (p₀.2 d).pc = .prompt) :
    SinceInv (p₀.1.2.clients d).issued (p₀.1.2.clients d).mainReturns (p₀.2 d) (p.2 d) (p.1.1.client d)
      (p.1.2.clients d) := by
  refine hr.invariant (fun p => SinceInv (p₀.1.2.clients d).issued (p₀.1.2.clients d).mainReturns (p₀.2 d)
    (p.2 d) (p.1.1.client d) (p.1.2.clients d)) ?_ ?_
  · intro p hp
    have hp : p = p₀ := hp
    subst hp
    refine ⟨List.Subset.refl _, fun q hq => ?_, ⟨[], (List.append_nil _).symm, List.forall_mem_nil _⟩,
      List.prefix_rfl, List.prefix_rfl⟩
    rw [((sessionInv_of_reachable hr₀ d).1.prompt hd).1] at hq
    cases hq
  · rintro p a q hr hi - hs
    have hr := hr₀.trans hr
    have hs : (terminals cfg file C H args).step p a = some q := hs
    have hclient := (client_of_system (system_of_terminals hr) d).reachable
    exact hi.step (sessionInv_of_reachable hr d).1 (fun r hm => id_lt_of_issued hclient hm)
      (terminals_step hs d) (client_of_system (system_of_terminals (hr.step hs)) d).reachable

/-- No file operation of the step raises. -/
def Storing (p : Terminals C H) : TerminalAct C H → Prop
  | .main _ _ => True
  | .system a => p.1.1.stores a = true

theorem storing_step {q : Terminals C H} {a : TerminalAct C H} (ha : Storing p a)
    (hs : (terminals cfg file C H args).step p a = some q) :
    q.1 = p.1 ∨ ∃ b, Working p.1 b ∧ (systemMachine cfg file C Unit H).step p.1 b = some q.1 := by
  rcases system_step hs with hsame | ⟨b, hplain, rfl | ⟨c, m, rfl⟩, hstep⟩
  · exact .inl hsame
  · exact .inr ⟨b, ⟨hplain, ha⟩, hstep⟩
  · exact .inr ⟨_, ⟨hplain, rfl⟩, hstep⟩

theorem working_of_terminals (hr : (terminals cfg file C H args).Reach Storing p) :
    (systemMachine cfg file C Unit H).Reach Working p.1 := by
  refine Machine.Reach.map (fun p : Terminals C H => p.1) ?_ ?_ hr
  · rintro p ⟨hp, -⟩
    exact hp
  · exact fun p a q _ ha hs => storing_step ha hs

theorem working_of_start (hr : ((terminals cfg file C H args).startingAt p₀).Reach Storing p) :
    ((systemMachine cfg file C Unit H).startingAt p₀.1).Reach Working p.1 := by
  refine Machine.Reach.map (fun p : Terminals C H => p.1) ?_ ?_ hr
  · intro p hp
    have hp : p = p₀ := hp
    subst hp
    rfl
  · exact fun p a q _ ha hs => storing_step ha hs

/-- The record of what has been typed into a terminal. -/
def TypedRecord (args : C → Arguments) (t : C → Terminal) (rec : Text) : Prop :=
  ∃ c text stamp, CliCall.write text ∈ (t c).typed.filterMap callOf ∧ rec = record stamp (args c).userId text

theorem statusOk_of_saysOk {m : Message} (h : saysOk m = true) :
    getField m (lit "status") = .str statusOk := by
  unfold saysOk at h
  split at h
  · rename_i s hs
    rw [hs, of_decide_eq_true h]
  · cases h

variable [Fintype H]

/-- A write that has returned OK to `main` has its record. -/
theorem record_of_write (hr : (terminals cfg file C H args).Reachable p) {c : C} {text : Text} {m : Message}
    (hwrite : (.write text, some m) ∈ (p.2 c).calls) (hok : saysOk m = true) :
    ∃ stamp, ∃ e ∈ p.1.2.service.commits, e.text = record stamp (args c).userId text := by
  have hreturns := (sessionInv_of_reachable hr c).1.returns
  have hexchange : (actionWrite, writeParams text, some m) ∈
      (p.1.2.clients c).mainReturns.map Returned.exchange := by
    rw [hreturns]
    exact List.mem_map.2 ⟨_, hwrite, rfl⟩
  obtain ⟨x, hx, heq⟩ := List.mem_map.1 hexchange
  obtain ⟨haction, heq⟩ := Prod.mk.inj heq
  obtain ⟨hparams, hreply⟩ := Prod.mk.inj heq
  obtain ⟨v, -, -, e, he, ho⟩ := commit_of_ok (system_of_terminals hr) (List.mem_of_mem_filter hx) haction
    hreply (statusOk_of_saysOk hok)
  obtain ⟨c', text', r, stamp, ho', hparams', -, htext⟩ := typed_of_commit hr (List.mem_of_getElem? he)
  obtain ⟨rfl, rfl⟩ := Prod.mk.inj (Option.some.inj (ho.symm.trans ho'))
  have hsame : text = text' := by
    have h := (show x.request.params = writeParams text from hparams).symm.trans hparams'
    simpa [writeParams] using h
  exact ⟨stamp, e, List.mem_of_getElem? he, hsame ▸ htext⟩

/-- **What is typed into one terminal is read at the others.**  Take any two points of a run in which the
storage works.  If by the first one a terminal has been told that its write is committed, then what any
terminal prints of the resource between the two, and was at the prompt at the first, is the initial text
with records of what has been typed into the terminals, as many as the version says, and the record of
this write is one of them. -/
theorem typed_write_is_read {init : Text} (henc : encodable init = true)
    (hr₀ : (terminals cfg (utf8 init) C H args).Reach Storing p₀)
    (hr : ((terminals cfg (utf8 init) C H args).startingAt p₀).Reach Storing p) {c : C} {text : Text}
    {m : Message} (hwrite : (.write text, some m) ∈ (p₀.2 c).calls) (hok : saysOk m = true) {d : C}
    (hprompt : (p₀.2 d).pc = .prompt) {version content : Json}
    (hread : .resource version content ∈ (p.2 d).screen.drop (p₀.2 d).screen.length) :
    ∃ recs : List Text, version = .int recs.length ∧
      content = .str (universalNewlines (fileText init recs)) ∧
      (∀ rec ∈ recs, TypedRecord args p.2 rec) ∧ ∃ stamp, record stamp (args c).userId text ∈ recs := by
  have hreach := hr₀.trans hr
  have hsession := (sessionInv_of_reachable hreach.reachable d).1
  have hwork₀ := working_of_terminals hr₀
  have hwork := working_of_start hr
  obtain ⟨x, hx, hnew, haction, m', hm', hok', rfl, rfl⟩ :=
    (sinceInv_of_reach hr₀.reachable hr hprompt).resource
      (sessionInv_of_reachable hr₀.reachable d).1 hprompt hsession hread
  obtain ⟨v, text', hversion, hcontent, hseen⟩ :=
    read_shows henc hwork₀ hwork hx hnew hm' (statusOk_of_saysOk hok') haction
  have hlen : ((p.1.2.service.commits.map Commit.text).take v).length = v :=
    List.length_take_of_le hseen.le
  refine ⟨(p.1.2.service.commits.map Commit.text).take v, ?_, ?_, fun rec hrec => ?_, ?_⟩
  · rw [hversion, hlen]
  · rw [hcontent, hseen.content]
  · obtain ⟨e, he, rfl⟩ := List.mem_map.1 (List.mem_of_mem_take hrec)
    obtain ⟨c', written, r, stamp, -, -, htyped, htext⟩ := typed_of_commit hreach.reachable he
    exact ⟨c', written, stamp, htyped, htext⟩
  · obtain ⟨stamp, e, he, htext⟩ := record_of_write hr₀.reachable hwrite hok
    refine ⟨stamp, ?_⟩
    -- the READ has seen the commits of the first point
    have hlow : (p₀.1.2.service.commits.map Commit.text) <+:
        (p.1.2.service.commits.map Commit.text).take v := by
      refine List.prefix_take_iff.2 ⟨(since_of_reach hwork).commits.map _, ?_⟩
      have hlength := (serviceInv_of_reachable (server_of_system hwork₀.reachable)).version
      have hlength : p₀.1.1.server.shared.data.version = p₀.1.2.service.commits.length := hlength
      rw [List.length_map, ← hlength]
      exact hseen.low
    rw [← htext]
    exact hlow.subset (List.mem_map_of_mem he)

end Runs

/-! ### A run -/

/-- One terminal is Alice's. -/
def aliceAt {C : Type} [DecidableEq C] (c d : C) : Arguments :=
  if d = c then aliceArguments else ⟨lit "ENG002", lit "Bob", rfl⟩

instance {C H : Type} (p : Terminals C H) : ∀ a, Decidable (Storing p a)
  | .main _ _ => inferInstanceAs (Decidable True)
  | .system a => inferInstanceAs (Decidable (p.1.1.stores a = true))

def typesRead {C H : Type} (c : C) (h : H) : List (TerminalAct C H) :=
  asks c (.enter (lit " read")) 5
    ([.request h, .handler h (.data (.lock false))] ++ List.replicate 3 (.handler h (.data .go)) ++
      [.handler h (.data (.release 0)), .handler h .go, .handler h .go, .handler h .go])

/-- Two terminals log in, and one of them writes. -/
def writesRun {C H : Type} (c d : C) (h k : H) : List (TerminalAct C H) :=
  opens c h ++ opens d k ++ typesWrite c h

def Printed.isResource : Printed → Bool
  | .resource _ _ => true
  | _ => false

theorem resource_of_any {l : List Printed} (h : l.any Printed.isResource = true) :
    ∃ version content, .resource version content ∈ l := by
  obtain ⟨x, hx, hres⟩ := List.any_eq_true.1 h
  cases x with
  | resource version content => exact ⟨version, content, hx⟩
  | _ => cases hres

/-- The other terminal reads what has been written. -/
theorem typesRead_reads_write :
    ∃ p₀ p, (terminals shippedConfig (utf8 []) (Fin 2) (Fin 2) (aliceAt 0)).runIf Storing
        (terminalsStart shippedConfig) (writesRun 0 1 0 1) = some p₀ ∧
      ((terminals shippedConfig (utf8 []) (Fin 2) (Fin 2) (aliceAt 0)).startingAt p₀).runIf Storing p₀
        (typesRead 1 1) = some p ∧
      ∃ version recs stamp, .resource version (.str (universalNewlines (fileText [] recs))) ∈ (p.2 1).screen ∧
        record stamp (lit "ENG001") (lit "hi") ∈ recs := by
  have hs : ((terminals shippedConfig (utf8 []) (Fin 2) (Fin 2) (aliceAt 0)).runIf Storing
      (terminalsStart shippedConfig) (writesRun 0 1 0 1)).bind (fun p₀ =>
        (((terminals shippedConfig (utf8 []) (Fin 2) (Fin 2) (aliceAt 0)).startingAt p₀).runIf Storing p₀
          (typesRead 1 1)).map fun p => ((p₀.2 0).calls[1]?.map fun e => (e.1, e.2.map saysOk),
            (p₀.2 1).pc, ((p.2 1).screen.drop (p₀.2 1).screen.length).any Printed.isResource)) =
      some (some (.write (lit "hi"), some true), .prompt, true) := by
    decide +kernel
  obtain ⟨p₀, hrun₀, hs⟩ := Option.bind_eq_some_iff.1 hs
  obtain ⟨p, hrun, hval⟩ := Option.map_eq_some_iff.1 hs
  simp only [Prod.mk.injEq] at hval
  obtain ⟨hcall, hprompt, hany⟩ := hval
  obtain ⟨⟨call, reply⟩, he, hcall⟩ := Option.map_eq_some_iff.1 hcall
  obtain ⟨hcall, hreply⟩ := Prod.mk.inj hcall
  obtain ⟨m, hm, hok⟩ := Option.map_eq_some_iff.1 hreply
  have hwrite : (.write (lit "hi"), some m) ∈ (p₀.2 0).calls := by
    rw [← show call = .write (lit "hi") from hcall, ← show reply = some m from hm]
    exact List.mem_of_getElem? he
  obtain ⟨version, content, hread⟩ := resource_of_any hany
  have hr₀ : (terminals shippedConfig (utf8 []) (Fin 2) (Fin 2) (aliceAt 0)).Reach Storing p₀ :=
    Machine.Reach.runIf (.init (terminalsStart_init _)) hrun₀
  obtain ⟨recs, -, hcontent, -, stamp, hrec⟩ := typed_write_is_read (show encodable [] = true from rfl) hr₀
    (Machine.Reach.runIf (.init rfl) hrun) hwrite hok hprompt hread
  exact ⟨p₀, p, hrun₀, hrun, version, recs, stamp, hcontent ▸ List.mem_of_mem_drop hread, hrec⟩

/-- The server tells the other terminal of the write. -/
def tellsOther {C H : Type} (d : C) (h : H) : List (SystemAct C Unit H) :=
  List.replicate 3 (.handler h .go) ++ [.deliver d, .client d .listener .go]

def Printed.isUpdate : Printed → Bool
  | .update _ _ _ => true
  | _ => false

theorem tellsOther_told :
    ∃ p, (terminals shippedConfig (utf8 []) (Fin 2) (Fin 2) (aliceAt 0)).run (terminalsStart shippedConfig)
        (writesRun 0 1 0 1 ++ (tellsOther 1 0).map .system) = some p ∧
      ∃ (v : ℕ) (c : Fin 2) (text : Text),
        .update (.int v) (.str (aliceAt 0 c).userId) (.str text) ∈ (p.2 1).screen ∧
        CliCall.write text ∈ (p.2 c).typed.filterMap callOf := by
  have hs : ((terminals shippedConfig (utf8 []) (Fin 2) (Fin 2) (aliceAt 0)).run
      (terminalsStart shippedConfig) (writesRun 0 1 0 1 ++ (tellsOther 1 0).map .system)).map
        (fun p => (p.2 1).screen.any Printed.isUpdate) = some true := by
    decide +kernel
  obtain ⟨p, hrun, hany⟩ := Option.map_eq_some_iff.1 hs
  obtain ⟨x, hx, hup⟩ := List.any_eq_true.1 hany
  have hr : (terminals shippedConfig (utf8 []) (Fin 2) (Fin 2) (aliceAt 0)).Reachable p :=
    Machine.Reachable.run (.init (terminalsStart_init _)) hrun
  cases x with
  | update version updatedBy summary =>
    obtain ⟨v, c, text, stamp, e, rfl, rfl, rfl, htyped, -⟩ := updates_are_typed hr hx
    exact ⟨p, hrun, v, c, text, hx, htyped⟩
  | _ => cases hup

end DistRes
