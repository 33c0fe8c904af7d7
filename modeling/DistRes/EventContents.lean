import DistRes.Linearizability

/-!
# What EVENTs tell

An EVENT is about a write that has committed: it has the number of the commit, the user whose session
it was, and the content that was asked for, whatever became of the session in between.

* `HandlerPc.telling` — the update that a handler carries from the commit to `publish`;
* `telling_step` — it comes from the commit, and nothing changes it on the way;
* `events_tell_commits` — every EVENT that the server has ever sent.
-/

namespace DistRes

open Lib

/-! ## On the way to the subscribers -/

/-- The update that a `publish` is about. -/
def PublishPc.update {C : Type} : PublishPc C → Option Update
  | .snapshot _ payload => some payload
  | .deliver e _ _ | .drop _ e _ _ => some e.payload
  | .done _ => none

/-- The update that a handler with the given `_user_id` is going to publish, or is publishing. -/
def HandlerPc.telling {H : Type} (userId : Option Text) : HandlerPc H → Option Update
  | .write _ content _ pc => pc.carried.map fun v => ⟨v, userId, content⟩
  | .writeDone _ content _ r => (committedIn (.ok r)).map fun v => ⟨v, userId, content⟩
  | .respond _ (.publish v text) => some ⟨v, userId, text⟩
  | .publish pc => pc.update
  | _ => none

section Handler

variable {H : Type} {cfg : Config} {h : H} {s s' : DistResServer H} {l l' : ClientHandler H}
  {a : HandlerAct}

theorem telling_of_atRest {pc : HandlerPc H} {u : Option Text} (h : pc.atRest = true) :
    pc.telling u = none := by
  cases pc <;> first | rfl | cases h

theorem telling_cleanup (l : ClientHandler H) (u : Option Text) : l.cleanup.pc.telling u = none :=
  telling_of_atRest (atRest_cleanup l)

theorem telling_dispatch (cfg : Config) (l : ClientHandler H) (m : Json) (u : Option Text) :
    (l.dispatch cfg m).pc.telling u = none := by
  have hd := dispatch_cases cfg l m
  generalize l.dispatch cfg m = l' at hd
  cases hd with
  | notDict | unhashable => exact telling_cleanup l u
  | ignored | login | refused | read | write | logout | ping | unknown => rfl

theorem update_step {C : Type} {b b' : PubSubBroker C} {ok : Bool} {pc pc' : PublishPc C}
    {d : Option (C × Event)} (hs : publish b ok pc = some (b', pc', d)) {p : Update}
    (hp : pc'.update = some p) : pc.update = some p := by
  unfold publish at hs
  split at hs
  · cases hs
    exact hp
  · split at hs <;> cases hs <;> exact hp
  · cases hs
    cases hp
  · cases hs
    exact hp
  · cases hs

variable [DecidableEq H]

/-- Inside `write_resource` an update begins with the commit. -/
theorem writeResource_telling {T : Type} [DecidableEq T] {t : T} {u x : Text} {d d' : DataLayer T}
    {pc pc' : WritePc} {b : DataAct} (hs : writeResource t u x d pc b = some (d', pc')) :
    pc'.carried = pc.carried ∨ ∃ rec, pc = .bump rec ∧ b = .go ∧ pc'.carried = some (d.version + 1) := by
  cases writeResource_cases hs with
  | acquire p q expired l hl =>
    left
    cases q with
    | returned ok => cases ok <;> rfl
    | _ => rfl
  | bumped rec => exact .inr ⟨rec, rfl, rfl, rfl⟩
  | wake | refused | calledBack | callbackRaised | opened | unencodable | openRaised | flushed | closed
  | appendRaised | closeRaised | released => exact .inl rfl

/-- **What a step does to the update of a handler**: it begins with the commit, and is not changed. -/
theorem telling_step (hs : handlerStep cfg h s l a = some (s', l')) {p : Update}
    (hp : l'.pc.telling l'.userId = some p) :
    l.pc.telling l.userId = some p ∨ ∃ id content u rec, l.pc = .write id content u (.bump rec) ∧
      a = .data .go ∧ p = ⟨s.data.version + 1, l.userId, content⟩ := by
  have gone : l'.pc.telling l'.userId = none → l.pc.telling l.userId = some p ∨
      ∃ id content u rec, l.pc = .write id content u (.bump rec) ∧ a = .data .go ∧
        p = ⟨s.data.version + 1, l.userId, content⟩ := by
    intro hnone
    rw [hnone] at hp
    cases hp
  cases handlerStep_cases hs with
  | accept | readReturns | published => exact gone rfl
  | receive m => exact gone (telling_dispatch cfg l m _)
  | hangup | unsent | authenticate | readRaised | writeRaised => exact gone (telling_cleanup l _)
  | respond r next hpc =>
    cases next with
    | loop => exact gone rfl
    | publish v text =>
      left
      rw [hpc]
      exact hp
    | release => exact gone (telling_of_atRest (atRest_releaseSession l .logout))
  | login id pc hpc =>
    refine gone (handleLogin_pc cfg h s id pc (P := fun p => ∀ u, p.telling u = none) ?_ ?_ ?_ _)
    · exact telling_cleanup l
    · exact fun r u => rfl
    · exact fun pc' u => rfl
  | read id u pc b hpc hread =>
    obtain ⟨d, pc', -, -, rfl⟩ := handleRead_cases hread
    exact gone rfl
  | readDone id u r hpc =>
    split at hp <;> cases hp
  | write id content u pc b hpc hwrite =>
    obtain ⟨d, pc', hdata, -, rfl⟩ := handleWrite_cases hwrite
    rw [hpc]
    rcases writeResource_telling hdata with hsame | ⟨rec, rfl, rfl, hnew⟩
    · left
      show pc.carried.map _ = some p
      rw [← hsame]
      exact hp
    · right
      refine ⟨id, content, u, rec, rfl, rfl, ?_⟩
      have hp : pc'.carried.map (fun v => (⟨v, l.userId, content⟩ : Update)) = some p := hp
      rw [hnew] at hp
      exact (Option.some.inj hp).symm
  | writeReturns id content u r hpc =>
    left
    rw [hpc]
    exact hp
  | writeDone id content u r hpc =>
    left
    rw [hpc]
    split at hp
    · rename_i hok
      rw [HandlerPc.telling, committedIn, if_pos hok]
      exact hp
    · cases hp
  | publish pc pc' ok b d hpc hok hpub =>
    left
    rw [hpc]
    exact update_step hpub hp
  | release pc caller => exact gone (telling_of_atRest (atRest_releaseStep l cfg s caller pc))

/-- An EVENT goes out from a handler that tells its update. -/
theorem event_sent (hs : handlerStep cfg h s l a = some (s', l')) {k : H} {e : Event}
    (hm : .event e ∈ s'.sockets k) : .event e ∈ s.sockets k ∨ l.pc.telling l.userId = some e.payload := by
  have sent : ∀ {t : H} {m : ServerMessage}, s' = s.send t m → .event e ∈ s.sockets k ∨ .event e = m := by
    rintro t m rfl
    by_cases hk : k = t
    · subst hk
      simp only [DistResServer.send, Function.update_self] at hm
      exact (List.mem_append.1 hm).imp_right List.mem_singleton.1
    · simp only [DistResServer.send, Function.update_of_ne hk] at hm
      exact .inl hm
  cases handlerStep_sends hs with
  | nothing hsock => exact .inl (hsock ▸ hm)
  | response r next hpc ha hsend =>
    rcases sent hsend with hm | heq
    · exact .inl hm
    · cases heq
  | event e' u k' todo n hpc ha hsend =>
    rcases sent hsend with hm | heq
    · exact .inl hm
    · cases heq
      right
      rw [hpc]
      rfl

end Handler

/-! ## Every run -/

section Server

variable {H : Type} [DecidableEq H] {cfg : Config} {file : Bytes} {L : ServiceHistory H}

/-- The update describes a commit: its number, the user of the session, and the content that the WRITE
asks for. -/
def Tells (L : ServiceHistory H) (p : Update) : Prop :=
  1 ≤ p.version ∧ ∃ e m u, L.commits[p.version - 1]? = some e ∧ Got L e.handler e.number m ∧ isWrite m ∧
    e.session = some u ∧ p.updatedBy = some u ∧ p.summary = writeContent m

omit [DecidableEq H] in
theorem Tells.mono {p : Update} {L' : ServiceHistory H} (ht : Tells L p)
    (hc : L.commits <+: L'.commits) (hg : ∀ k, L.got k <+: L'.got k) : Tells L' p := by
  obtain ⟨hv, e, m, u, he, hgot, hrest⟩ := ht
  exact ⟨hv, e, m, u, getElem?_of_prefix hc he, hgot.mono (hg _), hrest⟩

/-- What the handlers are going to tell, and what has been told. -/
structure TellsInv (L : ServiceHistory H) (s : DistResServer H) (th : H → ClientHandler H) : Prop where
  telling : ∀ h p, (th h).pc.telling (th h).userId = some p → Tells L p
  told : ∀ k e, .event e ∈ s.sockets k → Tells L e.payload

theorem TellsInv.step {s s' : DistResServer H} {th : H → ClientHandler H} {h : H} {a : HandlerAct}
    {l' : ClientHandler H} (hi : TellsInv L s th) (hv : ServiceInv cfg L file s th)
    (hs : handlerStep cfg h s (th h) a = some (s', l')) :
    TellsInv (L.next h (th h).userId (serviceEvent cfg (th h) a)) s' (Function.update th h l') := by
  have hkeep : ∀ p, Tells L p → Tells (L.next h (th h).userId (serviceEvent cfg (th h) a)) p :=
    fun p ht => ht.mono (commits_next L h _ _) (prefix_got_next L h _ _)
  refine ⟨fun k p hp => ?_, fun k e hm => ?_⟩
  · by_cases hk : k = h
    · subst hk
      rw [Function.update_self] at hp
      rcases telling_step hs hp with hold | ⟨id, content, u, rec, hpc, rfl, rfl⟩
      · exact hkeep p (hi.telling k p hold)
      · -- the commit: the WRITE is the last message
        have hserve := hv.serving k
        rw [hpc] at hserve
        obtain ⟨m, hgot, -, hw, rfl, hu, -⟩ := hserve
        have hcommit : (L.next k (th k).userId (serviceEvent cfg (th k) (.data .go))).commits =
            L.commits ++ [⟨k, (L.got k).length, (th k).userId, rec⟩] := by
          simp only [serviceEvent, hpc]
          rfl
        have hsame : (L.next k (th k).userId (serviceEvent cfg (th k) (.data .go))).got = L.got := by
          simp only [serviceEvent, hpc]
          rfl
        refine ⟨Nat.le_add_left 1 _, ⟨k, (L.got k).length, (th k).userId, rec⟩, m, u, ?_, ?_, hw, hu, hu,
          rfl⟩
        · rw [hcommit, hv.version, Nat.add_sub_cancel, List.getElem?_concat_length]
        · refine hgot.mono ?_
          rw [hsame]
    · rw [Function.update_of_ne hk] at hp
      exact hkeep p (hi.telling k p hp)
  · rcases event_sent hs hm with hold | hnow
    · exact hkeep _ (hi.told k e hold)
    · exact hkeep _ (hi.telling h _ hnow)

variable [Fintype H]

theorem tellsInv_of_reachable {p : Pool.State H (DistResServer H) (ClientHandler H) × ServiceHistory H}
    (hr : (servingServer cfg H file).Reachable p) : TellsInv p.2 p.1.shared p.1.thread := by
  refine hr.invariant (fun p => TellsInv p.2 p.1.shared p.1.thread) ?_ ?_
  · rintro ⟨s, L⟩ ⟨⟨hs, hth⟩, rfl⟩
    have hs : s.shared = { data := { file := file }, sessions := cfg.maxSessions } := hs
    refine ⟨fun h p hp => ?_, fun k e hm => ?_⟩
    · rw [show s.thread h = {} from hth h] at hp
      cases hp
    · rw [hs] at hm
      exact absurd hm List.not_mem_nil
  · rintro ⟨s, L⟩ ⟨h, a⟩ ⟨s', L'⟩ hr hi hs
    obtain ⟨hserver, hh⟩ := Machine.withHistory_step.1 hs
    obtain ⟨d, l, hstep, rfl⟩ := Pool.machine_step.1 hserver
    simp only at hh hi ⊢
    subst hh
    exact hi.step (serviceInv_of_reachable hr) hstep

/-- **EVENTs tell the truth.**  Every EVENT on a socket is about a commit: its version is the number of
the commit, its summary is the content of the WRITE that the handler had got, `updated_by` is the user in
whose session this was, and the record in the file is that user's, with the text that the EVENT shows. -/
theorem events_tell_commits {p : Pool.State H (DistResServer H) (ClientHandler H) × ServiceHistory H}
    (hr : (servingServer cfg H file).Reachable p) {k : H} {e : Event}
    (he : .event e ∈ p.1.shared.sockets k) :
    1 ≤ e.payload.version ∧ ∃ c m u stamp, p.2.commits[e.payload.version - 1]? = some c ∧
      Got p.2 c.handler c.number m ∧ isWrite m ∧ e.payload.summary = writeContent m ∧
      c.session = some u ∧ e.payload.updatedBy = some u ∧
      c.text = record stamp u (pyFormat cfg.strRepr e.payload.summary) := by
  obtain ⟨hv, c, m, u, hc, hgot, hwrite, hu, hby, hsummary⟩ := (tellsInv_of_reachable hr).told k e he
  obtain ⟨m', u', stamp, hgot', -, hu', htext, -⟩ :=
    (serviceInv_of_reachable hr).committed c (List.mem_of_getElem? hc)
  obtain rfl : u = u' := Option.some.inj (hu.symm.trans hu')
  obtain rfl : m = m' := Json.obj.inj (Option.some.inj (hgot.2.symm.trans hgot'.2))
  exact ⟨hv, c, m, u, stamp, hc, hgot, hwrite, hsummary, hu, hby, hsummary ▸ htext⟩

end Server

/-! ### A run -/

/-- A user writes, and is told of it himself. -/
theorem announcedRun_told :
    ∃ p, (servingServer shippedConfig (Fin 1) []).run (serverStart shippedConfig, {}) (announcedRun 0) =
        some p ∧
      ∃ e : Event, .event e ∈ p.1.shared.sockets 0 ∧ e.payload.version = 1 ∧
        ∃ c m u stamp, p.2.commits[0]? = some c ∧ Got p.2 c.handler c.number m ∧ isWrite m ∧
          e.payload.summary = writeContent m ∧ c.session = some u ∧ e.payload.updatedBy = some u ∧
          c.text = record stamp u (pyFormat shippedConfig.strRepr e.payload.summary) := by
  have hs : ((servingServer shippedConfig (Fin 1) []).run (serverStart shippedConfig, {})
      (announcedRun 0)).map (fun p => eventVersions (p.1.shared.sockets 0)) = some [1] := by
    decide
  obtain ⟨p, hrun, hversions⟩ := Option.map_eq_some_iff.1 hs
  have hr : (servingServer shippedConfig (Fin 1) []).Reachable p :=
    Machine.Reachable.run (s := (serverStart shippedConfig, {})) (.init ⟨⟨rfl, fun _ => rfl⟩, rfl⟩) hrun
  have hmem : 1 ∈ eventVersions (p.1.shared.sockets 0) := by
    rw [hversions]
    exact List.mem_singleton_self 1
  obtain ⟨m, hm, hv⟩ := List.mem_filterMap.1 hmem
  cases m with
  | response r => cases hv
  | event e =>
    have hv : e.payload.version = 1 := Option.some.inj hv
    obtain ⟨-, htell⟩ := events_tell_commits hr hm
    rw [hv] at htell
    exact ⟨p, hrun, e, hm, hv, htell⟩

end DistRes
