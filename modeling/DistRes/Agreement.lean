import DistRes.Serving
import DistRes.Staleness

/-!
# A node that shows a user, and the session of this user

What stands behind the user that a node shows is a session on the connection that the node reads, or
a LOGIN of the user that is on its way there, or a recovery that comes to one.

* `System.backs` and `System.abandons` — what stands behind a user, and the steps that end it;
* `backs_iff` — one step of the system;
* `shown_iff_kept` — in a run that abandons no user whom the node shows, the node and its handler
  agree at rest.
-/

namespace DistRes

open Lib

/-! ## What stands behind a user -/

section Cluster

variable {C U H : Type} [DecidableEq C] [DecidableEq U] [DecidableEq H] {cfg : Config} {file : Bytes}
  {s s' : System C U H} {c : C} {u : Text} {a : SystemAct C U H}

omit [DecidableEq C] [DecidableEq U] [DecidableEq H] in
theorem not_close_of_asking {S : Cluster C U H} (hi : AskingInv S) (c : C) (u : U) :
    (S.sys.client c).user u ≠ .close := by
  intro hpc
  have hin := hi c u
  rw [hpc] at hin
  cases hthread : (S.node c).thread u with
  | idle | returned =>
    rw [hthread] at hin
    cases hin
  | calling call =>
    rw [hthread] at hin
    cases call with
    | login | logout => rcases hin with h | ⟨_, h⟩ <;> cases h
    | read | write =>
      obtain ⟨_, h⟩ := hin
      cases h

theorem recoveryInv_of_reachable {p : Cluster C U H × SystemHistory C U H}
    (hr : (clusterMachine cfg file C U H).Reachable p) (c : C) : RecoveryInv (p.1.sys.client c) := by
  refine hr.invariant (fun p => RecoveryInv (p.1.sys.client c)) ?_ ?_
  · rintro ⟨S, L⟩ ⟨⟨⟨hc, -⟩, -⟩, -⟩
    have hc : S.sys.client c = {} := hc c
    rw [hc]
    exact ⟨rfl, nofun, fun _ => rfl, nofun, nofun⟩
  · rintro ⟨S, L⟩ a ⟨S', L'⟩ hr hi hs
    obtain ⟨hstep, -⟩ := Machine.withHistory_step.1 hs
    have hclose := not_close_of_asking (askingInv_of_reachable hr)
    have hclient : ∀ {d t act x}, clientStep (S.sys.client d) (t, act) = some x →
        RecoveryInv ((S.sys.setClient d x).client c) := by
      intro d t act x hx
      by_cases hd : c = d
      · subst hd
        rw [setClient_self]
        exact hi.step (hclose c) hx
      · rw [setClient_of_ne _ x hd]
        exact hi
    have hsys : ∀ {a sys}, systemStep cfg file S.sys a = some sys → RecoveryInv (sys.client c) := by
      intro a sys hs
      cases system_moves hs with
      | client _ hx => exact hclient hx
      | connect _ hx => exact hclient hx
      | deliver _ _ hx => exact hclient hx
      | handler | request => exact hi
    simp only at hi hstep ⊢
    cases clusterStep_cases hstep with
    | ask _ _ _ _ hmove | system _ _ hmove => exact hsys hmove
    | update => exact hi

/-- A LOGIN of `u` is on its way to the handler `k`. -/
def System.waits (s : System C U H) (c : C) (k : H) (u : Text) : Bool :=
  (((s.client c).conn.sent k).drop (s.arrived k)).any fun r => r.logsIn u

/-- The connection that `c` reads has the session of `u`, or comes to it. -/
def System.stands (s : System C U H) (c : C) (u : Text) : Bool :=
  (s.client c).link.any fun k => s.waits c k u || s.server.shared.serves (s.server.thread k) u

/-- **What stands behind the user `u`** at the client `c`. -/
def System.backs (s : System C U H) (c : C) (u : Text) : Bool :=
  (s.client c).resumes u || s.stands c u

/-- **The step leaves nothing behind the user `u`** at the client `c`. -/
def System.abandons (cfg : Config) (s : System C U H) (c : C) (u : Text) : SystemAct C U H → Bool
  | .client d .listener a => d = c && !s.stands c u && (s.client c).givesUp u a
  | .handler h a =>
    !(s.client c).resumes u && (s.client c).link.any fun k => !s.waits c k u &&
      if h = k then s.server.shared.forfeits cfg (s.server.thread k) u (s.server.thread k).pc a
      else s.server.shared.displaces (s.server.thread k) u (s.server.thread h).pc
  -- a LOGOUT arrives
  | .request h =>
    !(s.client c).resumes u && (s.client c).link = some h && !s.waits c h u &&
      ((s.client c).conn.sent h)[s.arrived h]?.any fun r => asksFor r.arriving actionLogout
  | _ => false

/-! ### Steps of the client -/

omit [DecidableEq C] [DecidableEq U] [DecidableEq H] in
theorem stands_iff : s.stands c u = true ↔ ∃ k, (s.client c).link = some k ∧
    (s.waits c k u = true ∨ s.server.shared.serves (s.server.thread k) u = true) := by
  simp [System.stands, Option.any_eq_true]

section

omit [DecidableEq U] [DecidableEq H]

theorem waits_mono {x : Client U H} {k : H} (hsent : (s.client c).conn.sent k <+: x.conn.sent k)
    (h : s.waits c k u = true) : (s.setClient c x).waits c k u = true := by
  obtain ⟨r, hr, hlog⟩ := List.any_eq_true.1 h
  refine List.any_eq_true.2 ⟨r, ?_, hlog⟩
  simp only [setClient_self]
  exact (hsent.drop _).subset hr

/-- What stands, stands on the same connection. -/
theorem stands_mono {x : Client U H} (hlink : x.link = (s.client c).link)
    (hsent : ∀ k, (s.client c).conn.sent k <+: x.conn.sent k) (h : s.stands c u = true) :
    (s.setClient c x).stands c u = true := by
  obtain ⟨k, hk, h⟩ := stands_iff.1 h
  refine stands_iff.2 ⟨k, ?_, h.imp_left (waits_mono (hsent k))⟩
  rw [setClient_self, hlink, hk]

theorem stands_congr {x : Client U H} (hlink : x.link = (s.client c).link)
    (hsent : x.conn.sent = (s.client c).conn.sent) : (s.setClient c x).stands c u = s.stands c u := by
  simp only [System.stands, System.waits, setClient_self, hlink, hsent]
  rfl

end

omit [DecidableEq H] in
theorem recovers_of_gone {pc : ListenerPc H} (h : pc.gone = true) : pc.recovers = true := by
  cases pc with
  | ended | died => rfl
  | _ => cases h

theorem listenerStep_relogin {conn conn' : ServerConnection H} {call : RequestCall H}
    {pc' : ListenerPc H} {act : ClientAct H} (hcall : call.pc.starting = true)
    (hs : listenerStep conn (.relogin call) act = some (conn', pc')) :
    ∃ call', requestStep conn call act = some (conn', call') ∧ pc' = .relogin call' := by
  cases listenerStep_cases hs with
  | request hreq => exact ⟨_, hreq, rfl⟩
  | returns => cases hcall
  | outside _ _ hbare => cases hbare

theorem logsIn_login (id : ℕ) (v n : Text) :
    (Request.mk id actionLogin (loginParams v n)).logsIn u = decide (joinPairs v = u) := by
  have hasks : asksFor (Request.mk id actionLogin (loginParams v n)).arriving actionLogin = true :=
    asksFor_iff.2 ⟨rfl, rfl⟩
  have huser : getField (Request.mk id actionLogin (loginParams v n)).arriving (lit "user_id") =
      .str (joinPairs v) := rfl
  simp [Request.logsIn, hasks, huser, Json.text?]

omit [DecidableEq U] in
/-- **A step of the re-LOGIN** of `u` before it is sent, where nothing else stands behind the user. -/
theorem backs_relogin {act : ClientAct H} {x : Client U H} {call : RequestCall H}
    (hi : RecoveryInv (s.client c)) (hread : ReadingInv s)
    (harrived : ∀ k, s.owner k = some c → s.arrived k ≤ ((s.client c).conn.sent k).length)
    (hs : listenerStep (s.client c).conn (s.client c).listener act = some (x.conn, x.listener))
    (hl : (s.client c).listener = .relogin call) (hre : (s.client c).listener.reenters u = true)
    (hst : s.stands c u = false) :
    (x.listener.recovers || x.listener.reenters u || (s.setClient c x).stands c u) =
      !(s.client c).givesUp u act := by
  rw [hl] at hre hs
  obtain ⟨hstart, huser⟩ : call.pc.starting = true ∧
      (getField call.params (lit "user_id")).joined.text? = some u := by
    simpa [ListenerPc.reenters] using hre
  obtain ⟨call', hreq, hl'⟩ := listenerStep_relogin hstart hs
  have hgives : (s.client c).givesUp u act = call.unsendable (s.client c).conn act := by
    simp only [Client.givesUp, hl]
  -- the call has failed, and the connection is as before
  have failed : ∀ id, x.listener = .relogin { call with pc := .failed id } →
      x.conn.reader = (s.client c).conn.reader → x.conn.sent = (s.client c).conn.sent →
      (x.listener.recovers || x.listener.reenters u || (s.setClient c x).stands c u) = false := by
    intro id hx hreader hsent
    have hlink : x.link = (s.client c).link := by
      simp only [Client.link, ListenerPc.link, hl, hx, hreader]
    rw [stands_congr hlink hsent, hst, hx]
    rfl
  rw [hgives]
  generalize hconn : x.conn = conn' at hreq
  cases reenterStep_cases hstart hreq with
  | on hstart' hsends =>
    rw [hsends, hl']
    simp [ListenerPc.reenters, hstart', huser]
  | sent id k hpc =>
    -- the re-LOGIN is on the connection that the listener reads
    have hreader := hi.sending call id k hl hpc
    obtain ⟨haction, v, n, hparams⟩ := hi.relogin call hl
    have hlogs : (Request.mk id call.action call.params).logsIn u = true := by
      rw [hparams] at huser
      rw [haction, hparams, logsIn_login]
      exact decide_eq_true (Option.some.inj huser)
    have hlen := harrived k (hread.reads c k (.inl hreader))
    have hstands : (s.setClient c x).stands c u = true := by
      refine stands_iff.2 ⟨k, ?_, .inl (List.any_eq_true.2 ⟨_, ?_, hlogs⟩)⟩
      · simp only [setClient_self, Client.link, hl', ListenerPc.link, hconn]
        exact hreader
      · simp only [setClient_self, hconn, ServerConnection.transmit, Function.update_self]
        rw [show (s.setClient c x).arrived k = s.arrived k from rfl,
          List.drop_append_of_le_length hlen]
        exact List.mem_append_right _ (List.mem_singleton_self _)
    rw [hstands]
    simp [RequestCall.unsendable, hpc]
  | unconnected id hpc hsock =>
    rw [failed id hl' (by rw [hconn]) (by rw [hconn])]
    simp [RequestCall.unsendable, hpc, hsock]
  | raises id k hpc =>
    rw [failed id hl' (by rw [hconn]) (by rw [hconn])]
    simp [RequestCall.unsendable, hpc]

omit [DecidableEq U] in
/-- **A step of the recovery**, where nothing else stands behind the user. -/
theorem backs_recovers {act : ClientAct H} {x : Client U H} (hi : RecoveryInv (s.client c))
    (hs : listenerStep (s.client c).conn (s.client c).listener act = some (x.conn, x.listener))
    (hrec : (s.client c).listener.recovers = true) (hst : s.stands c u = false) :
    (x.listener.recovers || x.listener.reenters u || (s.setClient c x).stands c u) =
      !(s.client c).givesUp u act := by
  rcases recovers_step (u := u) hrec hi.running hs with ⟨hpc, hgives⟩ |
    ⟨hconn, ⟨hl, hl', hgives⟩ | ⟨v, n, hl, hgives, hl'⟩⟩
  · rw [hpc, hgives]
    rfl
  · have hlink : x.link = (s.client c).link := by
      simp only [Client.link, ListenerPc.link, hl, hl', hconn]
    rw [hgives, hl', stands_congr hlink (by rw [hconn]), hst]
    rfl
  · have hlink : x.link = (s.client c).link := by
      simp only [Client.link, ListenerPc.link, hl, hl', hconn]
    have huser : getField (loginParams v n) (lit "user_id") = .str v := rfl
    rw [hgives, hl', stands_congr hlink (by rw [hconn]), hst]
    simp [ListenerPc.recovers, ListenerPc.gone, ListenerPc.reenters, RequestPc.starting, huser,
      Json.joined, Json.text?]

/-- **A step of the listener.** -/
theorem backs_listener {act : ClientAct H} {x : Client U H} (hi : RecoveryInv (s.client c))
    (hread : ReadingInv s) (hcalm : s.calm c (.client c .listener act))
    (harrived : ∀ k, s.owner k = some c → s.arrived k ≤ ((s.client c).conn.sent k).length)
    (hx : clientStep (s.client c) (.listener, act) = some x) (hb : s.backs c u = true) :
    (s.setClient c x).backs c u = !s.abandons cfg c u (.client c .listener act) := by
  have hs := listener_of_client hx
  have hbacks : (s.setClient c x).backs c u =
      (x.listener.recovers || x.listener.reenters u || (s.setClient c x).stands c u) := by
    simp only [System.backs, setClient_self, Client.resumes]
  rw [hbacks]
  cases hst : s.stands c u with
  | true =>
    have habandons : s.abandons cfg c u (.client c .listener act) = false := by
      simp [System.abandons, hst]
    rw [habandons]
    obtain ⟨hcrash, hfail⟩ := hcalm act rfl
    rcases listenerStep_link hs with hlink | hnone | hgone | ⟨hrec, k, hk⟩ | ⟨ha, again, hpc⟩
    · rw [stands_mono hlink (clientStep_sent hx) hst]
      simp
    · obtain ⟨k, hk, -⟩ := stands_iff.1 hst
      cases hnone.symm.trans hk
    · simp [recovers_of_gone hgone]
    · rw [hrec]
      rfl
    · exact absurd hpc (hfail ha again)
  | false =>
    have habandons : s.abandons cfg c u (.client c .listener act) = (s.client c).givesUp u act := by
      simp [System.abandons, hst]
    rw [habandons]
    have hor : (s.client c).listener.recovers = true ∨ (s.client c).listener.reenters u = true := by
      simpa [System.backs, Client.resumes, hst] using hb
    rcases hor with hrec | hre
    · exact backs_recovers hi hs hrec hst
    · cases hl : (s.client c).listener with
      | relogin call => exact backs_relogin hi hread harrived hs hl hre hst
      | _ =>
        rw [hl] at hre
        cases hre

omit [DecidableEq C] [DecidableEq U] [DecidableEq H] in
theorem backs_iff_or : s.backs c u = true ↔ (s.client c).resumes u = true ∨ s.stands c u = true := by
  simp only [System.backs, Bool.or_eq_true]

/-- A step of another thread of the client. -/
theorem backs_thread {t : Thread U} {act : ClientAct H} {x : Client U H} (ht : t ≠ .listener)
    (hx : clientStep (s.client c) (t, act) = some x) (hb : s.backs c u = true) :
    (s.setClient c x).backs c u = true := by
  obtain ⟨hl, hlink⟩ := link_of_other ht hx
  rcases backs_iff_or.1 hb with h | h
  · refine backs_iff_or.2 (.inl ?_)
    rw [setClient_self, Client.resumes, hl]
    exact h
  · exact backs_iff_or.2 (.inr (stands_mono hlink (clientStep_sent hx) h))

omit [DecidableEq C] [DecidableEq U] [DecidableEq H] in
/-- What stands behind a user does not change with the other parts of the system. -/
theorem backs_congr (hclient : s'.client c = s.client c) (hserver : s'.server = s.server)
    (harrived : s'.arrived = s.arrived) : s'.backs c u = s.backs c u := by
  simp only [System.backs, System.stands, System.waits, hclient, hserver, harrived]

/-- The client is connected anew. -/
theorem backs_connect {k : H} {x : Client U H}
    (hx : clientStep (s.client c) (.listener, .connect k) = some x) (hb : s.backs c u = true) :
    System.backs { s.setClient c x with owner := Function.update s.owner k (some c) } c u = true := by
  have hs := listener_of_client hx
  obtain ⟨again, hpc⟩ := link_of_connect hs
  have hlink : (s.client c).link = none := by
    simp only [Client.link, hpc, ListenerPc.link]
  rcases backs_iff_or.1 hb with h | h
  · cases again with
    | false =>
      rw [Client.resumes, hpc] at h
      cases h
    | true =>
      rw [hpc] at hs
      obtain ⟨-, hl⟩ := Prod.mk.inj (Option.some.inj hs)
      refine backs_iff_or.2 (.inl ?_)
      simp only [setClient_self, Client.resumes, ← hl]
      rfl
  · obtain ⟨k', hk', -⟩ := stands_iff.1 h
    cases hlink.symm.trans hk'

/-- The listener gets a message. -/
theorem backs_deliver {k : H} {m : ServerMessage} {x : Client U H} (hread : ReadingInv s)
    (hk : (s.client c).listener = .reading k)
    (hx : clientStep (s.client c) (.listener, .receive m.toJson) = some x) (hb : s.backs c u = true) :
    System.backs { s.setClient c x with taken := Function.update s.taken k (s.taken k + 1) } c u =
      true := by
  obtain ⟨fields, hfields⟩ := toJson_obj m
  have hx : x = { s.client c with listener := .handle fields } := by
    simp only [clientStep, hk, hfields, listenerStep, Option.map_some, Option.some.injEq] at hx
    exact hx.symm
  have hstands : s.stands c u = true := by
    refine (backs_iff_or.1 hb).resolve_left fun h => ?_
    rw [Client.resumes, hk] at h
    cases h
  have hlink : x.link = (s.client c).link := by
    rw [link_of_reading hread hk, hx]
    exact hread.reader c k hk
  have hstands' : (s.setClient c x).stands c u = true := by
    rw [stands_congr hlink (by rw [hx]), hstands]
  exact backs_iff_or.2 (.inr hstands')

/-! ### Steps of the server -/

section Server

variable {h : H} {act : HandlerAct} {d : DistResServer H} {l : ClientHandler H}

omit [DecidableEq C] [DecidableEq U] [DecidableEq H] in
theorem backs_of_link {k : H} (hno : (s.client c).resumes u = false) (hk : (s.client c).link = some k) :
    s.backs c u = (s.waits c k u || s.server.shared.serves (s.server.thread k) u) := by
  simp only [System.backs, System.stands, hno, hk, Option.any_some, Bool.false_or]

omit [DecidableEq U] in
/-- **A step of a handler.** -/
theorem backs_handler (ha : ∀ m, act ≠ .receive m)
    (hs : handlerStep cfg h s.server.shared (s.server.thread h) act = some (d, l))
    (hb : s.backs c u = true) :
    (s.setHandler h d l).backs c u = !s.abandons cfg c u (.handler h act) := by
  cases hres : (s.client c).resumes u with
  | true =>
    have hb' : (s.setHandler h d l).backs c u = true := backs_iff_or.2 (.inl hres)
    simp [System.abandons, hres, hb']
  | false =>
    obtain ⟨k, hk, -⟩ := stands_iff.1 ((backs_iff_or.1 hb).resolve_left (by simp [hres]))
    rw [backs_of_link hres hk] at hb
    have hb' : (s.setHandler h d l).backs c u =
        (s.waits c k u || d.serves (Function.update s.server.thread h l k) u) :=
      backs_of_link hres hk
    rw [hb']
    simp only [System.abandons, hres, hk, Option.any_some]
    cases hw : s.waits c k u with
    | true => simp
    | false =>
      rw [hw, Bool.false_or] at hb
      by_cases hkh : h = k
      · subst hkh
        simpa using serves_step hs ha hb
      · simpa [hkh, Ne.symm hkh] using serves_other hs hb

theorem recv_of_receive {x : Json} {l₀ : ClientHandler H} {d₀ : DistResServer H}
    (hs : handlerStep cfg h d₀ l₀ (.receive x) = some (d, l)) : l₀.pc = .recv ∧ d = d₀ := by
  cases hpc : l₀.pc with
  | recv =>
    simp only [handlerStep, hpc, Option.some.injEq, Prod.mk.injEq] at hs
    exact ⟨rfl, hs.1.symm⟩
  | _ => simp [handlerStep, hpc] at hs

omit [DecidableEq U] in
/-- **A handler gets a message.** -/
theorem backs_request {e : C} {r : Request} (hread : ReadingInv s) (howner : s.owner h = some e)
    (hr : ((s.client e).conn.sent h)[s.arrived h]? = some r)
    (hs : handlerStep cfg h s.server.shared (s.server.thread h) (.receive r.toJson.joined) = some (d, l))
    (hb : s.backs c u = true) :
    System.backs
        { s.setHandler h d l with arrived := Function.update s.arrived h (s.arrived h + 1) } c u =
      !s.abandons cfg c u (.request h) := by
  generalize hs' : { s.setHandler h d l with
    arrived := Function.update s.arrived h (s.arrived h + 1) } = s'
  have hclient : s'.client = s.client := by rw [← hs']; rfl
  have hserves : ∀ k, s'.server.shared.serves (s'.server.thread k) u =
      d.serves (Function.update s.server.thread h l k) u := by
    intro k
    rw [← hs']
    rfl
  have harrived : s'.arrived = Function.update s.arrived h (s.arrived h + 1) := by rw [← hs']
  clear hs'
  cases hres : (s.client c).resumes u with
  | true =>
    have hb' : s'.backs c u = true := backs_iff_or.2 (.inl (by rw [hclient, hres]))
    simp [System.abandons, hres, hb']
  | false =>
    obtain ⟨k, hk, -⟩ := stands_iff.1 ((backs_iff_or.1 hb).resolve_left (by simp [hres]))
    rw [backs_of_link hres hk] at hb
    rw [backs_of_link (s := s') (by rw [hclient, hres]) (by rw [hclient, hk]), hserves]
    simp only [System.abandons, hres, hk, Option.some.injEq]
    obtain ⟨hpc, rfl⟩ := recv_of_receive hs
    by_cases hkh : h = k
    · subst hkh
      obtain rfl : e = c := Option.some.inj (howner.symm.trans (hread.reads c h (reads_of_link hk)))
      have hdrop : ((s.client e).conn.sent h).drop (s.arrived h) =
          r :: ((s.client e).conn.sent h).drop (s.arrived h + 1) := by
        obtain ⟨hlt, hget⟩ := List.getElem?_eq_some_iff.1 hr
        rw [List.drop_eq_getElem_cons hlt, hget]
      have hwaits : s.waits e h u = (r.logsIn u || s'.waits e h u) := by
        simp only [System.waits, hclient, harrived, Function.update_self, hdrop, List.any_cons]
      rw [Function.update_self, dispatch_of_receive hs, hr]
      rw [hwaits] at hb ⊢
      cases hlog : r.logsIn u with
      | true =>
        -- the LOGIN itself has arrived
        have hserves : s.server.shared.serves ((s.server.thread h).dispatch cfg r.toJson.joined)
            u = true := by
          simp [DistResServer.serves, enters_dispatch hlog]
        simp [hserves]
      | false =>
        rw [hlog, Bool.false_or] at hb
        cases hw : s'.waits e h u with
        | true => simp
        | false =>
          rw [hw, Bool.false_or] at hb
          have hserves : s.server.shared.serves ((s.server.thread h).dispatch cfg r.toJson.joined)
              u = !asksFor r.arriving actionLogout := serves_dispatch hpc hb
          simpa using hserves
    · have hwaits : s'.waits c k u = s.waits c k u := by
        simp only [System.waits, hclient, harrived, Function.update_of_ne (Ne.symm hkh)]
      rw [hwaits, Function.update_of_ne (Ne.symm hkh)]
      simp only [Ne.symm hkh, decide_false, Bool.and_false, Bool.false_and, Bool.not_false]
      exact hb

end Server

/-- **A step of the system** leaves something behind the user, unless it abandons it. -/
theorem backs_iff (hi : RecoveryInv (s.client c)) (hread : ReadingInv s) (hcalm : s.calm c a)
    (harrived : ∀ k, s.owner k = some c → s.arrived k ≤ ((s.client c).conn.sent k).length)
    (hs : systemStep cfg file s a = some s') (hb : s.backs c u = true) :
    s'.backs c u = !s.abandons cfg c u a := by
  cases system_moves hs with
  | @client d t act x hlocal hx =>
    by_cases hcd : d = c
    · subst hcd
      by_cases ht : t = .listener
      · subst ht
        exact backs_listener hi hread hcalm harrived hx hb
      · rw [backs_thread ht hx hb]
        cases t with
        | listener => exact absurd rfl ht
        | user | beat => rfl
    · rw [backs_congr (setClient_of_ne s x (Ne.symm hcd)) rfl rfl, hb]
      cases t with
      | listener => simp [System.abandons, hcd]
      | user | beat => rfl
  | @connect d k x hk hx =>
    refine Eq.trans ?_ (rfl : true = !false)
    by_cases hcd : d = c
    · subst hcd
      exact backs_connect hx hb
    · exact (backs_congr (setClient_of_ne s x (Ne.symm hcd)) rfl rfl).trans hb
  | @deliver d k m x hk hm hx =>
    refine Eq.trans ?_ (rfl : true = !false)
    by_cases hcd : d = c
    · subst hcd
      exact backs_deliver hread hk hx hb
    · exact (backs_congr (setClient_of_ne s x (Ne.symm hcd)) rfl rfl).trans hb
  | @handler h act d ha _ hd =>
    obtain ⟨g, l, hstep, rfl⟩ := Pool.machine_step.1 hd
    exact backs_handler ha hstep hb
  | @request e h r d he hr hd =>
    obtain ⟨g, l, hstep, rfl⟩ := Pool.machine_step.1 hd
    exact backs_request hread he hr hstep hb

/-! ## What a node shows -/

/-- The request changes the user that the node shows. -/
def ApiCall.signs : ApiCall → Bool
  | .login _ _ | .logout => true
  | .read | .write _ => false

/-- The thread is in a LOGIN or LOGOUT that the browser has asked for. -/
def ApiPc.signs : ApiPc → Bool
  | .calling call | .returned call _ => call.signs
  | .idle => false

/-- A thread of the node other than `but` is in a LOGIN or LOGOUT. -/
def NodeState.SignsBut (n : NodeState U) (but : Option U) : Prop :=
  ∃ t, some t ≠ but ∧ (n.thread t).signs = true

/-- The user that the node shows once the LOGIN of `t` has taken effect. -/
def NodeState.shownBy (n : NodeState U) (t : U) : Option (Text × Text) :=
  match n.thread t with
  | .returned (.login u name) resp => if resp.status = statusOk then some (u, name) else n.node.user
  | _ => none

/-- **What stands behind the user that the node shows**, unless it is about to show another. -/
def Backed (S : Cluster C U H) (c : C) : Prop :=
  (S.node c).SignsBut none ∨ ∀ x ∈ (S.node c).node.user, S.sys.backs c x.1 = true

/-- **The step keeps what stands behind the user that `c` shows.**  When a LOGIN takes effect,
something stands behind the user that it leaves the node with; and otherwise the step abandons nobody
whom the node shows. -/
def ClusterAct.Keeps (cfg : Config) (S : Cluster C U H) (c : C) : ClusterAct C U H → Prop
  | .ask _ _ _ => True
  | .update d t => d = c → (S.node c).SignsBut (some t) ∨
      ∀ x ∈ (S.node c).shownBy t, S.sys.backs c x.1 = true
  | .system a => (S.node c).SignsBut none ∨
      ∀ x ∈ (S.node c).node.user, S.sys.abandons cfg c x.1 a = false

variable {S S' : Cluster C U H} {L : SystemHistory C U H} {ca : ClusterAct C U H}

theorem onEvent_user (n : Node) (e : Event) : (n.onEvent e).user = n.user := by
  unfold Node.onEvent
  dsimp only
  split <;> rfl

/-- What a node sees of its connection changes neither its user nor what its threads are in. -/
theorem shown_frame (hs : systemStep cfg file S.sys a = some s') :
    (S.observe a s' c).node.user = (S.node c).node.user ∧
      ∀ t, ((S.observe a s' c).thread t).signs = ((S.node c).thread t).signs := by
  cases system_moves hs with
  | @client d t act x hlocal hx =>
    rcases observe_cases (d := d) (t := t) S c (S.sys.setClient d x) hlocal with
      ⟨hsame, -⟩ | ⟨rfl, b, hseen, hnode⟩
    · rw [hsame]
      exact ⟨rfl, fun _ => rfl⟩
    · generalize S.observe (.client c t act) (S.sys.setClient c x) c = n at hnode
      cases seen_cases hseen with
      | «return» v r =>
        simp only [nodeStep] at hnode
        split at hnode <;> cases hnode
        rename_i call hcall
        refine ⟨rfl, fun t => ?_⟩
        by_cases ht : t = v
        · subst ht
          simp only [Function.update_self, hcall]
          rfl
        · simp only [Function.update_of_ne ht]
      | event m e =>
        cases hnode
        exact ⟨onEvent_user _ e, fun _ => rfl⟩
      | state =>
        cases hnode
        exact ⟨rfl, fun _ => rfl⟩
  | connect | deliver | handler | request =>
    rw [observe_other rfl]
    exact ⟨rfl, fun _ => rfl⟩

omit [DecidableEq U] in
theorem signsBut_congr {n n' : NodeState U} (h : ∀ t, (n'.thread t).signs = (n.thread t).signs)
    (but : Option U) : n'.SignsBut but ↔ n.SignsBut but := by
  simp only [NodeState.SignsBut, h]

omit [DecidableEq U] in
/-- The update of the node at the end of a LOGIN or LOGOUT, and of a READ or WRITE. -/
theorem update_user {n : NodeState U} {t : U} {call : ApiCall} {resp : Reply}
    (ht : n.thread t = .returned call resp) :
    (call.update n.node resp).user = if call.signs then n.shownBy t else n.node.user := by
  cases call with
  | login v name =>
    simp only [ApiCall.update, Node.apiLogin, ApiCall.signs, NodeState.shownBy, ht, if_true]
    split <;> rfl
  | logout => simp [ApiCall.update, Node.apiLogout, ApiCall.signs, NodeState.shownBy, ht]
  | read | write =>
    simp only [ApiCall.update, Node.apiRead, Node.apiWrite, ApiCall.signs, Bool.false_eq_true, if_false]
    split <;> rfl

/-- A thread that comes to rest is no longer counted. -/
theorem signsBut_update (n : NodeState U) (node : Node) (t : U) :
    NodeState.SignsBut ⟨node, Function.update n.thread t .idle⟩ none ↔ n.SignsBut (some t) := by
  constructor
  · rintro ⟨v, -, hv⟩
    by_cases hvt : v = t
    · subst hvt
      simp only [Function.update_self] at hv
      cases hv
    · simp only [Function.update_of_ne hvt] at hv
      exact ⟨v, fun h => hvt (Option.some.inj h), hv⟩
  · rintro ⟨v, hne, hv⟩
    refine ⟨v, by nofun, ?_⟩
    simp only [Function.update_of_ne fun h : v = t => hne (by rw [h])]
    exact hv

/-- **One step** keeps what stands behind the user that the node shows, or does not. -/
theorem backed_step (hr : (clusterMachine cfg file C U H).Reachable (S, L)) (hb : Backed S c)
    (hs : clusterStep cfg file S ca = some S') : Backed S' c ↔ ca.Keeps cfg S c := by
  have hsystem := (system_of_cluster hr).reachable
  have hback : ∀ {a sys}, systemStep cfg file S.sys a = some sys → S.sys.calm c a → ∀ u,
      S.sys.backs c u = true → sys.backs c u = !S.sys.abandons cfg c u a := fun hmove hcalm u hu =>
    backs_iff (recoveryInv_of_reachable hr c) (readingInv_of_reachable hsystem) hcalm
      (fun k hk => ((systemInv_of_reachable hsystem).got k c hk).1) hmove hu
  cases clusterStep_cases hs with
  | ask d t call hidle hmove =>
    refine iff_of_true ?_ trivial
    simp only [Backed, node_of_thread]
    rcases hb with ⟨v, hv, hsigns⟩ | hb
    · refine .inl ⟨v, hv, ?_⟩
      by_cases hcd : c = d
      · subst hcd
        have hvt : v ≠ t := by
          rintro rfl
          rw [hidle] at hsigns
          cases hsigns
        simp only [Function.update_self, Function.update_of_ne hvt]
        exact hsigns
      · simp only [Function.update_of_ne hcd]
        exact hsigns
    · exact .inr fun x hx => hback hmove (fun act heq => by cases heq) x.1 (hb x hx)
  | update d t call resp ht =>
    by_cases hcd : d = c
    · subst hcd
      simp only [ClusterAct.Keeps, Backed, Function.update_self, signsBut_update, update_user ht,
        true_implies]
      cases hsigns : call.signs with
      | true => rfl
      | false =>
        have hnone : (S.node d).shownBy t = none := by
          cases call with
          | login | logout => cases hsigns
          | read | write => simp only [NodeState.shownBy, ht]
        refine iff_of_true ?_ (.inr fun x hx => by rw [hnone] at hx; cases hx)
        refine hb.imp ?_ id
        rintro ⟨v, -, hv⟩
        refine ⟨v, ?_, hv⟩
        rintro heq
        cases heq
        rw [ht] at hv
        cases hsigns.symm.trans hv
    · have hnode : ∀ n, Function.update S.node d n c = S.node c :=
        fun n => Function.update_of_ne (Ne.symm hcd) ..
      refine iff_of_true ?_ fun heq => absurd heq hcd
      simp only [Backed, hnode]
      exact hb
  | system a hallows hmove =>
    obtain ⟨huser, hsigns⟩ := shown_frame (c := c) hmove
    simp only [ClusterAct.Keeps, Backed, signsBut_congr hsigns, huser]
    rcases hb with hb | hb
    · exact iff_of_true (.inl hb) (.inl hb)
    · refine or_congr Iff.rfl (forall₂_congr fun x hx => ?_)
      rw [hback hmove (calm_of_allows hallows) x.1 (hb x hx)]
      simp

/-- The handler waits for a message. -/
def HandlerPc.receives : HandlerPc H → Bool
  | .recv => true
  | _ => false

/-- The node `c` is connected over `k`, whose handler waits for a message, and its earlier connections
are cleaned up. -/
structure Attached (S : Cluster C U H) (c : C) (k : H) : Prop where
  reading : (S.sys.client c).listener.reading? = some k
  state : (S.sys.client c).conn.state = .connected
  serving : (S.sys.server.thread k).pc.receives = true
  earlier : ∀ h, S.sys.owner h = some c → h ≠ k → (S.sys.server.thread h).pc.hasEnded = true

/-- The handler `k` has the session of the user that the node `c` shows, in both registries. -/
def Agree (S : Cluster C U H) (c : C) (k : H) : Prop :=
  ∀ x ∈ (S.node c).node.user, (S.sys.server.thread k).userId = some x.1 ∧
    S.sys.server.shared.isActive x.1 = true ∧ S.sys.server.shared.broker.has x.1 = true

instance [Fintype H] (S : Cluster C U H) (c : C) (k : H) : Decidable (Attached S c k) :=
  decidable_of_iff ((S.sys.client c).listener.reading? = some k ∧
    (S.sys.client c).conn.state = .connected ∧ (S.sys.server.thread k).pc.receives = true ∧
    ∀ h, S.sys.owner h = some c → h ≠ k → (S.sys.server.thread h).pc.hasEnded = true)
    ⟨fun ⟨h1, h2, h3, h4⟩ => ⟨h1, h2, h3, h4⟩, fun ⟨h1, h2, h3, h4⟩ => ⟨h1, h2, h3, h4⟩⟩

instance (S : Cluster C U H) (c : C) (k : H) : Decidable (Agree S c k) :=
  inferInstanceAs (Decidable (∀ x ∈ (S.node c).node.user, _))

instance [Fintype U] (n : NodeState U) (but : Option U) : Decidable (n.SignsBut but) :=
  inferInstanceAs (Decidable (∃ t, some t ≠ but ∧ (n.thread t).signs = true))

instance [Fintype U] (S : Cluster C U H) (c : C) : ∀ a, Decidable (ClusterAct.Keeps cfg S c a)
  | .ask _ _ _ => inferInstanceAs (Decidable True)
  | .update d t => inferInstanceAs (Decidable (d = c → (S.node c).SignsBut (some t) ∨
      ∀ x ∈ (S.node c).shownBy t, S.sys.backs c x.1 = true))
  | .system a => inferInstanceAs (Decidable ((S.node c).SignsBut none ∨
      ∀ x ∈ (S.node c).node.user, S.sys.abandons cfg c x.1 a = false))

omit [DecidableEq C] [DecidableEq U] [DecidableEq H] in
/-- At rest, what stands behind the user is the session itself. -/
theorem agree_of_backed (hread : ReadingInv S.sys) {k : H} (hq : Quiescent S) (ha : Attached S c k)
    (hb : Backed S c) : Agree S c k := by
  intro x hx
  rcases hb with ⟨t, -, ht⟩ | hb
  · -- no thread is in a request
    have hidle := (hq.threads c t).1
    cases hthread : (S.node c).thread t with
    | idle =>
      rw [hthread] at ht
      cases ht
    | calling | returned =>
      rw [hthread] at hidle
      cases hidle
  · have hk := listener_of_reading ha.reading
    have hlink := link_of_reading hread hk
    have hpc : (S.sys.server.thread k).pc = .recv := by
      have hrecv := ha.serving
      cases hpc : (S.sys.server.thread k).pc with
      | recv => rfl
      | _ =>
        rw [hpc] at hrecv
        cases hrecv
    have hres : (S.sys.client c).resumes x.1 = false := by
      rw [Client.resumes, hk]
      rfl
    have hwaits : S.sys.waits c k x.1 = false := by
      have hserved := hq.requests k
      simp only [System.served, hpc, hread.reads c k (reads_of_link hlink), decide_eq_true_eq] at hserved
      rw [System.waits, hserved, List.drop_length]
      rfl
    have hserves := hb x hx
    rw [backs_of_link hres hlink, hwaits, Bool.false_or, serves_of_plain (by rw [hpc]; rfl)] at hserves
    obtain ⟨huser, -, hact, hbroker⟩ := hosts_iff.1 hserves
    exact ⟨huser, hact, hbroker⟩

/-- **A node that shows a user has a session, unless a step has abandoned the user.**  In every run
whose steps all keep what stands behind the user that the node shows, the node and the handler of its
connection agree in every quiescent state; and from a state in which something stands behind the user,
a step keeps it that way if and only if it meets the condition. -/
theorem shown_iff_kept (c : C) :
    (∀ p, (clusterMachine cfg file C U H).Reach (fun p a => a.Keeps cfg p.1 c) p →
      ∀ k, Quiescent p.1 → Attached p.1 c k → Agree p.1 c k) ∧
    ∀ p a q, (clusterMachine cfg file C U H).Reachable p → Backed p.1 c →
      (clusterMachine cfg file C U H).step p a = some q → (Backed q.1 c ↔ a.Keeps cfg p.1 c) := by
  have hone : ∀ p a q, (clusterMachine cfg file C U H).Reachable p → Backed p.1 c →
      (clusterMachine cfg file C U H).step p a = some q → (Backed q.1 c ↔ a.Keeps cfg p.1 c) :=
    fun p a q hr hb hs => backed_step hr hb (Machine.withHistory_step.1 hs).1
  refine ⟨fun p hr k hq ha => ?_, hone⟩
  refine agree_of_backed (readingInv_of_reachable (system_of_cluster hr.reachable).reachable) hq ha ?_
  refine hr.invariant (fun p => Backed p.1 c) ?_ ?_
  · rintro ⟨S, L⟩ ⟨⟨-, hnode⟩, -⟩
    have hnode : S.node c = {} := hnode c
    refine .inr fun x hx => ?_
    rw [hnode] at hx
    cases hx
  · exact fun p a q hr hb hok hs => (hone p a q hr.reachable hb hs).2 hok

end Cluster

/-! ### Runs -/

section Runs

variable {C U H : Type}

/-- The link of `c` drops, and `c` is back over `k` before the handler `h` has noticed.  The re-LOGIN is
refused, and nobody looks at the answer. -/
def earlyReturnRun (c : C) (u : U) (h k : H) : List (ClusterAct C U H) :=
  enterRun c u h (lit "ENG001") (lit "Alice") ++
    inSystem (.client c .listener .unreadable :: List.replicate 6 (.client c .listener .go) ++
      .connect c k :: List.replicate 12 (.client c .listener .go) ++ [.handler k .accept, .request k] ++
      List.replicate 3 (.handler k .go) ++ .client c .listener .timeout ::
      List.replicate 4 (.client c .listener .go)) ++ handleNext c ++
    inSystem (.handler h .hangup :: List.replicate 5 (.handler h .go))

/-- The handler `h` has noticed before `c` is back. -/
def lateReturnRun (c : C) (u : U) (h k : H) : List (ClusterAct C U H) :=
  enterRun c u h (lit "ENG001") (lit "Alice") ++ dropLink c h ++ recoverLink c k

end Runs

/-- The node shows ENG001 at rest, and the handler of its connection has no user. -/
theorem earlyReturnRun_disagrees :
    ¬ ∀ p, (clusterMachine shippedConfig [] (Fin 1) (Fin 1) (Fin 2)).Reachable p →
      ∀ c k, Quiescent p.1 → Attached p.1 c k → Agree p.1 c k := by
  intro hall
  have hs : ((clusterMachine shippedConfig [] (Fin 1) (Fin 1) (Fin 2)).run
      (clusterStart shippedConfig, {}) (earlyReturnRun 0 0 0 1)).map (fun p =>
        decide (Quiescent p.1 ∧ Attached p.1 0 1 ∧ ¬ Agree p.1 0 1)) = some true := by
    decide +kernel
  obtain ⟨p, hrun, hval⟩ := Option.map_eq_some_iff.1 hs
  obtain ⟨hq, ha, hnot⟩ := of_decide_eq_true hval
  exact hnot (hall p (Machine.Reachable.run (.init (clusterStart_init shippedConfig)) hrun) 0 1 hq ha)

/-- The node shows ENG001 at rest, after an outage, and has its session. -/
theorem lateReturnRun_agrees :
    ∃ p, (clusterMachine shippedConfig [] (Fin 1) (Fin 1) (Fin 2)).runIf
        (fun p a => a.Keeps shippedConfig p.1 0) (clusterStart shippedConfig, {})
        (lateReturnRun 0 0 0 1) = some p ∧ Quiescent p.1 ∧ Attached p.1 0 1 ∧
      (p.1.node 0).node.user.isSome = true ∧ Agree p.1 0 1 := by
  have hs : ((clusterMachine shippedConfig [] (Fin 1) (Fin 1) (Fin 2)).runIf
      (fun p a => a.Keeps shippedConfig p.1 0) (clusterStart shippedConfig, {})
      (lateReturnRun 0 0 0 1)).map (fun p => decide (Quiescent p.1 ∧ Attached p.1 0 1 ∧
        (p.1.node 0).node.user.isSome = true)) = some true := by
    decide +kernel
  obtain ⟨p, hrun, hval⟩ := Option.map_eq_some_iff.1 hs
  obtain ⟨hq, ha, huser⟩ := of_decide_eq_true hval
  have hr : (clusterMachine shippedConfig [] (Fin 1) (Fin 1) (Fin 2)).Reach
      (fun p a => a.Keeps shippedConfig p.1 0) p := .runIf (.init (clusterStart_init shippedConfig)) hrun
  exact ⟨p, hrun, hq, ha, huser, (shown_iff_kept 0).1 p hr 1 hq ha⟩

end DistRes
