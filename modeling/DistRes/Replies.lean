import DistRes.Notification
import DistRes.System

/-!
# The replies to READs

A successful READ is answered with a version, and with none that the server has not come to.

* `HandlerPc.reads` — where a handler stands with its last message, if that is a READ;
* `RepliesInv` and `repliesInv_of_reachable` — the invariant;
* `version_of_read` — what a client learns from a READ that returns OK.
-/

namespace DistRes

open Lib

section Replies

variable {H : Type} [DecidableEq H] {cfg : Config} {file : Bytes}

/-! ## Where a READ stands -/

def isRead (m : Message) : Prop :=
  getField m (lit "type") = .str typeRequest ∧ getField m (lit "action") = .str actionRead

/-- The RESPONSE carries a version that the server has come to. -/
def Response.versioned (r : Response) (version : ℕ) : Prop := ∃ v, r.version = some v ∧ v ≤ version

/-- What `read_resource` has come to. -/
def ReadPc.outcome : ReadPc → Option Outcome
  | .release o | .done o => some o
  | _ => none

/-- What holds at a point of a handler whose last message is a READ if `asked`. -/
def HandlerPc.reads (version : ℕ) (asked : Prop) : HandlerPc H → Prop
  | .read _ _ pc => ∀ r, pc.outcome = some (.ok r) → r.version ≤ version
  | .readDone _ _ r => r.version ≤ version
  | .login _ _ | .write _ _ _ _ | .writeDone _ _ _ _ => ¬ asked
  | .respond r _ => asked → r.status = statusOk → r.versioned version
  | _ => True

variable {version version' : ℕ} {asked : Prop}

section

omit [DecidableEq H]

theorem HandlerPc.reads.mono {pc : HandlerPc H} (hi : pc.reads version asked) (hle : version ≤ version') :
    pc.reads version' asked := by
  cases pc with
  | read id u pc => exact fun r hr => (hi r hr).trans hle
  | readDone id u r => exact le_trans hi hle
  | respond r next =>
    intro ha hok
    obtain ⟨v, hv, hvle⟩ := hi ha hok
    exact ⟨v, hv, hvle.trans hle⟩
  | _ => exact hi

theorem reads_of_atRest {pc : HandlerPc H} (h : pc.atRest = true) : pc.reads version asked := by
  cases pc with
  | recv | release | ended => trivial
  | _ => cases h

theorem reads_cleanup (l : ClientHandler H) : l.cleanup.pc.reads version asked :=
  reads_of_atRest (atRest_cleanup l)

theorem reads_reject (l : ClientHandler H) (id : Json) (message : Text) :
    (l.reject id message).pc.reads version asked :=
  fun _ hok => absurd (show statusError = statusOk from hok) (by decide)

theorem reads_proceed (l : ClientHandler H) (next : Next) : (l.proceed next).pc.reads version asked := by
  cases next with
  | loop | publish => trivial
  | release => exact reads_of_atRest (atRest_releaseSession l .logout)

/-- A READ goes to `_handle_read`, and nothing else does. -/
theorem reads_dispatch (l : ClientHandler H) (m : Json) :
    (l.dispatch cfg m).pc.reads version (∃ fields, m = .obj fields ∧ isRead fields) := by
  have hd := dispatch_cases cfg l m
  generalize l.dispatch cfg m = l' at hd
  have hother : ∀ {fields a}, actionOf fields = .str a → a ≠ actionRead →
      ¬ ∃ fields', Json.obj fields = .obj fields' ∧ isRead fields' := by
    rintro fields a ha hne ⟨fields', heq, hread⟩
    cases heq
    exact hne (Json.str.inj (ha.symm.trans hread.2))
  cases hd with
  | notDict | unhashable => exact reads_cleanup l
  | ignored => trivial
  | login hreq ha => exact hother ha (by decide)
  | refused | unknown => exact reads_reject l _ _
  | read => exact fun _ hr => by cases hr
  | write u hreq ha => exact hother ha (by decide)
  | logout hreq ha => exact fun hasked => absurd hasked (hother ha (by decide))
  | ping hreq ha => exact fun hasked => absurd hasked (hother ha (by decide))

theorem reads_handleLogin {h : H} {s : DistResServer H} (l : ClientHandler H) (id : Json) (pc : LoginPc)
    (hno : ¬ asked) : (handleLogin cfg h s l id pc).2.pc.reads version asked := by
  refine handleLogin_pc cfg h s id pc (reads_cleanup l) ?_ ?_
  · exact fun r hasked => absurd hasked hno
  · exact fun pc' => hno

end

theorem outcome_ofAcquire (p : Acquire) : (ReadPc.ofAcquire p).outcome = none := by
  unfold ReadPc.ofAcquire
  split <;> rfl

theorem readResource_bound {T : Type} [DecidableEq T] {t : T} {d d' : DataLayer T} {pc pc' : ReadPc}
    {a : DataAct} (hs : readResource t d pc a = some (d', pc'))
    (hi : ∀ r, pc.outcome = some (.ok r) → r.version ≤ d.version) :
    ∀ r, pc'.outcome = some (.ok r) → r.version ≤ d'.version := by
  rw [readResource_version hs]
  have hnone : pc'.outcome = none → ∀ r, pc'.outcome = some (.ok r) → r.version ≤ d.version := by
    intro h r hr
    cases h.symm.trans hr
  have hraised : ∀ e, pc'.outcome = some (.error e) →
      ∀ r, pc'.outcome = some (.ok r) → r.version ≤ d.version := by
    intro e h r hr
    cases h.symm.trans hr
  have hnow : ∀ r, pc'.outcome = some (.ok r) → r.version = d.version →
      ∀ r, pc'.outcome = some (.ok r) → r.version ≤ d.version := by
    intro r h hv r' hr
    cases h.symm.trans hr
    exact le_of_eq hv
  cases readResource_cases hs with
  | acquire p q expired l hl => exact hnone (outcome_ofAcquire q)
  | wake | calledBack | loaded => exact hnone rfl
  | callbackRaised | unreadable | loadRaised => exact hraised _ rfl
  | refused | stamped content => exact hnow _ rfl rfl
  | released o k => exact hi

/-! ## What a step does -/

variable {h : H} {s s' : DistResServer H} {l l' : ClientHandler H} {a : HandlerAct}

/-- The server goes back to no version. -/
theorem handlerStep_version (hs : handlerStep cfg h s l a = some (s', l')) :
    s.data.version ≤ s'.data.version := by
  cases handlerStep_announces hs with
  | quiet hv | replies _ hv | delivers _ _ hv => exact ge_of_eq hv
  | commits hv => exact hv ▸ Nat.le_succ _
  | returns _ hs | loses _ hs | publishes _ _ hs => rw [hs]

/-- A RESPONSE goes out from `_respond`. -/
theorem response_sent (hs : handlerStep cfg h s l a = some (s', l')) {t : H} {r : Response}
    (hm : .response r ∈ s'.sockets t) :
    .response r ∈ s.sockets t ∨ t = h ∧ ∃ next, l.pc = .respond r next := by
  cases handlerStep_serves hs with
  | quiet _ _ hsock => exact .inl (hsock t r hm)
  | got _ hs | written hs => exact .inl (hs ▸ hm)
  | answers _ _ _ hsock | writes _ _ _ _ hsock | reports _ _ hsock => exact .inl (hsock ▸ hm)
  | replies r' _ hw _ hsock =>
    rw [hsock] at hm
    by_cases ht : t = h
    · subst ht
      rw [Function.update_self] at hm
      refine (List.mem_append.1 hm).imp_right fun hm => ⟨rfl, ?_⟩
      cases List.mem_singleton.1 hm
      generalize l.pc = pc at hw
      cases pc <;> cases hw
      exact ⟨_, rfl⟩
    · rw [Function.update_of_ne ht] at hm
      exact .inl hm

/-- A step that gets no message. -/
theorem reads_step (hs : handlerStep cfg h s l a = some (s', l')) (ha : ∀ m, a ≠ .receive m)
    (hi : l.pc.reads s.data.version asked) : l'.pc.reads s'.data.version asked := by
  cases handlerStep_cases hs with
  | receive m => exact absurd rfl (ha m)
  | accept | published => trivial
  | hangup | unsent | authenticate | readRaised | writeRaised => exact reads_cleanup l
  | respond r next => exact reads_proceed l next
  | login id pc hpc =>
    rw [hpc] at hi
    exact reads_handleLogin l id pc hi
  | read id u pc a hpc hread =>
    rw [hpc] at hi
    obtain ⟨d, pc', hdata, hin, rfl⟩ := handleRead_cases hread
    have hbound := readResource_bound hdata hi
    rwa [← hin.data] at hbound
  | readReturns id u r hpc =>
    rw [hpc] at hi
    exact hi r rfl
  | readDone id u r hpc =>
    rw [hpc] at hi
    split
    · exact fun _ _ => ⟨r.version, rfl, hi⟩
    · exact reads_reject l _ _
  | write id content u pc a hpc hwrite =>
    obtain ⟨d, pc', -, -, rfl⟩ := handleWrite_cases hwrite
    rw [hpc] at hi
    exact hi
  | writeReturns id content u r hpc =>
    rw [hpc] at hi
    exact hi
  | writeDone id content u r hpc =>
    rw [hpc] at hi
    split
    · exact fun hasked => absurd hasked hi
    · exact reads_reject l _ _
  | publish => trivial
  | release pc caller => exact reads_of_atRest (atRest_releaseStep l cfg s caller pc)

/-! ## Every run -/

/-- The last message of the handler is a READ. -/
def Asked (L : ServiceHistory H) (h : H) : Prop := ∃ m, Got L h (L.got h).length m ∧ isRead m

/-- **The invariant of the replies.**  A successful RESPONSE to a READ carries a version, which the
server has come to. -/
structure RepliesInv (L : ServiceHistory H) (s : DistResServer H) (th : H → ClientHandler H) : Prop where
  reads : ∀ h, (th h).pc.reads s.data.version (Asked L h)
  replies : ∀ h r, .response r ∈ s.sockets h → ∃ n m, Got L h n m ∧ r.id = getField m (lit "id") ∧
    (isRead m → r.status = statusOk → r.versioned s.data.version)

variable {L : ServiceHistory H} {th : H → ClientHandler H}

theorem asked_receive {u : Option Text} {m : Json} :
    Asked (L.next h u (some (.got m))) h ↔ ∃ fields, m = .obj fields ∧ isRead fields := by
  have hgot : ∀ fields, Got (L.next h u (some (.got m))) h
      ((L.next h u (some (.got m))).got h).length fields ↔ m = .obj fields := by
    intro fields
    simp [Got, ServiceHistory.next]
  simp only [Asked, hgot]

omit [DecidableEq H] in
theorem asked_of_got {L' : ServiceHistory H} (hgot : L'.got h = L.got h) : Asked L' h = Asked L h := by
  simp only [Asked, Got, hgot]

theorem dispatch_of_receive {m : Json} (hs : handlerStep cfg h s l (.receive m) = some (s', l')) :
    l' = l.dispatch cfg m := by
  cases hpc : l.pc with
  | recv =>
    simp only [handlerStep, hpc] at hs
    cases hs
    rfl
  | _ => simp [handlerStep, hpc] at hs

theorem RepliesInv.step (hv : ServiceInv cfg L file s th) (hi : RepliesInv L s th)
    (hs : handlerStep cfg h s (th h) a = some (s', l')) :
    RepliesInv (L.next h (th h).userId (serviceEvent cfg (th h) a)) s' (Function.update th h l') := by
  have hle := handlerStep_version hs
  have hreply : (∀ k, L.got k <+: (L.next h (th h).userId (serviceEvent cfg (th h) a)).got k) →
      ∀ k r, .response r ∈ s'.sockets k → ∃ n m,
        Got (L.next h (th h).userId (serviceEvent cfg (th h) a)) k n m ∧ r.id = getField m (lit "id") ∧
        (isRead m → r.status = statusOk → r.versioned s'.data.version) := by
    intro hgot k r hm
    rcases response_sent hs hm with hm | ⟨rfl, next, hpc⟩
    · obtain ⟨n, m, hg, hid, hok⟩ := hi.replies k r hm
      refine ⟨n, m, hg.mono (hgot k), hid, fun h1 h2 => ?_⟩
      obtain ⟨v, hver, hvle⟩ := hok h1 h2
      exact ⟨v, hver, hvle.trans hle⟩
    · -- the RESPONSE answers the last message
      have hans := hv.serving k
      have hread := hi.reads k
      rw [hpc] at hans hread
      obtain ⟨m, hg, hid, -⟩ := hans
      refine ⟨_, m, hg.mono (hgot k), hid, fun h1 h2 => ?_⟩
      obtain ⟨v, hver, hvle⟩ := hread ⟨m, hg, h1⟩ h2
      exact ⟨v, hver, hvle.trans hle⟩
  by_cases ha : ∃ m, a = .receive m
  · obtain ⟨m, rfl⟩ := ha
    have hevent := got_of_receive hs
    rw [hevent] at hreply ⊢
    have hgot : ∀ k, k ≠ h → (L.next h (th h).userId (some (.got m))).got k = L.got k := fun k hk => by
      simp only [ServiceHistory.next, Function.update_of_ne hk]
    refine ⟨fun k => ?_, hreply fun k => ?_⟩
    · by_cases hk : k = h
      · subst hk
        rw [Function.update_self, asked_receive, dispatch_of_receive hs]
        exact reads_dispatch _ m
      · rw [Function.update_of_ne hk, asked_of_got (hgot k hk)]
        exact (hi.reads k).mono hle
    · by_cases hk : k = h
      · subst hk
        simp only [ServiceHistory.next, Function.update_self]
        exact List.prefix_append _ _
      · rw [hgot k hk]
  · have ha : ∀ m, a ≠ .receive m := fun m heq => ha ⟨m, heq⟩
    have hgot : ∀ k, (L.next h (th h).userId (serviceEvent cfg (th h) a)).got k = L.got k := got_next ha
    refine ⟨fun k => ?_, hreply fun k => by rw [hgot k]⟩
    rw [asked_of_got (hgot k)]
    by_cases hk : k = h
    · subst hk
      rw [Function.update_self]
      exact reads_step hs ha (hi.reads k)
    · rw [Function.update_of_ne hk]
      exact (hi.reads k).mono hle

variable [Fintype H]

theorem repliesInv_of_reachable {p : Pool.State H (DistResServer H) (ClientHandler H) × ServiceHistory H}
    (hr : (servingServer cfg H file).Reachable p) : RepliesInv p.2 p.1.shared p.1.thread := by
  refine hr.invariant (fun p => RepliesInv p.2 p.1.shared p.1.thread) ?_ ?_
  · rintro ⟨s, L⟩ ⟨⟨hs, hth⟩, rfl⟩
    have hs : s.shared = { data := { file := file }, sessions := cfg.maxSessions } := hs
    refine ⟨fun h => ?_, by rw [hs]; exact fun _ _ => nofun⟩
    rw [show s.thread h = {} from hth h]
    trivial
  · rintro ⟨s, L⟩ ⟨h, a⟩ ⟨s', L'⟩ hr hi hs
    obtain ⟨hserver, hh⟩ := Machine.withHistory_step.1 hs
    obtain ⟨d, l, hstep, rfl⟩ := Pool.machine_step.1 hserver
    simp only at hh hi ⊢
    subst hh
    exact hi.step (serviceInv_of_reachable hr) hstep

end Replies

/-! ## What a client learns -/

section Clients

variable {C U H : Type} [DecidableEq C] [DecidableEq U] [DecidableEq H] {cfg : Config} {file : Bytes}
  {s : System C U H} {L : SystemHistory C U H}

theorem systemStep_version {s s' : System C U H} {a : SystemAct C U H}
    (hs : systemStep cfg file s a = some s') :
    s.server.shared.data.version ≤ s'.server.shared.data.version := by
  cases system_moves hs with
  | client | connect | deliver => exact le_rfl
  | handler _ _ hserver | request _ _ hserver =>
    obtain ⟨g, l, hstep, rfl⟩ := Pool.machine_step.1 hserver
    exact handlerStep_version hstep

theorem isRead_of_plain {r : Request} (hp : plainParams r.params = true) (hr : r.action = actionRead) :
    isRead r.arriving := ⟨(getField_of_plain hp).1, action_of_plain hp (by decide) hr⟩

variable [Fintype H]

/-- **A READ that returns OK** has a RESPONSE of the server with a version that it has come to. -/
theorem version_of_read (hr : (systemMachine cfg file C U H).Reach (fun _ a => a.plain = true) (s, L))
    {c : C} {x : Returned U} (hx : x ∈ (L.clients c).returns) (hread : x.request.action = actionRead)
    {m : Message} (hm : x.reply = some m) (hok : getField m (lit "status") = .str statusOk) :
    ∃ r : Response, r.toJson = .obj m ∧ r.versioned s.server.shared.data.version := by
  obtain ⟨h, r, hc, hy, hj, hstatus, hid⟩ := server_of_ok hr hx hm hok
  obtain ⟨n, m₀, hgot, hecho, hver⟩ :=
    (repliesInv_of_reachable (server_of_system hr.reachable)).replies h r hy
  obtain ⟨-, rfl, hqp⟩ := origin_of_id hr hx hc hgot (hecho ▸ hid)
  exact ⟨r, hj, hver (isRead_of_plain hqp hread) hstatus⟩

end Clients

end DistRes
