import DistRes.Answering

/-!
# What clients see of the file

A successful READ shows the file as it was at one point between the call and its return, and a
successful WRITE is one such point, whichever of the clients call: the answers that clients get are
those of one log.

* `Seen` — a content with the version that it is the file of;
* `SeenInv` and `seenInv_of_reach` — what the handlers of the server know of the file, from a point of a
  run on;
* `calls_linearize` — what the clients learn.
-/

namespace DistRes

open Lib

/-! ## What a READ has seen -/

/-- The content is the initial text with as many of the records as the version says, `low` at least. -/
structure Seen (init : Text) (low : ℕ) (recs : List Text) (version : ℕ) (content : Text) : Prop where
  low : low ≤ version
  le : version ≤ recs.length
  content : content = universalNewlines (fileText init (recs.take version))

theorem Seen.mono {init : Text} {low version : ℕ} {recs recs' : List Text} {content : Text}
    (hs : Seen init low recs version content) (hp : recs <+: recs') :
    Seen init low recs' version content := by
  obtain ⟨zs, rfl⟩ := hp
  refine ⟨hs.low, hs.le.trans (by simp), ?_⟩
  rw [List.take_append_of_le_length hs.le]
  exact hs.content

section Handler

variable {H : Type} [DecidableEq H] {cfg : Config} {h : H} {s s' : DistResServer H}
  {l l' : ClientHandler H} {a : HandlerAct} {seen : ℕ → Text → Prop} {asked : Prop}

/-- What a handler has seen whose last message is a READ if `asked`. -/
def HandlerPc.shows (seen : ℕ → Text → Prop) (asked : Prop) : HandlerPc H → Prop
  | .read _ _ pc => asked → ∀ r, pc.outcome = some (.ok r) → r.ok = true → seen r.version r.text
  | .readDone _ _ r => asked → r.ok = true → seen r.version r.text
  | .login _ _ | .write _ _ _ _ | .writeDone _ _ _ _ => ¬ asked
  | .respond r _ => asked → r.status = statusOk →
      ∃ v c, r.version = some v ∧ r.content = some c ∧ seen v c
  | _ => True

section

omit [DecidableEq H]

theorem HandlerPc.shows.mono {seen' : ℕ → Text → Prop} {pc : HandlerPc H} (hi : pc.shows seen asked)
    (hs : ∀ v c, seen v c → seen' v c) : pc.shows seen' asked := by
  cases pc with
  | read id u pc => exact fun ha r hr hok => hs _ _ (hi ha r hr hok)
  | readDone id u r => exact fun ha hok => hs _ _ (hi ha hok)
  | respond r next =>
    intro ha hok
    obtain ⟨v, c, hv, hc, h⟩ := hi ha hok
    exact ⟨v, c, hv, hc, hs v c h⟩
  | _ => exact hi

theorem shows_of_not {pc : HandlerPc H} (h : ¬ asked) : pc.shows seen asked := by
  cases pc with
  | read | readDone | respond => exact fun ha => absurd ha h
  | login | write | writeDone => exact h
  | connecting | recv | publish | release | ended => trivial

theorem shows_of_atRest {pc : HandlerPc H} (h : pc.atRest = true) : pc.shows seen asked := by
  cases pc with
  | recv | release | ended => trivial
  | _ => cases h

theorem shows_cleanup (l : ClientHandler H) : l.cleanup.pc.shows seen asked :=
  shows_of_atRest (atRest_cleanup l)

theorem shows_reject (l : ClientHandler H) (id : Json) (message : Text) :
    (l.reject id message).pc.shows seen asked :=
  fun _ hok => absurd (show statusError = statusOk from hok) (by decide)

/-- A READ begins with nothing seen, and what goes elsewhere is no READ. -/
theorem shows_dispatch (l : ClientHandler H) (m : Json)
    (hasked : asked → ∃ fields, m = .obj fields ∧ isRead fields) :
    (l.dispatch cfg m).pc.shows seen asked := by
  have hd := dispatch_cases cfg l m
  generalize l.dispatch cfg m = l' at hd
  have hother : ∀ {fields a}, m = .obj fields → actionOf fields = .str a → a ≠ actionRead → ¬ asked := by
    intro fields a hm ha hne hask
    obtain ⟨fields', heq, hread⟩ := hasked hask
    cases hm.symm.trans heq
    exact hne (Json.str.inj (ha.symm.trans hread.2))
  cases hd with
  | notDict | unhashable => exact shows_cleanup l
  | ignored => trivial
  | login hreq ha => exact hother rfl ha (by decide)
  | refused | unknown => exact shows_reject l _ _
  | read => exact fun _ r hr => by cases hr
  | write u hreq ha => exact hother rfl ha (by decide)
  | logout hreq ha => exact shows_of_not (hother rfl ha (by decide))
  | ping hreq ha => exact shows_of_not (hother rfl ha (by decide))

end

/-- Inside `read_resource` something is seen in one step, when the version is evaluated. -/
theorem readResource_shows {T : Type} [DecidableEq T] {t : T} {d d' : DataLayer T} {pc pc' : ReadPc}
    {b : DataAct} (hs : readResource t d pc b = some (d', pc'))
    (hi : ∀ r, pc.outcome = some (.ok r) → r.ok = true → seen r.version r.text)
    (hstamp : ∀ content, pc = .stamp content → seen d.version content) :
    ∀ r, pc'.outcome = some (.ok r) → r.ok = true → seen r.version r.text := by
  have hnone : pc'.outcome = none →
      ∀ r, pc'.outcome = some (.ok r) → r.ok = true → seen r.version r.text := by
    intro h r hr
    cases h.symm.trans hr
  have hraised : ∀ e, pc'.outcome = some (.error e) →
      ∀ r, pc'.outcome = some (.ok r) → r.ok = true → seen r.version r.text := by
    intro e h r hr
    cases h.symm.trans hr
  cases readResource_cases hs with
  | acquire p q expired l hl => exact hnone (outcome_ofAcquire q)
  | wake | calledBack | loaded => exact hnone rfl
  | callbackRaised | unreadable | loadRaised => exact hraised _ rfl
  | refused =>
    rintro _ ⟨⟩ hok
    cases hok
  | stamped content =>
    rintro _ ⟨⟩ -
    exact hstamp content rfl
  | released o k => exact hi

/-- A step that gets no message. -/
theorem shows_step (hs : handlerStep cfg h s l a = some (s', l')) (ha : ∀ m, a ≠ .receive m)
    (hstamp : asked → ∀ id u content, l.pc = .read id u (.stamp content) → seen s.data.version content)
    (hi : l.pc.shows seen asked) : l'.pc.shows seen asked := by
  by_cases hask : asked
  · cases handlerStep_cases hs with
    | receive m => exact absurd rfl (ha m)
    | accept | published => trivial
    | hangup | unsent | authenticate | readRaised | writeRaised => exact shows_cleanup l
    | respond r next =>
      cases next with
      | loop | publish => trivial
      | release => exact shows_of_atRest (atRest_releaseSession l .logout)
    | login id pc hpc =>
      rw [hpc] at hi
      exact absurd hask hi
    | read id u pc b hpc hread =>
      rw [hpc] at hi
      obtain ⟨d, pc', hdata, hin, rfl⟩ := handleRead_cases hread
      exact fun _ => readResource_shows hdata (hi hask) fun content hc =>
        hstamp hask id u content (hc ▸ hpc)
    | readReturns id u r hpc =>
      rw [hpc] at hi
      exact fun _ => hi hask r rfl
    | readDone id u r hpc =>
      rw [hpc] at hi
      split
      · rename_i hok
        exact fun _ _ => ⟨r.version, r.text, rfl, rfl, hi hask hok⟩
      · exact shows_reject l _ _
    | write id content u pc b hpc => exact absurd hask (by rw [hpc] at hi; exact hi)
    | writeReturns id content u r hpc => exact absurd hask (by rw [hpc] at hi; exact hi)
    | writeDone id content u r hpc => exact absurd hask (by rw [hpc] at hi; exact hi)
    | publish => trivial
    | release pc caller => exact shows_of_atRest (atRest_releaseStep l cfg s caller pc)
  · exact shows_of_not hask

/-! ## The records -/

omit [DecidableEq H] in
theorem bump_of_committed {rec : Text} (he : serviceEvent cfg l a = some (.write (.committed rec))) :
    ∃ id content v rec, l.pc = .write id content v (.bump rec) := by
  unfold serviceEvent at he
  split at he
  · cases he
  · rename_i id content u pc b hpc
    obtain ⟨e, he, heq⟩ := Option.map_eq_some_iff.1 he
    cases heq
    unfold WritePc.event at he
    split at he
    · split at he <;> cases he
    · cases he
    · exact ⟨id, content, u, _, hpc⟩
    · cases he
  · cases he

/-- A step of a handler, seen from the file and the records of the commits. -/
theorem handlerStep_logs (L : ServiceHistory H) (u : Option Text)
    (hs : handlerStep cfg h s l a = some (s', l')) (hok : storageFails l.pc a = false) :
    (s'.data = s.data ∧ l'.pc.dataCall cfg = l.pc.dataCall cfg ∧
      (L.next h u (serviceEvent cfg l a)).commits = L.commits) ∨
    ∃ b, callStep h s.data (l.pc.dataCall cfg) b = some (s'.data, l'.pc.dataCall cfg) ∧
      fileFails (l.pc.dataCall cfg) b = false ∧
      nextRecs (L.commits.map Commit.text) (visible b (l.pc.dataCall cfg)) =
        (L.next h u (serviceEvent cfg l a)).commits.map Commit.text := by
  by_cases hbump : ∃ id content v rec, l.pc = .write id content v (.bump rec)
  · obtain ⟨id, content, v, rec, hpc⟩ := hbump
    obtain ⟨b, rfl, hwrite⟩ := writeStep_of_pc hpc nofun hs
    obtain ⟨d, pc', hdata, hin, rfl⟩ := handleWrite_cases hwrite
    refine .inr ⟨.step b, ?_, ?_, ?_⟩
    · rw [hpc, hin.data]
      exact Option.map_eq_some_iff.2 ⟨_, hdata, rfl⟩
    · rw [hpc] at hok ⊢
      cases b <;> first | rfl | cases hok
    · have hgo : b = .go := by
        rw [hpc] at hok
        cases writeResource_cases hdata with
        | bumped => rfl
        | closeRaised => cases hok
      subst hgo
      simp only [serviceEvent, hpc]
      show _ = (L.commits ++ [(⟨h, (L.got h).length, u, rec⟩ : Commit H)]).map Commit.text
      rw [List.map_append]
      rfl
  · have hcommits : (L.next h u (serviceEvent cfg l a)).commits = L.commits := by
      cases he : serviceEvent cfg l a with
      | none => rfl
      | some ev =>
        rcases ev with m | rec | piece | rec
        · rfl
        · rfl
        · rfl
        · exact absurd (bump_of_committed he) hbump
    rcases dataStep_works hs hok with ⟨hd, hcall⟩ | ⟨b, hb, hworks⟩
    · exact .inl ⟨hd, hcall, hcommits⟩
    · refine .inr ⟨b, hb, hworks, ?_⟩
      rw [hcommits]
      unfold visible
      split
      · rfl
      · rename_i rec hcall
        obtain ⟨id, content, hpc, -⟩ := pc_of_dataCall_write hcall
        exact absurd ⟨id, content, _, rec, hpc⟩ hbump
      · rfl
      · rfl
      · rfl

/-! ## The history -/

theorem commits_next (L : ServiceHistory H) (h : H) (u : Option Text) (e : Option ServiceEvent) :
    L.commits <+: (L.next h u e).commits := by
  rcases e with _ | m | rec | piece | rec
  · exact List.prefix_rfl
  · exact List.prefix_rfl
  · exact List.prefix_rfl
  · exact List.prefix_rfl
  · exact List.prefix_append _ _

theorem prefix_got_next (L : ServiceHistory H) (h : H) (u : Option Text) (e : Option ServiceEvent) (k : H) :
    L.got k <+: (L.next h u e).got k := by
  rcases e with _ | m | rec | piece | rec
  · exact List.prefix_rfl
  · by_cases hk : k = h
    · subst hk
      simp only [ServiceHistory.next, Function.update_self]
      exact List.prefix_append _ _
    · simp only [ServiceHistory.next, Function.update_of_ne hk]
      exact List.prefix_rfl
  · exact List.prefix_rfl
  · exact List.prefix_rfl
  · exact List.prefix_rfl

end Handler

section Server

variable {H : Type} [DecidableEq H] [Fintype H] {cfg : Config} {init : Text}
  {p p₀ : Pool.State H (DistResServer H) (ClientHandler H) × ServiceHistory H}

/-- No file operation of the step raises. -/
def Stores (p : Pool.State H (DistResServer H) (ClientHandler H) × ServiceHistory H) (a : H × HandlerAct) :
    Prop := storageFails (p.1.thread a.1).pc a.2 = false

/-- While no file operation raises, the file is the initial text and the records of the commits. -/
theorem logged_of_reach (henc : encodable init = true)
    (hr : (servingServer cfg H (utf8 init)).Reach Stores p) :
    FileInv init p.1.shared.data (fun h => (p.1.thread h).pc.dataCall cfg)
      (p.2.commits.map Commit.text) := by
  refine hr.invariant (fun p => FileInv init p.1.shared.data
    (fun h => (p.1.thread h).pc.dataCall cfg) (p.2.commits.map Commit.text)) ?_ ?_
  · rintro ⟨s, L⟩ ⟨⟨hs, hth⟩, rfl⟩
    have hs : s.shared = { data := { file := utf8 init }, sessions := cfg.maxSessions } := hs
    have hidle : ∀ h, (s.thread h).pc.dataCall cfg = .idle := fun h => by
      rw [show s.thread h = {} from hth h]
      rfl
    simp only [hs]
    refine ⟨rfl, by simpa [fileText] using henc, fun _ => by simp [fileText], ?_, ?_, ?_⟩
    · intro t u x rec rest ht
      rw [hidle] at ht
      cases ht
    · intro t u x rec ht
      rw [hidle] at ht
      cases ht
    · intro t content ht
      rw [hidle] at ht
      cases ht
  · rintro ⟨s, L⟩ ⟨h, a⟩ ⟨s', L'⟩ hr hi hok hs
    obtain ⟨hserver, hh⟩ := Machine.withHistory_step.1 hs
    obtain ⟨d, l, hstep, rfl⟩ := Pool.machine_step.1 hserver
    simp only at hh hi hok ⊢
    subst hh
    have hlock := lockInv_of_reachable (server_uses_data (Machine.Reach.erase hr.reachable))
    have hupd : (fun k => (Function.update s.thread h l k).pc.dataCall cfg) =
        Function.update (fun k => (s.thread k).pc.dataCall cfg) h (l.pc.dataCall cfg) :=
      Function.comp_update (fun l : ClientHandler H => l.pc.dataCall cfg) s.thread h l
    rw [hupd]
    rcases handlerStep_logs L (s.thread h).userId hstep hok with ⟨hd, hcall, hcommits⟩ | ⟨b, hb, hworks, hrecs⟩
    · rw [hd, hcall, hcommits, Function.update_eq_self]
      exact hi
    · rw [← hrecs]
      exact hi.step hlock hworks hb

/-! ## What the handlers have seen -/

/-- The last message of the handler is a READ, and not one of the first `n`. -/
def AskedSince (n : ℕ) (L : ServiceHistory H) (h : H) : Prop := n < (L.got h).length ∧ Asked L h

/-- **What the server has told of the file** in the answers to READs behind the first `before h` messages
of each handler. -/
structure SeenInv (init : Text) (low : ℕ) (before : H → ℕ) (L : ServiceHistory H) (s : DistResServer H)
    (th : H → ClientHandler H) : Prop where
  reached : low ≤ s.data.version
  shows : ∀ h, (th h).pc.shows (Seen init low (L.commits.map Commit.text)) (AskedSince (before h) L h)
  replies : ∀ h r, .response r ∈ s.sockets h → ∃ n m, Got L h n m ∧ r.id = getField m (lit "id") ∧
    (before h < n → isRead m → r.status = statusOk → ∃ v c, r.version = some v ∧ r.content = some c ∧
      Seen init low (L.commits.map Commit.text) v c)

/-- Nothing has been told yet of what comes behind the messages so far. -/
theorem seenInv_init (hr : (servingServer cfg H (utf8 init)).Reachable p) :
    SeenInv init p.1.shared.data.version (fun h => (p.2.got h).length) p.2 p.1.shared p.1.thread := by
  refine ⟨le_rfl, fun h => shows_of_not fun hask => absurd hask.1 (lt_irrefl _), fun h r hm => ?_⟩
  obtain ⟨n, m, hg, hid, -⟩ := (serviceInv_of_reachable hr).replies h r hm
  exact ⟨n, m, hg, hid, fun hlt => absurd hg.le (Nat.not_le.2 hlt)⟩

omit [Fintype H] in
theorem SeenInv.step {low : ℕ} {before : H → ℕ} {L : ServiceHistory H} {s s' : DistResServer H}
    {th : H → ClientHandler H} {h : H} {a : HandlerAct} {l' : ClientHandler H}
    (hi : SeenInv init low before L s th) (hv : ServiceInv cfg L (utf8 init) s th)
    (hf : FileInv init s.data (fun h => (th h).pc.dataCall cfg) (L.commits.map Commit.text))
    (hs : handlerStep cfg h s (th h) a = some (s', l')) :
    SeenInv init low before (L.next h (th h).userId (serviceEvent cfg (th h) a)) s'
      (Function.update th h l') := by
  have hcommits : L.commits.map Commit.text <+:
      (L.next h (th h).userId (serviceEvent cfg (th h) a)).commits.map Commit.text :=
    (commits_next L h _ _).map _
  have hgot : ∀ k, L.got k <+: (L.next h (th h).userId (serviceEvent cfg (th h) a)).got k :=
    prefix_got_next L h _ _
  -- the file that a reader has read is the one with the records so far
  have hstamp : ∀ id u content, (th h).pc = .read id u (.stamp content) →
      Seen init low ((L.next h (th h).userId (serviceEvent cfg (th h) a)).commits.map Commit.text)
        s.data.version content := by
    intro id u content hpc
    have hcontent := hf.stamping h content (by rw [hpc]; rfl)
    have hseen : Seen init low (L.commits.map Commit.text) s.data.version content :=
      ⟨hi.reached, hf.version.le, by rw [hf.version, List.take_length]; exact hcontent⟩
    exact hseen.mono hcommits
  refine ⟨hi.reached.trans (handlerStep_version hs), fun k => ?_, fun k r hm => ?_⟩
  · have hkeep := (hi.shows k).mono fun v c hs => hs.mono hcommits
    by_cases ha : ∃ m, a = .receive m
    · obtain ⟨m, rfl⟩ := ha
      by_cases hk : k = h
      · subst hk
        rw [Function.update_self, dispatch_of_receive hs, got_of_receive hs]
        exact shows_dispatch _ m fun hask => asked_receive.1 hask.2
      · have hsame : (L.next h (th h).userId (serviceEvent cfg (th h) (.receive m))).got k = L.got k := by
          rw [got_of_receive hs]
          simp only [ServiceHistory.next, Function.update_of_ne hk]
        rw [Function.update_of_ne hk, AskedSince, asked_of_got hsame, hsame]
        exact hkeep
    · have ha : ∀ m, a ≠ .receive m := fun m heq => ha ⟨m, heq⟩
      have hsame : (L.next h (th h).userId (serviceEvent cfg (th h) a)).got k = L.got k := got_next ha k
      rw [AskedSince, asked_of_got hsame, hsame]
      by_cases hk : k = h
      · subst hk
        rw [Function.update_self]
        exact shows_step hs ha (fun _ => hstamp) hkeep
      · rw [Function.update_of_ne hk]
        exact hkeep
  · rcases response_sent hs hm with hm | ⟨rfl, next, hpc⟩
    · obtain ⟨n, m, hg, hid, hok⟩ := hi.replies k r hm
      refine ⟨n, m, hg.mono (hgot k), hid, fun h1 h2 h3 => ?_⟩
      obtain ⟨v, c, hver, hc, hseen⟩ := hok h1 h2 h3
      exact ⟨v, c, hver, hc, hseen.mono hcommits⟩
    · -- the RESPONSE answers the last message
      have hans := hv.serving k
      have hshow := hi.shows k
      rw [hpc] at hans hshow
      obtain ⟨m, hg, hid, -⟩ := hans
      refine ⟨_, m, hg.mono (hgot k), hid, fun h1 h2 h3 => ?_⟩
      obtain ⟨v, c, hver, hc, hseen⟩ := hshow ⟨h1, m, hg, h2⟩ h3
      exact ⟨v, c, hver, hc, hseen.mono hcommits⟩

/-- What holds from a point of a run on. -/
theorem seenInv_of_reach (henc : encodable init = true)
    (hr₀ : (servingServer cfg H (utf8 init)).Reach Stores p₀)
    (hr : ((servingServer cfg H (utf8 init)).startingAt p₀).Reach Stores p) :
    SeenInv init p₀.1.shared.data.version (fun h => (p₀.2.got h).length) p.2 p.1.shared p.1.thread := by
  refine hr.invariant (fun p => SeenInv init p₀.1.shared.data.version (fun h => (p₀.2.got h).length)
    p.2 p.1.shared p.1.thread) ?_ ?_
  · intro p hp
    have hp : p = p₀ := hp
    subst hp
    exact seenInv_init hr₀.reachable
  · rintro ⟨s, L⟩ ⟨h, a⟩ ⟨s', L'⟩ hr hi - hs
    have hr := hr₀.trans hr
    have hs : (servingServer cfg H (utf8 init)).step (s, L) (h, a) = some (s', L') := hs
    obtain ⟨hserver, hh⟩ := Machine.withHistory_step.1 hs
    obtain ⟨d, l, hstep, rfl⟩ := Pool.machine_step.1 hserver
    simp only at hh hi ⊢
    subst hh
    exact hi.step (serviceInv_of_reachable hr.reachable) (logged_of_reach henc hr) hstep

end Server

/-! ## What the clients learn -/

section Clients

variable {C U H : Type} [DecidableEq C] [DecidableEq U] [DecidableEq H] {cfg : Config} {file : Bytes}

/-- No file operation of the step raises. -/
def System.stores (s : System C U H) : SystemAct C U H → Bool
  | .handler h a => !storageFails (s.server.thread h).pc a
  | _ => true

/-- The calls are plain, and the storage works. -/
def Working (p : System C U H × SystemHistory C U H) (a : SystemAct C U H) : Prop :=
  a.plain = true ∧ p.1.stores a = true

/-- A step of the system is one of its server, or none of it. -/
theorem server_step {p p' : System C U H × SystemHistory C U H} {a : SystemAct C U H}
    (hs : (systemMachine cfg file C U H).step p a = some p') (ha : p.1.stores a = true) :
    (p'.1.server, p'.2.service) = (p.1.server, p.2.service) ∨
      ∃ x, Stores (p.1.server, p.2.service) x ∧
        (servingServer cfg H file).step (p.1.server, p.2.service) x = some (p'.1.server, p'.2.service) := by
  obtain ⟨s, L⟩ := p
  obtain ⟨s', L'⟩ := p'
  obtain ⟨hstep, hh⟩ := Machine.withHistory_step.1 hs
  simp only at hh hstep ha ⊢
  subst hh
  rcases systemStep_cases hstep with ⟨d, act, x, hact, hclient, rfl⟩ | ⟨h, act, d, hnone, hact, hserver, rfl⟩
  · rw [clients_next hact]
    exact .inl (by simp)
  · rw [service_next hnone hact]
    refine .inr ⟨(h, act), ?_, Machine.withHistory_step.2 ⟨hserver, rfl⟩⟩
    unfold System.serverAct at hact
    split at hact
    · cases hact
    · split at hact <;> cases hact
      simpa [Stores, System.stores] using ha
    · cases hact
      simpa [Stores, System.stores] using ha
    · obtain ⟨c, -, hact⟩ := Option.bind_eq_some_iff.1 hact
      obtain ⟨r, -, heq⟩ := Option.map_eq_some_iff.1 hact
      cases heq
      show storageFails _ (.receive _) = false
      unfold storageFails
      split <;> first | rfl | contradiction
    · cases hact

theorem server_of_start {ok : System C U H × SystemHistory C U H → SystemAct C U H → Prop}
    (hok : ∀ p a, ok p a → p.1.stores a = true) {p₀ p : System C U H × SystemHistory C U H}
    (hr : ((systemMachine cfg file C U H).startingAt p₀).Reach ok p) :
    ((servingServer cfg H file).startingAt (p₀.1.server, p₀.2.service)).Reach Stores
      (p.1.server, p.2.service) := by
  refine Machine.Reach.map (fun p : System C U H × SystemHistory C U H => (p.1.server, p.2.service)) ?_ ?_ hr
  · intro p hp
    have hp : p = p₀ := hp
    subst hp
    rfl
  · exact fun p a p' _ ha hs => server_step hs (hok p a ha)

theorem server_of_stores {p : System C U H × SystemHistory C U H}
    (hr : (systemMachine cfg file C U H).Reach Working p) :
    (servingServer cfg H file).Reach Stores (p.1.server, p.2.service) := by
  refine Machine.Reach.map (fun p : System C U H × SystemHistory C U H => (p.1.server, p.2.service)) ?_ ?_ hr
  · rintro ⟨s, L⟩ ⟨⟨-, hserver, -⟩, rfl⟩
    exact ⟨hserver, rfl⟩
  · exact fun p a p' _ ha hs => server_step hs ha.2

/-- What is kept from a point of a run on. -/
structure KeptSince (s₀ : System C U H) (L₀ : SystemHistory C U H) (s : System C U H) (L : SystemHistory C U H) :
    Prop where
  owner : ∀ h c, s₀.owner h = some c → s.owner h = some c
  sent : ∀ c k, (s₀.client c).conn.sent k <+: (s.client c).conn.sent k
  commits : L₀.service.commits <+: L.service.commits

theorem sent_setClient {s : System C U H} {c : C} {x : Client U H} {t : Thread U} {act : ClientAct H}
    (hs : clientStep (s.client c) (t, act) = some x) (d : C) (k : H) :
    (s.client d).conn.sent k <+: ((s.setClient c x).client d).conn.sent k := by
  by_cases hd : d = c
  · subst hd
    rw [setClient_self]
    exact clientStep_sent hs k
  · rw [setClient_of_ne s x hd]

theorem KeptSince.step {s₀ s s' : System C U H} {L₀ L L' : SystemHistory C U H} (hi : KeptSince s₀ L₀ s L)
    (he : SystemEffect cfg file s L s' L') : KeptSince s₀ L₀ s' L' := by
  cases he with
  | client hlocal hclient | deliver hk hm hclient =>
    exact ⟨hi.owner, fun d k => (hi.sent d k).trans (sent_setClient hclient d k), hi.commits⟩
  | @connect c k x hk hclient =>
    refine ⟨fun h d hd => ?_, fun d k => (hi.sent d k).trans (sent_setClient hclient d k), hi.commits⟩
    have hne : h ≠ k := by
      rintro rfl
      rw [hi.owner h d hd] at hk
      cases hk
    simp only [Function.update_of_ne hne]
    exact hi.owner h d hd
  | handler | request => exact ⟨hi.owner, hi.sent, hi.commits.trans (commits_next ..)⟩

theorem since_of_reach {ok : System C U H × SystemHistory C U H → SystemAct C U H → Prop}
    {p₀ p : System C U H × SystemHistory C U H}
    (hr : ((systemMachine cfg file C U H).startingAt p₀).Reach ok p) : KeptSince p₀.1 p₀.2 p.1 p.2 := by
  refine hr.invariant (fun p => KeptSince p₀.1 p₀.2 p.1 p.2) ?_ ?_
  · intro p hp
    have hp : p = p₀ := hp
    subst hp
    exact ⟨fun _ _ h => h, fun _ _ => List.prefix_rfl, List.prefix_rfl⟩
  · rintro ⟨s, L⟩ a ⟨s', L'⟩ - hi - hs
    have hs : (systemMachine cfg file C U H).step (s, L) a = some (s', L') := hs
    obtain ⟨hstep, hh⟩ := Machine.withHistory_step.1 hs
    simp only at hh hstep hi
    subst hh
    exact hi.step (system_effect hstep)

/-- The `n`-th message of a handler is not among those that it had got at an earlier point if its request
was issued since. -/
theorem got_since {p₀ p : System C U H × SystemHistory C U H}
    (hr₀ : (systemMachine cfg file C U H).Reachable p₀) (hs : KeptSince p₀.1 p₀.2 p.1 p.2) {c : C} {r : Request}
    (hnew : r ∉ (p₀.2.clients c).issued) (hclient : (clientMachine U H).Reachable (p₀.1.client c, p₀.2.clients c))
    {h : H} {n : ℕ} (ho : p.1.origin h n = some (c, r)) : (p₀.2.service.got h).length < n := by
  obtain ⟨hn, howner, hsent⟩ := origin_eq_some.1 ho
  by_contra hle
  have hi := systemInv_of_reachable hr₀
  cases hc : p₀.1.owner h with
  | none =>
    rw [(hi.unowned h hc).2] at hle
    exact hle hn
  | some d =>
    obtain rfl : d = c := Option.some.inj ((hs.owner h d hc).symm.trans howner)
    obtain ⟨hle', hgot⟩ := hi.got h d hc
    have hlen : n - 1 < ((p₀.1.client d).conn.sent h).length := by
      rw [hgot, List.length_map, List.length_take] at hle
      omega
    have hold := List.getElem?_eq_getElem hlen
    have hsame := getElem?_of_prefix (hs.sent d h) hold
    rw [hsame] at hsent
    exact hnew ((sentInv_of_reachable hclient).sent h r
      (List.mem_of_getElem? (hold.trans hsent)))

theorem content_of_response {r : Response} {m : Message} (hr : r.toJson = .obj m) {c : Text}
    (hc : r.content = some c) : getField m (lit "content") = .str c := by
  obtain ⟨id, status, message, version, content⟩ := r
  cases hr
  cases hc
  cases message <;> cases version <;> rfl

variable [Fintype H] {init : Text} {p₀ p : System C U H × SystemHistory C U H}

/-- A READ that is called from the point `p₀` on and returns OK has seen the file since. -/
theorem read_shows (henc : encodable init = true)
    (hr₀ : (systemMachine cfg (utf8 init) C U H).Reach Working p₀)
    (hr : ((systemMachine cfg (utf8 init) C U H).startingAt p₀).Reach Working p) {c : C} {x : Returned U}
    (hx : x ∈ (p.2.clients c).returns) (hnew : x.request ∉ (p₀.2.clients c).issued) {m : Message}
    (hm : x.reply = some m) (hok : getField m (lit "status") = .str statusOk)
    (hread : x.request.action = actionRead) :
    ∃ (v : ℕ) (content : Text), getField m (lit "version") = .int v ∧
      getField m (lit "content") = .str content ∧
      Seen init p₀.1.server.shared.data.version (p.2.service.commits.map Commit.text) v content := by
  have hplain₀ := hr₀.mono fun _ _ (h : Working _ _) => h.1
  have hplain := (hr₀.trans hr).mono fun _ _ (h : Working _ _) => h.1
  obtain ⟨h, r, hc, hy, hj, hstatus, hid⟩ := server_of_ok hplain hx hm hok
  have hseen := seenInv_of_reach henc (server_of_stores hr₀) (server_of_start (fun _ _ h => h.2) hr)
  obtain ⟨n, m₀, hgot, hecho, hver⟩ := hseen.replies h r hy
  obtain ⟨ho, rfl, hqp⟩ := origin_of_id hplain hx hc hgot (hecho ▸ hid)
  have hlate := got_since hr₀.reachable (since_of_reach hr) hnew (client_of_system hplain₀ c).reachable ho
  obtain ⟨v, content, hv, hcontent, hs⟩ := hver hlate (isRead_of_plain hqp hread) hstatus
  exact ⟨v, content, (fields_of_response hj).2.2 v hv, content_of_response hj hcontent, hs⟩

/-- The commit for a request that is issued from the point `p₀` on is none of those so far. -/
theorem commit_since
    (hr₀ : (systemMachine cfg (utf8 init) C U H).Reach (fun _ a => a.plain = true) p₀)
    (hsince : KeptSince p₀.1 p₀.2 p.1 p.2) {c : C} {r : Request} (hnew : r ∉ (p₀.2.clients c).issued) {i : ℕ}
    {e : Commit H} (he : p.2.service.commits[i]? = some e)
    (ho : p.1.origin e.handler e.number = some (c, r)) : p₀.2.service.commits.length ≤ i := by
  by_contra hlt
  have hold := List.getElem?_eq_getElem (Nat.lt_of_not_le hlt)
  have hsame := getElem?_of_prefix hsince.commits hold
  rw [he] at hsame
  have hmem : e ∈ p₀.2.service.commits := by
    rw [Option.some.inj hsame]
    exact List.getElem_mem _
  obtain ⟨m', -, -, hgot, -⟩ :=
    (serviceInv_of_reachable (server_of_system hr₀.reachable)).committed e hmem
  exact absurd hgot.le
    (Nat.not_le.2 (got_since hr₀.reachable hsince hnew (client_of_system hr₀ c).reachable ho))

/-- **The calls of all clients are linearizable.**  Take any two points of a run in which the storage
works.  A READ that is called between them and has returned OK by the second one tells a version, no
lower than that of the first point and no higher than that of the second, and its content is the initial
text with as many of the records, as text mode reads it; a WRITE tells a version higher than that of the first point, and the
record with this number is its own. -/
theorem calls_linearize (henc : encodable init = true)
    (hr₀ : (systemMachine cfg (utf8 init) C U H).Reach Working p₀)
    (hr : ((systemMachine cfg (utf8 init) C U H).startingAt p₀).Reach Working p) {c : C} {x : Returned U}
    (hx : x ∈ (p.2.clients c).returns) (hnew : x.request ∉ (p₀.2.clients c).issued) {m : Message}
    (hm : x.reply = some m) (hok : getField m (lit "status") = .str statusOk) :
    (x.request.action = actionRead → ∃ v : ℕ, getField m (lit "version") = .int v ∧
      p₀.1.server.shared.data.version ≤ v ∧ v ≤ p.1.server.shared.data.version ∧
      getField m (lit "content") = .str (universalNewlines (fileText init
        ((p.2.service.commits.take v).map Commit.text)))) ∧
    (x.request.action = actionWrite → ∃ v : ℕ, getField m (lit "version") = .int v ∧
      p₀.1.server.shared.data.version < v ∧ v ≤ p.1.server.shared.data.version ∧
      ∃ e, p.2.service.commits[v - 1]? = some e ∧
        p.1.origin e.handler e.number = some (c, x.request)) := by
  have hplain₀ := hr₀.mono fun _ _ (h : Working _ _) => h.1
  have hplain := (hr₀.trans hr).mono fun _ _ (h : Working _ _) => h.1
  have hlength : p.1.server.shared.data.version = p.2.service.commits.length :=
    (serviceInv_of_reachable (server_of_system hplain.reachable)).version
  have hlength₀ : p₀.1.server.shared.data.version = p₀.2.service.commits.length :=
    (serviceInv_of_reachable (server_of_system hplain₀.reachable)).version
  refine ⟨fun hread => ?_, fun hwrite => ?_⟩
  · obtain ⟨v, content, hv, hcontent, hs⟩ := read_shows henc hr₀ hr hx hnew hm hok hread
    refine ⟨v, hv, hs.low, ?_, ?_⟩
    · rw [hlength, ← List.length_map (f := Commit.text)]
      exact hs.le
    · rw [hcontent, hs.content, List.map_take]
  · obtain ⟨v, hversion, hv, e, he, ho⟩ := commit_of_ok hplain hx hwrite hm hok
    have hlate := commit_since hplain₀ (since_of_reach hr) hnew he ho
    have hlt : v - 1 < p.2.service.commits.length := (List.getElem?_eq_some_iff.1 he).1
    exact ⟨v, hversion, by omega, by omega, e, he, ho⟩

end Clients

/-! ### A run -/

instance {C U H : Type} (p : System C U H × SystemHistory C U H) (a : SystemAct C U H) :
    Decidable (Working p a) := inferInstanceAs (Decidable (_ ∧ _))

/-- The client connects, logs in, and reads. -/
def answeredRead {C U H : Type} (c : C) (u : U) (h : H) : List (SystemAct C U H) :=
  [.client c .listener .go, .connect c h] ++ List.replicate 6 (.client c .listener .go) ++
    [.handler h .accept] ++
    roundTrip c u (.login (lit "ENG002") (lit "Bob")) 6
      (.request h :: List.replicate 8 (.handler h .go)) ++
    roundTrip c u .read 5
      ([.request h, .handler h (.data (.lock false))] ++ List.replicate 3 (.handler h (.data .go)) ++
        [.handler h (.data (.release 0)), .handler h .go, .handler h .go, .handler h .go])

/-- One client writes, and then another one reads. -/
theorem answeredRead_sees_write :
    ∃ p₀ p, (systemMachine shippedConfig (utf8 []) (Fin 2) (Fin 1) (Fin 2)).runIf Working
        (systemStart shippedConfig, {}) (acknowledgedRun 0 0 0) = some p₀ ∧
      ((systemMachine shippedConfig (utf8 []) (Fin 2) (Fin 1) (Fin 2)).startingAt p₀).runIf Working p₀
        (answeredRead 1 0 1) = some p ∧
      ∃ x ∈ (p.2.clients 1).returns, ∃ m, x.reply = some m ∧ ∃ v : ℕ, 1 ≤ v ∧
        getField m (lit "version") = .int v ∧ getField m (lit "content") =
          .str (universalNewlines (fileText [] ((p.2.service.commits.take v).map Commit.text))) := by
  have hs : ((systemMachine shippedConfig (utf8 []) (Fin 2) (Fin 1) (Fin 2)).runIf Working
      (systemStart shippedConfig, {}) (acknowledgedRun 0 0 0)).bind (fun p₀ =>
        (((systemMachine shippedConfig (utf8 []) (Fin 2) (Fin 1) (Fin 2)).startingAt p₀).runIf Working p₀
          (answeredRead 1 0 1)).map fun p => ((p₀.2.clients 1).issued.length,
            p₀.1.server.shared.data.version, ((p.2.clients 1).returns[1]?).map Returned.summary)) =
      some (0, 1, some ⟨actionRead, [], some statusOk, some 1⟩) := by
    decide +kernel
  obtain ⟨p₀, hrun₀, hs⟩ := Option.bind_eq_some_iff.1 hs
  obtain ⟨p, hrun, hval⟩ := Option.map_eq_some_iff.1 hs
  simp only [Prod.mk.injEq] at hval
  obtain ⟨hnone, hversion, hx⟩ := hval
  obtain ⟨x, hx, hsummary⟩ := Option.map_eq_some_iff.1 hx
  obtain ⟨haction, -, hstatus, -⟩ := CallSummary.mk.inj hsummary
  obtain ⟨m, hm, hstatus⟩ := Option.bind_eq_some_iff.1 hstatus
  have hr₀ : (systemMachine shippedConfig (utf8 []) (Fin 2) (Fin 1) (Fin 2)).Reach Working p₀ :=
    Machine.Reach.runIf (.init systemStart_init) hrun₀
  have hnew : x.request ∉ (p₀.2.clients 1).issued := by
    rw [List.eq_nil_of_length_eq_zero hnone]
    exact List.not_mem_nil
  have hmem : x ∈ (p.2.clients 1).returns := List.mem_of_getElem? hx
  obtain ⟨v, hv, hle, -, hcontent⟩ := (calls_linearize (show encodable [] = true from rfl) hr₀
    (Machine.Reach.runIf (.init rfl) hrun) hmem hnew hm (Json.text?_eq_some.1 hstatus)).1 haction
  exact ⟨p₀, p, hrun₀, hrun, x, hmem, m, hm, v, hversion ▸ hle, hv, hcontent⟩

end DistRes
