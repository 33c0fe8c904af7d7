import DistRes.Delivery
import DistRes.Freshness

/-!
# What a node shows, and what it never was told

* `Quiescent` — every thread is idle, and nothing is in flight;
* `current_iff_not_outdated` — what a node shows as fresh at rest is the server's version, unless a
  later version was lost to it since, or it was shown after a later one.
-/

namespace DistRes

open Lib

/-! ## What a node shows -/

section Shows

variable {C U H : Type} [DecidableEq C] [DecidableEq U] [DecidableEq H] {cfg : Config} {file : Bytes}
  {s s' : System C U H} {c : C} {w : ℕ} {a : SystemAct C U H} {S S' : Cluster C U H} {N : C → List ℕ}
  {ca : ClusterAct C U H} {p : (Cluster C U H × SystemHistory C U H) × (C → List ℕ)}

/-- A handler that is between two messages, not started, or gone. -/
def HandlerPc.settled : HandlerPc H → Bool
  | .connecting | .recv | .ended => true
  | _ => false

def UserPc.isIdle : UserPc H → Bool
  | .idle => true
  | _ => false

def ApiPc.isIdle : ApiPc → Bool
  | .idle => true
  | _ => false

def BeatPc.isIdle : BeatPc H → Bool
  | .next | .send _ _ => false
  | _ => true

/-- The connection that the listener waits on for a message. -/
def ListenerPc.reading? : ListenerPc H → Option H
  | .reading k => some k
  | _ => none

/-- The listener has taken all messages, or takes none any more. -/
def System.listening (s : System C U H) (c : C) : Bool :=
  match (s.client c).listener with
  | .reading k => s.taken k = (s.server.shared.sockets k).length
  | pc => pc.gone

/-- The handler has got all messages, or takes none any more. -/
def System.served (s : System C U H) (h : H) : Bool :=
  match (s.server.thread h).pc, s.owner h with
  | .recv, some c => s.arrived h = ((s.client c).conn.sent h).length
  | _, _ => true

/-- **Quiescence**: every thread is idle, and nothing is in flight. -/
structure Quiescent (S : Cluster C U H) : Prop where
  handlers : ∀ h, (S.sys.server.thread h).pc.settled = true
  requests : ∀ h, S.sys.served h = true
  listeners : ∀ c, S.sys.listening c = true
  threads : ∀ c u, ((S.node c).thread u).isIdle = true ∧ ((S.sys.client c).user u).isIdle = true
  beats : ∀ c, (S.sys.client c).beat.isIdle = true

/-- The node `c` is connected over `k`, and the handler of this connection holds its session. -/
structure Connected (S : Cluster C U H) (c : C) (k : H) : Prop where
  reading : (S.sys.client c).listener.reading? = some k
  state : (S.sys.client c).conn.state = .connected
  session : (S.sys.server.thread k).userId.isSome = true ∧ (S.sys.server.thread k).holdsSession = true

/-- What the node shows as fresh is the version of the server. -/
def Current (S : Cluster C U H) (c : C) : Prop :=
  (S.node c).node.contentLoaded = true → (S.node c).node.contentStale = false →
    (S.node c).node.contentVersion = some S.sys.server.shared.data.version

instance [Fintype C] [Fintype U] [Fintype H] (S : Cluster C U H) : Decidable (Quiescent S) :=
  decidable_of_iff ((∀ h, (S.sys.server.thread h).pc.settled = true) ∧ (∀ h, S.sys.served h = true) ∧
    (∀ c, S.sys.listening c = true) ∧
    (∀ c u, ((S.node c).thread u).isIdle = true ∧ ((S.sys.client c).user u).isIdle = true) ∧
    ∀ c, (S.sys.client c).beat.isIdle = true)
    ⟨fun ⟨h1, h2, h3, h4, h5⟩ => ⟨h1, h2, h3, h4, h5⟩, fun ⟨h1, h2, h3, h4, h5⟩ => ⟨h1, h2, h3, h4, h5⟩⟩

instance (S : Cluster C U H) (c : C) (k : H) : Decidable (Connected S c k) :=
  decidable_of_iff ((S.sys.client c).listener.reading? = some k ∧
    (S.sys.client c).conn.state = .connected ∧
    (S.sys.server.thread k).userId.isSome = true ∧ (S.sys.server.thread k).holdsSession = true)
    ⟨fun ⟨h1, h2, h3⟩ => ⟨h1, h2, h3⟩, fun ⟨h1, h2, h3⟩ => ⟨h1, h2, h3⟩⟩

instance (S : Cluster C U H) (c : C) : Decidable (Current S c) :=
  inferInstanceAs (Decidable (_ → _ → _))

omit [DecidableEq H] in
theorem listener_of_reading {pc : ListenerPc H} {k : H} (h : pc.reading? = some k) : pc = .reading k := by
  unfold ListenerPc.reading? at h
  split at h
  · rw [Option.some.inj h]
  · cases h

/-- A later version than what the node shows as fresh is among the given ones. -/
def Node.outdated (n : Node) (ws : List ℕ) : Bool :=
  n.contentLoaded && !n.contentStale && n.contentVersion.any fun v => ws.any fun w => v < w

/-- **The step outdates the node `c`**: an update is lost to it that is later than what it shows as
fresh, or it shows as fresh what is older than an update it was told of or that was lost to it. -/
def ClusterAct.outdates (S : Cluster C U H) (N : C → List ℕ) (c : C) : ClusterAct C U H → Bool
  | .update d u => d = c && overtaken (N c) (S.node c) (.update u)
  | .system a => (S.node c).node.outdated (S.sys.loses c a)
  | .ask _ _ _ => false

omit [DecidableEq H] in
theorem clear_of_settled {pc : HandlerPc H} (h : pc.settled = true) : pc.clear := by
  cases pc with
  | connecting | recv | ended => exact ⟨rfl, rfl⟩
  | _ => cases h

omit [DecidableEq C] [DecidableEq U] [DecidableEq H] in
/-- Nothing is on its way at rest. -/
theorem not_onWay {k : H} (hi : ReadingInv S.sys) (hq : Quiescent S) (hc : Connected S c k) :
    ¬ OnWay S.sys c w := by
  intro hw
  cases hw with
  | carried h hcar => cases (clear_of_settled (hq.handlers h)).1.symm.trans hcar
  | due h k' _ hdue =>
    rw [(clear_of_settled (hq.handlers h)).2] at hdue
    cases hdue
  | unread k' hlink hun =>
    have hk := listener_of_reading hc.reading
    obtain rfl : k = k' := Option.some.inj ((link_of_reading hi hk).symm.trans hlink)
    have htaken := hq.listeners c
    simp only [System.listening, hk, decide_eq_true_eq] at htaken
    rw [System.unread, htaken, List.drop_length] at hun
    cases hun
  | taken m e hm => cases (listener_of_reading hc.reading).symm.trans hm
  | gone ho =>
    rw [listener_of_reading hc.reading] at ho
    cases ho

theorem fresh_append {n : Node} {told ws : List ℕ} (hf : Fresh n told) :
    Fresh n (told ++ ws) ↔ n.outdated ws = false := by
  have hout : n.outdated ws = true ↔ n.contentLoaded = true ∧ n.contentStale = false ∧
      ∃ v, n.contentVersion = some v ∧ ∃ w ∈ ws, v < w := by
    simp [Node.outdated, Option.any_eq_true, and_assoc]
  rw [← Bool.not_eq_true, hout]
  constructor
  · rintro hf' ⟨hl, hst, v, hv, w, hw, hlt⟩
    have := hf' hl v hv ⟨w, List.mem_append_right _ hw, hlt⟩
    rw [hst] at this
    cases this
  · rintro hno hl v hv ⟨w, hw, hlt⟩
    rcases List.mem_append.1 hw with hw | hw
    · exact hf hl v hv ⟨w, hw, hlt⟩
    · by_contra hst
      exact hno ⟨hl, by simpa using hst, v, hv, w, hw, hlt⟩

theorem Fresh.mono {n : Node} {told told' : List ℕ} (hf : Fresh n told') (hsub : told ⊆ told') :
    Fresh n told := fun hl v hv ⟨w, hw, hlt⟩ => hf hl v hv ⟨w, hsub hw, hlt⟩

/-- The update of a request, whatever it tells. -/
theorem fresh_after {n : Node} {told : List ℕ} (hf : Fresh n told) (call : ApiCall) (resp : Reply) :
    Fresh (call.update n resp) told ↔ call.overtaken told resp = false := by
  have hupdate := fresh_update hf call resp
  cases call with
  | login u name =>
    refine iff_of_true ?_ rfl
    by_cases hok : resp.status = statusOk
    · refine fresh_of_not_loaded ?_
      simp only [ApiCall.update, Node.apiLogin, if_pos hok]
    · simpa only [ApiCall.update, Node.apiLogin, if_neg hok] using hf
  | logout | read => exact hupdate
  | write content =>
    refine iff_of_true ((hupdate.2 rfl).mono ?_) rfl
    simp only [ApiCall.tells]
    split_ifs
    · exact List.subset_append_left _ _
    · exact List.Subset.refl _

/-- What the node is told of in a step, it has seen. -/
theorem node_after {sys : System C U H} (hs : systemStep cfg file S.sys a = some sys) :
    (∃ e, S.sys.tells c a = [e.payload.version] ∧ S.sys.loses c a = [] ∧
      (S.observe a sys c).node = (S.node c).node.onEvent e) ∨
    S.sys.tells c a = [] ∧ ((S.observe a sys c).node = (S.node c).node ∨
      ∃ state, (S.observe a sys c).node = (S.node c).node.onState state) := by
  cases system_moves hs with
  | @client d t act x hlocal hx =>
    rcases observe_cases (d := d) (t := t) S c (S.sys.setClient d x) hlocal with
      ⟨hsame, hnone⟩ | ⟨rfl, b, hseen, hnode⟩
    · refine .inr ⟨?_, .inl (by rw [hsame])⟩
      by_contra htells
      unfold System.tells at htells
      split at htells
      · rename_i d heq
        cases heq
        split at htells
        · rename_i hdc
          subst hdc
          split at htells
          · rename_i m hm
            cases he : eventOf m with
            | none =>
              rw [he] at htells
              exact htells rfl
            | some e =>
              have hseen : (S.sys.client d).seen ((S.sys.setClient d x).client d) .listener .go =
                  some (.event e) := by
                simp only [Client.seen, hm, he, Option.map_some]
              cases hnone rfl _ hseen
          · exact htells rfl
        · exact htells rfl
      · exact htells rfl
    · generalize S.observe (.client c t act) (S.sys.setClient c x) c = n at hnode
      cases seen_cases hseen with
      | «return» u r =>
        simp only [nodeStep] at hnode
        split at hnode <;> cases hnode
        exact .inr ⟨rfl, .inl rfl⟩
      | event m e hm he =>
        cases hnode
        refine .inl ⟨e, ?_, rfl, rfl⟩
        simp only [System.tells, hm, he, if_true, Option.map_some, Option.toList_some]
      | state hne =>
        cases hnode
        refine .inr ⟨?_, .inr ⟨_, rfl⟩⟩
        simp only [System.tells, if_true]
  | connect | deliver | handler | request => exact .inr ⟨rfl, .inl (by rw [observe_other rfl])⟩

/-- **One step** keeps what is shown as fresh, unless it outdates it. -/
theorem fresh_cluster (hf : Fresh (S.node c).node (N c)) (hs : clusterStep cfg file S ca = some S') :
    Fresh (S'.node c).node (N c ++ ca.settles S.sys c) ↔ ca.outdates S N c = false := by
  cases clusterStep_cases hs with
  | ask d u call _ _ =>
    refine iff_of_true ?_ rfl
    simp only [ClusterAct.settles, List.append_nil, node_of_thread]
    exact hf
  | update d u call resp hret =>
    simp only [ClusterAct.settles, List.append_nil, ClusterAct.outdates]
    by_cases hcd : c = d
    · subst hcd
      rw [Function.update_self]
      simpa [overtaken, hret] using fresh_after hf call resp
    · rw [Function.update_of_ne hcd]
      exact iff_of_true hf (by simp [Ne.symm hcd])
  | system a hallows hsys =>
    simp only [ClusterAct.settles, ClusterAct.outdates]
    rcases node_after (c := c) hsys with ⟨e, htells, hloses, hnode⟩ | ⟨htells, hnode⟩
    · rw [htells, hloses, hnode]
      refine iff_of_true (hf.onEvent e) ?_
      simp [Node.outdated]
    · rw [htells, List.nil_append]
      rcases hnode with hnode | ⟨state, hnode⟩
      · rw [hnode]
        exact fresh_append hf
      · rw [hnode]
        exact fresh_append hf

/-- What is loaded has a version, which the server has come to. -/
def Node.LoadedUpTo (n : Node) (version : ℕ) : Prop :=
  n.contentLoaded = true → ∃ v, n.contentVersion = some v ∧ v ≤ version

theorem Node.LoadedUpTo.update {n : Node} {version : ℕ} (hn : n.LoadedUpTo version) (call : ApiCall)
    (resp : Reply) (hread : call = .read → resp.status = statusOk →
      ∃ v, resp.version = some v ∧ v ≤ version) : (call.update n resp).LoadedUpTo version := by
  by_cases hok : resp.status = statusOk
  · cases call with
    | login u name =>
      simp only [ApiCall.update, Node.apiLogin, if_pos hok]
      exact fun h => by cases h
    | logout => exact fun h => by cases h
    | read =>
      simp only [ApiCall.update, Node.apiRead, if_pos hok]
      exact fun _ => hread rfl hok
    | write content =>
      simp only [ApiCall.update, Node.apiWrite, if_pos hok]
      exact hn
  · cases call with
    | login | read | write =>
      simpa only [ApiCall.update, Node.apiLogin, Node.apiRead, Node.apiWrite, if_neg hok] using hn
    | logout => exact fun h => by cases h

variable [Fintype H]

theorem loaded_of_reachable {p : Cluster C U H × SystemHistory C U H}
    (hr : (clusterMachine cfg file C U H).Reachable p) (c : C) :
    (p.1.node c).node.LoadedUpTo p.1.sys.server.shared.data.version := by
  refine hr.invariant (fun p => (p.1.node c).node.LoadedUpTo p.1.sys.server.shared.data.version) ?_ ?_
  · rintro ⟨s, L⟩ ⟨⟨-, hnode⟩, -⟩ hl
    have hnode : s.node c = {} := hnode c
    simp only [hnode] at hl
    cases hl
  · rintro ⟨s, L⟩ a ⟨s', L'⟩ hr hi hs
    obtain ⟨hstep, -⟩ := Machine.withHistory_step.1 hs
    have hmono : ∀ {n : Node}, n.LoadedUpTo s.sys.server.shared.data.version →
        n.LoadedUpTo s'.sys.server.shared.data.version := by
      intro n hn hl
      obtain ⟨v, hv, hle⟩ := hn hl
      exact ⟨v, hv, hle.trans (clusterStep_version hstep)⟩
    refine hmono ?_
    simp only at hi hstep ⊢
    cases clusterStep_cases hstep with
    | ask d u call _ _ =>
      simp only [node_of_thread]
      exact hi
    | update d u call resp hret =>
      by_cases hcd : c = d
      · subst hcd
        simp only [Function.update_self]
        refine Node.LoadedUpTo.update hi call resp ?_
        rintro rfl hok
        exact returnedInv_of_reachable hr c u resp hret hok
      · simp only [Function.update_of_ne hcd]
        exact hi
    | system a _ hsys =>
      rcases node_after (c := c) hsys with ⟨e, -, -, hnode⟩ | ⟨-, hnode | ⟨state, hnode⟩⟩
      · obtain ⟨hl, hv, -⟩ := onEvent_fields (s.node c).node e
        rw [hnode, Node.LoadedUpTo, hl, hv]
        exact hi
      · rw [hnode]
        exact hi
      · rw [hnode]
        exact hi

/-- What is shown as fresh at rest is current, if no later version has been told or lost. -/
theorem current_of_fresh (hr : (settlingCluster cfg file C U H).Reachable p) {k : H}
    (hq : Quiescent p.1.1) (hc : Connected p.1.1 c k) (hf : Fresh (p.1.1.node c).node (p.2 c)) :
    Current p.1.1 c := by
  intro hl hst
  have hcluster := cluster_of_settling hr
  have hi := readingInv_of_reachable (system_of_cluster hcluster).reachable
  obtain ⟨v, hv, hle⟩ := loaded_of_reachable hcluster c hl
  rw [hv]
  refine congrArg some (le_antisymm hle (Nat.le_of_not_lt fun hlt => ?_))
  -- the version of the server is neither on its way nor told or lost
  rcases accounted_of_reachable hr c _ (Nat.one_le_of_lt hlt) le_rfl with hw | hw
  · have := hf hl v hv ⟨_, hw, hlt⟩
    rw [hst] at this
    cases this
  · exact not_onWay hi hq hc hw

/-- **What a node shows as fresh is current, unless it was outdated.**  In every run in which no step
outdates the node, what it shows as fresh is the version of the server in every quiescent state in
which it is connected with its session; and from a state in which it is not outdated, a step outdates
it if and only if it loses a later version to the node or shows an older one. -/
theorem current_iff_not_outdated (c : C) :
    (∀ p, (settlingCluster cfg file C U H).Reach (fun p a => a.outdates p.1.1 p.2 c = false) p →
      ∀ k, Quiescent p.1.1 → Connected p.1.1 c k → Current p.1.1 c) ∧
    ∀ p a q, Fresh (p.1.1.node c).node (p.2 c) → (settlingCluster cfg file C U H).step p a = some q →
      (Fresh (q.1.1.node c).node (q.2 c) ↔ a.outdates p.1.1 p.2 c = false) := by
  have hone : ∀ p a q, Fresh (p.1.1.node c).node (p.2 c) →
      (settlingCluster cfg file C U H).step p a = some q →
      (Fresh (q.1.1.node c).node (q.2 c) ↔ a.outdates p.1.1 p.2 c = false) := by
    rintro ⟨⟨S, L⟩, N⟩ a ⟨⟨S', L'⟩, N'⟩ hf hs
    obtain ⟨hstep, hN⟩ := Machine.withHistory_step.1 hs
    obtain ⟨hstep, -⟩ := Machine.withHistory_step.1 hstep
    simp only at hN hstep hf ⊢
    rw [hN]
    exact fresh_cluster hf hstep
  refine ⟨fun p hr k hq hc => current_of_fresh hr.reachable hq hc ?_, hone⟩
  refine hr.invariant (fun p => Fresh (p.1.1.node c).node (p.2 c)) ?_ ?_
  · rintro ⟨⟨S, L⟩, N⟩ ⟨⟨⟨-, hnode⟩, -⟩, rfl⟩
    have hnode : S.node c = {} := hnode c
    rw [hnode]
    exact fresh_of_not_loaded rfl
  · exact fun p a q _ hf hok hs => (hone p a q hf hs).2 hok

end Shows

/-! ### Runs -/

section Runs

variable {C U H : Type}

/-- The answer of the call of `u` has arrived. -/
def Client.answered (s : Client U H) (u : U) : Bool :=
  match s.user u with
  | .request ⟨_, _, .wait id⟩ _ => (s.conn.slots id).event
  | .request ⟨_, _, .fetch _⟩ _ | .request ⟨_, _, .done _ _⟩ _ | .forget => true
  | _ => false

/-- The nodes apply what arrives in this order: the listener of a node takes no message while a
request thread has still to apply its answer. -/
def ClusterAct.inOrder [Fintype U] (S : Cluster C U H) : ClusterAct C U H → Bool
  | .system (.deliver c) => ∀ u, (S.sys.client c).answered u = false ∧
      (((S.node c).thread u).isIdle || ((S.node c).thread u matches .calling _))
  | _ => true

def inSystem (as : List (SystemAct C U H)) : List (ClusterAct C U H) := as.map .system

/-- A request of the browser: the method sends its request, is answered, and the node is updated. -/
def askTrip (c : C) (u : U) (call : ApiCall) (steps : ℕ) (served : List (SystemAct C U H)) :
    List (ClusterAct C U H) :=
  .ask c u call :: inSystem (List.replicate steps (.client c (.user u) .go) ++ served ++
    .deliver c :: List.replicate 5 (.client c .listener .go) ++
    List.replicate 3 (.client c (.user u) .go)) ++ [.update c u]

/-- The node connects over `h`, and logs in. -/
def enterRun (c : C) (u : U) (h : H) (userId username : Text) : List (ClusterAct C U H) :=
  inSystem ([.client c .listener .go, .connect c h] ++ List.replicate 6 (.client c .listener .go) ++
    [.handler h .accept]) ++
  askTrip c u (.login userId username) 6 (.request h :: List.replicate 8 (.handler h .go))

def readTrip (c : C) (u : U) (h : H) : List (ClusterAct C U H) :=
  askTrip c u .read 5 ([.request h, .handler h (.data (.lock false))] ++
    List.replicate 3 (.handler h (.data .go)) ++ .handler h (.data (.release 0)) ::
    List.replicate 3 (.handler h .go))

/-- A WRITE that is published to `n` subscribers. -/
def writeTrip (c : C) (u : U) (h : H) (n : ℕ) : List (ClusterAct C U H) :=
  askTrip c u (.write (lit "hi")) 5
    ([.request h, .handler h (.data (.lock false)), .handler h (.data .go),
      .handler h (.data (.openAt (lit "now"))), .handler h (.data (.flush 17)), .handler h (.data .go),
      .handler h (.data (.release 0))] ++ List.replicate (6 + n) (.handler h .go))

/-- The listener handles a message that nobody waits for. -/
def handleNext (c : C) : List (ClusterAct C U H) :=
  inSystem (.deliver c :: List.replicate 3 (.client c .listener .go))

/-- The link drops, and the server notices. -/
def dropLink (c : C) (h : H) : List (ClusterAct C U H) :=
  inSystem (.client c .listener .unreadable :: .handler h .hangup :: List.replicate 5 (.handler h .go))

/-- The node connects again over `k`, and its re-LOGIN is accepted. -/
def recoverLink (c : C) (k : H) : List (ClusterAct C U H) :=
  inSystem (List.replicate 6 (.client c .listener .go) ++ .connect c k ::
    List.replicate 12 (.client c .listener .go) ++ [.handler k .accept, .request k] ++
    List.replicate 8 (.handler k .go) ++ .client c .listener .timeout ::
    List.replicate 4 (.client c .listener .go)) ++ handleNext c

/-- `c` reads, and its link drops and recovers.  `d` writes before that, or during the outage. -/
def outageRun (c d : C) (u : U) (h g k : H) (early : Bool) : List (ClusterAct C U H) :=
  enterRun c u h (lit "ENG001") (lit "Alice") ++ enterRun d u g (lit "ENG002") (lit "Bob") ++
    (if early then writeTrip d u g 2 ++ handleNext c ++ handleNext d ++ readTrip c u h ++ dropLink c h
    else readTrip c u h ++ dropLink c h ++ writeTrip d u g 1 ++ handleNext d) ++ recoverLink c k

def clusterStart (cfg : Config) : Cluster C U H := { sys := systemStart cfg }

theorem clusterStart_init [DecidableEq C] [DecidableEq U] [DecidableEq H] (cfg : Config) :
    (clusterMachine cfg [] C U H).init (clusterStart cfg, {}) :=
  ⟨⟨systemStart_init.1, fun _ => rfl⟩, rfl⟩

end Runs

/-- After the outage, the node is connected with its session, and shows version 0 as fresh.  The
version of the server is 1. -/
theorem outageRun_outdated :
    ¬ ∀ p, (clusterMachine shippedConfig [] (Fin 2) (Fin 1) (Fin 3)).Reach
        (fun p a => a.inOrder p.1 = true) p →
      ∀ c k, Quiescent p.1 → Connected p.1 c k → Current p.1 c := by
  intro hall
  have hs : ((clusterMachine shippedConfig [] (Fin 2) (Fin 1) (Fin 3)).runIf
      (fun p a => a.inOrder p.1 = true) (clusterStart shippedConfig, {})
      (outageRun 0 1 0 0 1 2 false)).map (fun p =>
        decide (Quiescent p.1 ∧ Connected p.1 0 2 ∧ ¬ Current p.1 0)) = some true := by
    decide +kernel
  obtain ⟨p, hrun, hval⟩ := Option.map_eq_some_iff.1 hs
  obtain ⟨hq, hc, hnot⟩ := of_decide_eq_true hval
  exact hnot (hall p (.runIf (.init (clusterStart_init shippedConfig)) hrun) 0 2 hq hc)

/-- What the node shows was written before the outage, and is current. -/
theorem outageRun_current :
    ∃ p, (settlingCluster shippedConfig [] (Fin 2) (Fin 1) (Fin 3)).runIf
        (fun p a => a.outdates p.1.1 p.2 0 = false) ((clusterStart shippedConfig, {}), fun _ => [])
        (outageRun 0 1 0 0 1 2 true) = some p ∧ Quiescent p.1.1 ∧ Connected p.1.1 0 2 ∧
      (p.1.1.node 0).node.contentLoaded = true ∧ (p.1.1.node 0).node.contentStale = false ∧
      Current p.1.1 0 := by
  have hs : ((settlingCluster shippedConfig [] (Fin 2) (Fin 1) (Fin 3)).runIf
      (fun p a => a.outdates p.1.1 p.2 0 = false) ((clusterStart shippedConfig, {}), fun _ => [])
      (outageRun 0 1 0 0 1 2 true)).map (fun p => decide (Quiescent p.1.1 ∧ Connected p.1.1 0 2 ∧
        (p.1.1.node 0).node.contentLoaded = true ∧ (p.1.1.node 0).node.contentStale = false)) =
      some true := by
    decide +kernel
  obtain ⟨p, hrun, hval⟩ := Option.map_eq_some_iff.1 hs
  obtain ⟨hq, hc, hl, hst⟩ := of_decide_eq_true hval
  have hr : (settlingCluster shippedConfig [] (Fin 2) (Fin 1) (Fin 3)).Reach
      (fun p a => a.outdates p.1.1 p.2 0 = false) p :=
    .runIf (.init ⟨clusterStart_init shippedConfig, rfl⟩) hrun
  exact ⟨p, hrun, hq, hc, hl, hst, (current_iff_not_outdated 0).1 p hr 2 hq hc⟩

end DistRes
