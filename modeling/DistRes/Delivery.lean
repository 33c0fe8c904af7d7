import DistRes.Cluster
import DistRes.Reconnection

/-!
# What becomes of a version

Every committed version reaches a node as an EVENT, is still on its way to it, or has been lost to
it.  A version is lost where its writer's RESPONSE cannot be sent, where it is published while no
connection of the node is subscribed, where its delivery raises or goes to a connection that the node
has left, and where the node leaves a connection before it has read the EVENT.

* `OnWay` and `System.loses` — a version that is on its way, and the steps in which it is lost;
* `accounted_of_reachable` — there is nothing else.
-/

namespace DistRes

open Lib

/-! ## What a step of a handler does to the deliveries -/

section Deliveries

variable {H : Type} [DecidableEq H] {cfg : Config} {h k : H} {d d' : DistResServer H}
  {l l' : ClientHandler H} {a : HandlerAct} {w : ℕ}

/-- A delivery that a handler has still to make, it still has to after the step, or the step makes
it. -/
theorem due_step (hs : handlerStep cfg h d l a = some (d', l')) (hd : (k, w) ∈ l.pc.due) :
    (k, w) ∈ l'.pc.due ∨ ∃ e u todo n, l.pc = .publish (.deliver e ((u, k) :: todo) n) ∧
      e.payload.version = w ∧ (a = .fail ∨ a = .go ∧ d'.sockets k = d.sockets k ++ [.event e]) := by
  unfold HandlerPc.due at hd
  split at hd
  · rename_i e todo n hpc
    rcases todo with _ | ⟨⟨u, t⟩, todo⟩
    · cases hd
    · rcases List.mem_cons.1 hd with heq | hd
      · cases heq
        refine .inr ⟨e, u, todo, n, hpc, rfl, ?_⟩
        cases a with
        | go =>
          obtain ⟨-, rfl, -⟩ := deliver_step hpc hs
          exact .inr ⟨rfl, Function.update_self ..⟩
        | fail => exact .inl rfl
        | _ => simp only [handlerStep, hpc, reduceCtorEq] at hs
      · left
        cases a with
        | go =>
          obtain ⟨-, -, rfl⟩ := deliver_step hpc hs
          exact hd
        | fail =>
          simp only [handlerStep, hpc, handlerStep.publishStep, publish, Bool.false_eq_true, if_false,
            Option.bind_some] at hs
          cases hs
          exact hd
        | _ => simp only [handlerStep, hpc, reduceCtorEq] at hs
  · rename_i u e todo n hpc
    left
    cases a <;> simp only [handlerStep, hpc, handlerStep.publishStep, publish, Option.bind_some,
      reduceCtorEq] at hs
    cases hs
    exact hd
  · cases hd

/-- What a handler that publishes is to deliver. -/
theorem due_of_snapshot {topic : Text} {e : Update} (hpc : l.pc = .publish (.snapshot topic e))
    (hs : handlerStep cfg h d l a = some (d', l')) :
    a = .go ∧ l'.pc.due = d.broker.items.map fun x => (x.2, e.version) := by
  cases a <;> simp only [handlerStep, hpc, handlerStep.publishStep, publish, Option.bind_some,
    reduceCtorEq] at hs
  cases hs
  exact ⟨rfl, rfl⟩

/-- A write that a handler carries, it still carries after the step, or the step publishes it or
gives it up. -/
theorem carried_step (hs : handlerStep cfg h d l a = some (d', l')) (hc : l.pc.carried = some w) :
    l'.pc.carried = some w ∨ (∃ topic e, l.pc = .publish (.snapshot topic e) ∧ e.version = w) ∨
      a = .fail ∧ ∃ r x, l.pc = .respond r (.publish w x) := by
  cases handlerStep_announces hs with
  | quiet _ _ hcar => exact .inl (hcar.trans hc)
  | commits _ _ hnone => cases hnone.symm.trans hc
  | returns v _ h1 h2 => exact .inl (h2.trans (h1.symm.trans hc))
  | replies v _ _ h1 h2 =>
    obtain ⟨r, x, hpc⟩ := h1
    rw [hpc] at hc
    exact .inl (h2.trans hc)
  | loses v _ h1 ha =>
    obtain ⟨r, x, hpc⟩ := h1
    have hv : v = w := by
      rw [hpc] at hc
      exact Option.some.inj hc
    exact .inr (.inr ⟨ha, r, x, hv ▸ hpc⟩)
  | publishes e topic _ hpc =>
    rw [hpc] at hc
    exact .inr (.inl ⟨topic, e, hpc, Option.some.inj hc⟩)
  | delivers _ _ _ _ _ hnone => cases hnone.symm.trans hc

/-- A version that is new is carried by the handler that has committed it. -/
theorem version_step (hs : handlerStep cfg h d l a = some (d', l')) (hw : w ≤ d'.data.version) :
    w ≤ d.data.version ∨ l'.pc.carried = some w := by
  cases handlerStep_announces hs with
  | quiet hv | replies _ hv | delivers _ _ hv => exact .inl (hv ▸ hw)
  | commits hv _ _ hcar =>
    rw [hv] at hw
    rcases Nat.le_succ_iff.1 hw with hw | hw
    · exact .inl hw
    · exact .inr (hcar.trans (congrArg some hw.symm))
  | returns _ hs | loses _ hs | publishes _ _ hs => exact .inl (hs ▸ hw)

end Deliveries

/-! ## Versions that are on their way -/

section OnWay

variable {C U H : Type} [DecidableEq C] [DecidableEq U] [DecidableEq H] {cfg : Config} {file : Bytes}

/-- The versions on a connection that the client has not read. -/
def System.unread (s : System C U H) (k : H) : List ℕ :=
  eventVersions ((s.server.shared.sockets k).drop (s.taken k))

/-- **A version on its way** to the node `c`: its writer's handler has not published it, a publisher
has still to deliver it to a connection of `c`, or it is on the connection that `c` reads or in the
hands of the listener.  A listener that has left its loop tells the node nothing any more. -/
inductive OnWay (s : System C U H) (c : C) (w : ℕ) : Prop
  | carried (h : H) : (s.server.thread h).pc.carried = some w → OnWay s c w
  | due (h k : H) : s.owner k = some c → (k, w) ∈ (s.server.thread h).pc.due → OnWay s c w
  | unread (k : H) : (s.client c).link = some k → w ∈ s.unread k → OnWay s c w
  | taken (m : Message) (e : Event) : (s.client c).listener = .handle m → eventOf m = some e →
      e.payload.version = w → OnWay s c w
  | gone : (s.client c).listener.gone = true → OnWay s c w

/-- The versions that are lost to the node `c` in a step of a handler. -/
def System.losesAt (s : System C U H) (c : C) (h : H) (a : HandlerAct) : List ℕ :=
  match (s.server.thread h).pc, a with
  -- the RESPONSE to the writer cannot be sent
  | .respond _ (.publish v _), .fail => [v]
  -- no connection of the node is subscribed
  | .publish (.snapshot _ e), .go =>
    if s.server.shared.broker.items.any fun x => s.owner x.2 = some c then [] else [e.version]
  -- the delivery raises
  | .publish (.deliver e ((_, k) :: _) _), .fail =>
    if s.owner k = some c then [e.payload.version] else []
  -- the node has left the connection
  | .publish (.deliver e ((_, k) :: _) _), .go =>
    if s.owner k = some c ∧ (s.client c).link ≠ some k then [e.payload.version] else []
  | _, _ => []

/-- The versions that are lost to the node `c` in a step. -/
def System.loses (s : System C U H) (c : C) : SystemAct C U H → List ℕ
  | .handler h a => s.losesAt c h a
  -- the listener leaves the connection with what it has not read
  | .client d .listener .unreadable =>
    if d = c then
      match (s.client c).listener with
      | .reading k => s.unread k
      | _ => []
    else []
  | _ => []

/-- The versions that the node `c` is told of in a step. -/
def System.tells (s : System C U H) (c : C) : SystemAct C U H → List ℕ
  | .client d .listener .go =>
    if d = c then
      match (s.client c).listener with
      | .handle m => ((eventOf m).map fun e => e.payload.version).toList
      | _ => []
    else []
  | _ => []

/-- The versions that are told or lost in a step. -/
def ClusterAct.settles (s : System C U H) (c : C) : ClusterAct C U H → List ℕ
  | .system a => s.tells c a ++ s.loses c a
  | _ => []

/-- The cluster with the versions that every node has been told of or that are lost to it. -/
def settlingCluster (cfg : Config) (file : Bytes) (C U H : Type) [DecidableEq C] [DecidableEq U]
    [DecidableEq H] :=
  (clusterMachine cfg file C U H).withHistory (fun _ => [] : C → List ℕ) fun N p a _ =>
    fun c => N c ++ a.settles p.1.sys c

variable {s s' : System C U H} {c : C} {w : ℕ} {a : SystemAct C U H}

/-- What the nodes and the server hold of the connections. -/
structure ReadingInv (s : System C U H) : Prop where
  reads : ∀ c k, (s.client c).reads k → s.owner k = some c
  reader : ∀ c, ReaderInv (s.client c)
  taken : ∀ k, s.taken k ≤ (s.server.shared.sockets k).length

omit [DecidableEq C] [DecidableEq U] [DecidableEq H] in
theorem link_of_reading (hi : ReadingInv s) {k : H} (hk : (s.client c).listener = .reading k) :
    (s.client c).link = some k := by
  rw [Client.link, hk]
  exact hi.reader c k hk

theorem readingInv_of_reachable {p : System C U H × SystemHistory C U H}
    (hr : (systemMachine cfg file C U H).Reachable p) : ReadingInv p.1 := by
  have hreads := (systemInv_of_reachable hr).reads
  have hinv : (∀ c, ReaderInv (p.1.client c)) ∧
      ∀ k, p.1.taken k ≤ (p.1.server.shared.sockets k).length := by
    refine hr.invariant (fun p => (∀ c, ReaderInv (p.1.client c)) ∧
      ∀ k, p.1.taken k ≤ (p.1.server.shared.sockets k).length) ?_ ?_
    · rintro ⟨s, L⟩ ⟨⟨hc, -, -, -, htaken⟩, -⟩
      refine ⟨fun c k hk => ?_, fun k => ?_⟩
      · rw [show s.client c = {} from hc c] at hk
        cases hk
      · rw [show s.taken k = 0 from htaken k]
        exact Nat.zero_le _
    · rintro ⟨s, L⟩ a ⟨s', L'⟩ - ⟨hreader, htaken⟩ hs
      obtain ⟨hstep, -⟩ := Machine.withHistory_step.1 hs
      have hclient : ∀ {c t act x}, clientStep (s.client c) (t, act) = some x →
          ∀ d, ReaderInv ((s.setClient c x).client d) := by
        intro c t act x hx d
        by_cases hd : d = c
        · subst hd
          rw [setClient_self]
          exact (hreader d).step hx
        · rw [setClient_of_ne s x hd]
          exact hreader d
      have hserver : ∀ {h act d}, (serverMachine cfg H file).step s.server (h, act) = some d →
          ∀ k, s.taken k ≤ (d.shared.sockets k).length := by
        intro h act d hd k
        obtain ⟨g, l, hstep, rfl⟩ := Pool.machine_step.1 hd
        exact (htaken k).trans (handlerStep_sockets hstep k).length_le
      cases system_moves hstep with
      | client _ hx => exact ⟨hclient hx, htaken⟩
      | connect _ hx => exact ⟨hclient hx, htaken⟩
      | @deliver c k m x _ hm hx =>
        refine ⟨hclient hx, fun k' => ?_⟩
        by_cases hk : k' = k
        · subst hk
          simp only [Function.update_self]
          exact (List.getElem?_eq_some_iff.1 hm).1
        · simp only [Function.update_of_ne hk]
          exact htaken k'
      | handler _ _ hd => exact ⟨hreader, hserver hd⟩
      | request _ _ hd => exact ⟨hreader, hserver hd⟩
  exact ⟨hreads, hinv.1, hinv.2⟩

/-! ### What a step does to it -/

theorem unread_append {ms : List ServerMessage} {n : ℕ} {m : ServerMessage} (hn : n ≤ ms.length) :
    eventVersions ((ms ++ [m]).drop n) = eventVersions (ms.drop n) ++ eventVersions [m] := by
  rw [List.drop_append_of_le_length hn, eventVersions_append]

theorem mem_unread_mono {ms ms' : List ServerMessage} {n : ℕ} (hp : ms <+: ms')
    (hw : w ∈ eventVersions (ms.drop n)) : w ∈ eventVersions (ms'.drop n) := by
  obtain ⟨zs, hzs⟩ := hp.drop n
  rw [← hzs, eventVersions_append]
  exact List.mem_append_left _ hw

section Handler

variable {h : H} {act : HandlerAct} {d : DistResServer H} {l : ClientHandler H} {arrived : H → ℕ}

/-- The system after a step of a handler. -/
def System.setHandler (s : System C U H) (h : H) (d : DistResServer H) (l : ClientHandler H) :
    System C U H :=
  { s with server := ⟨d, Function.update s.server.thread h l⟩ }

omit [DecidableEq U] in
/-- A step of a handler keeps a version on its way, unless it loses it. -/
theorem OnWay.atHandler (hi : ReadingInv s) (hw : OnWay s c w)
    (hs : handlerStep cfg h s.server.shared (s.server.thread h) act = some (d, l)) :
    OnWay (s.setHandler h d l) c w ∨ w ∈ s.losesAt c h act := by
  cases hw with
  | carried g hc =>
    by_cases hg : g = h
    · subst hg
      rcases carried_step hs hc with hc | ⟨topic, e, hpc, rfl⟩ | ⟨rfl, r, x, hpc⟩
      · exact .inl (.carried g (by simpa [System.setHandler] using hc))
      · obtain ⟨rfl, hdue⟩ := due_of_snapshot hpc hs
        by_cases hany : s.server.shared.broker.items.any (fun x => s.owner x.2 = some c) = true
        · obtain ⟨x, hx, ho⟩ := List.any_eq_true.1 hany
          refine .inl (.due g x.2 (show s.owner x.2 = some c by simpa using ho) ?_)
          simp only [System.setHandler, Function.update_self, hdue]
          exact List.mem_map_of_mem hx
        · right
          simp only [System.losesAt, hpc, if_neg hany]
          exact List.mem_singleton_self _
      · right
        simp only [System.losesAt, hpc]
        exact List.mem_singleton_self _
    · exact .inl (.carried g (by simpa [System.setHandler, hg] using hc))
  | due g k ho hdue =>
    by_cases hg : g = h
    · subst hg
      rcases due_step hs hdue with hdue | ⟨e, u, todo, n, hpc, rfl, rfl | ⟨rfl, hsock⟩⟩
      · exact .inl (.due g k ho (by simpa [System.setHandler] using hdue))
      · right
        simp only [System.losesAt, hpc, if_pos ho]
        exact List.mem_singleton_self _
      · by_cases hlink : (s.client c).link = some k
        · refine .inl (.unread k hlink ?_)
          have hunread : (s.setHandler g d l).unread k = s.unread k ++ [e.payload.version] := by
            simp only [System.unread, System.setHandler, hsock]
            exact unread_append (hi.taken k)
          rw [hunread]
          exact List.mem_append_right _ (List.mem_singleton_self _)
        · right
          simp only [System.losesAt, hpc, if_pos (And.intro ho hlink)]
          exact List.mem_singleton_self _
    · exact .inl (.due g k ho (by simpa [System.setHandler, hg] using hdue))
  | unread k hlink hun =>
    exact .inl (.unread k hlink (mem_unread_mono (handlerStep_sockets hs k) hun))
  | taken m e hl he hv => exact .inl (.taken m e hl he hv)
  | gone ho => exact .inl (.gone ho)

end Handler

theorem link_of_other {t : Thread U} {act : ClientAct H} {x y : Client U H} (ht : t ≠ .listener)
    (hs : clientStep x (t, act) = some y) : y.listener = x.listener ∧ y.link = x.link := by
  rcases clientStep_cases hs with ⟨u, conn', pc, -, hstep, rfl⟩ | ⟨conn', pc, heq, -, rfl⟩ |
    ⟨conn', pc, -, hstep, rfl⟩
  · refine ⟨rfl, ?_⟩
    unfold Client.link ListenerPc.link
    simp only [userStep_reader hstep]
  · exact absurd heq ht
  · refine ⟨rfl, ?_⟩
    unfold Client.link ListenerPc.link
    simp only [beatStep_reader hstep]

/-- The callbacks of the listener of `c` do not raise in the step. -/
def System.calm (s : System C U H) (c : C) (a : SystemAct C U H) : Prop :=
  ∀ act, a = .client c .listener act → (act = .crash → (s.client c).listener.isReading = true) ∧
    (act = .fail → ∀ again, (s.client c).listener ≠ .connect .setConnected again)

/-- A step of the client itself keeps a version on its way, unless it tells or loses it. -/
theorem OnWay.atClient {t : Thread U} {act : ClientAct H} {x : Client U H} (hi : ReadingInv s)
    (hcalm : s.calm c (.client c t act)) (hlocal : act.isLocal = true)
    (hs : clientStep (s.client c) (t, act) = some x) (hw : OnWay s c w) :
    OnWay (s.setClient c x) c w ∨ w ∈ s.tells c (.client c t act) ++ s.loses c (.client c t act) := by
  by_cases ht : t = .listener
  · subst ht
    obtain ⟨hcrash, hfail⟩ := hcalm act rfl
    obtain ⟨⟨conn', pc⟩, hstep, rfl⟩ := Option.map_eq_some_iff.1 hs
    cases hw with
    | carried h hc => exact .inl (.carried h hc)
    | due h k ho hdue => exact .inl (.due h k ho hdue)
    | unread k hlink hun =>
      rcases listenerStep_link hstep with h | h | h | ⟨hrec, k', hk'⟩ | ⟨ha, again, hpc⟩
      · refine .inl (.unread k ?_ hun)
        rw [setClient_self]
        exact h.trans hlink
      · cases h.symm.trans hlink
      · refine .inl (.gone ?_)
        rw [setClient_self]
        exact h
      · obtain rfl : k' = k := Option.some.inj ((link_of_reading hi hk').symm.trans hlink)
        rw [hrec, hk'] at hstep
        obtain rfl := unreadable_of_recover hlocal hstep
        right
        simp only [System.loses, hk', if_true]
        exact List.mem_append_right _ hun
      · exact absurd hpc (hfail ha again)
    | taken m e hl he hv =>
      rw [hl] at hstep
      cases act with
      | go =>
        right
        simp only [System.tells, hl, he, if_true, Option.map_some, Option.toList_some, hv]
        exact List.mem_append_left _ (List.mem_singleton_self _)
      | crash =>
        have hreading := hcrash rfl
        rw [hl] at hreading
        cases hreading
      | _ => cases hstep
    | gone ho =>
      generalize (s.client c).listener = pc₀ at hstep ho
      cases pc₀ with
      | ended | died => cases act <;> cases hstep
      | _ => cases ho
  · obtain ⟨hl, hlink⟩ := link_of_other ht hs
    left
    cases hw with
    | carried h hc => exact .carried h hc
    | due h k ho hdue => exact .due h k ho hdue
    | unread k hk hun => exact .unread k (by rw [setClient_self, hlink, hk]) hun
    | taken m e hm he hv => exact .taken m e (by rw [setClient_self, hl, hm]) he hv
    | gone ho => exact .gone (by rw [setClient_self, hl, ho])

omit [DecidableEq U] in
theorem losesAt_receive (s : System C U H) (c : C) (h : H) (m : Json) :
    s.losesAt c h (.receive m) = [] := by
  unfold System.losesAt
  split
  all_goals first
    | rfl
    | contradiction

theorem requestStep_connect {conn : ServerConnection H} {call : RequestCall H} {k : H} :
    requestStep conn call (.connect k) = none := by
  obtain ⟨action, params, pc⟩ := call
  cases pc <;> rfl

theorem link_of_connect {conn conn' : ServerConnection H} {pc pc' : ListenerPc H} {k : H}
    (hs : listenerStep conn pc (.connect k) = some (conn', pc')) : ∃ again, pc = .connect .attempt again := by
  cases pc with
  | connect pc again =>
    cases pc <;> cases hs
    exact ⟨again, rfl⟩
  | relogin c =>
    obtain ⟨action, params, pc⟩ := c
    cases pc <;> simp [listenerStep, requestStep_connect] at hs
  | _ => simp only [listenerStep, reduceCtorEq] at hs

omit [DecidableEq C] [DecidableEq U] [DecidableEq H] in
/-- A step of somebody else. -/
theorem OnWay.other (hw : OnWay s c w) (hclient : s'.client c = s.client c) (hserver : s'.server = s.server)
    (howner : ∀ k, s.owner k = some c → s'.owner k = some c)
    (htaken : ∀ k, (s.client c).link = some k → s'.taken k = s.taken k) : OnWay s' c w := by
  cases hw with
  | carried h hc => exact .carried h (by rw [hserver, hc])
  | due h k ho hdue => exact .due h k (howner k ho) (by rw [hserver]; exact hdue)
  | unread k hk hun =>
    refine .unread k (by rw [hclient, hk]) ?_
    rw [System.unread, hserver, htaken k hk]
    exact hun
  | taken m e hm he hv => exact .taken m e (by rw [hclient, hm]) he hv
  | gone ho => exact .gone (by rw [hclient, ho])

/-- The client is connected anew. -/
theorem OnWay.atConnect {k : H} {x : Client U H} (hk : s.owner k = none)
    (hs : clientStep (s.client c) (.listener, .connect k) = some x) (hw : OnWay s c w) :
    OnWay { s.setClient c x with owner := Function.update s.owner k (some c) } c w := by
  obtain ⟨⟨conn', pc⟩, hstep, rfl⟩ := Option.map_eq_some_iff.1 hs
  obtain ⟨again, hpc⟩ := link_of_connect hstep
  cases hw with
  | carried h hc => exact .carried h hc
  | due h k' ho hdue =>
    refine .due h k' ?_ hdue
    by_cases hkk : k' = k
    · rw [hkk, hk] at ho
      cases ho
    · simp only [Function.update_of_ne hkk]
      exact ho
  | unread k' hlink =>
    rw [Client.link, hpc] at hlink
    cases hlink
  | taken m e hm => cases hpc.symm.trans hm
  | gone ho =>
    rw [hpc] at ho
    cases ho

theorem toJson_obj (m : ServerMessage) : ∃ fields, m.toJson = .obj fields := by
  cases m with
  | response r => exact ⟨_, rfl⟩
  | event e => exact ⟨_, rfl⟩

/-- The listener gets a message. -/
theorem OnWay.atDeliver {k : H} {m : ServerMessage} {x : Client U H} (hi : ReadingInv s)
    (hk : (s.client c).listener = .reading k)
    (hm : (s.server.shared.sockets k)[s.taken k]? = some m)
    (hs : clientStep (s.client c) (.listener, .receive m.toJson) = some x) (hw : OnWay s c w) :
    OnWay { s.setClient c x with taken := Function.update s.taken k (s.taken k + 1) } c w := by
  obtain ⟨fields, hfields⟩ := toJson_obj m
  have hreader := hi.reader c k hk
  have hx : x = { s.client c with listener := .handle fields } := by
    simp only [clientStep, hk, hfields, listenerStep, Option.map_some, Option.some.injEq] at hs
    exact hs.symm
  cases hw with
  | carried h hc => exact .carried h hc
  | due h k' ho hdue => exact .due h k' ho hdue
  | unread k' hlink hun =>
    obtain rfl : k = k' := Option.some.inj ((link_of_reading hi hk).symm.trans hlink)
    have hdrop : (s.server.shared.sockets k).drop (s.taken k) =
        m :: (s.server.shared.sockets k).drop (s.taken k + 1) := by
      obtain ⟨hlt, hget⟩ := List.getElem?_eq_some_iff.1 hm
      rw [List.drop_eq_getElem_cons hlt, hget]
    rw [System.unread, hdrop] at hun
    cases m with
    | response r =>
      refine .unread k ?_ ?_
      · simp only [setClient_self, hx]
        exact hreader
      · simp only [System.unread, Function.update_self]
        exact hun
    | event e =>
      rcases List.mem_cons.1 hun with rfl | hun
      · refine .taken fields e ?_ (eventOf_event hfields) rfl
        simp only [setClient_self, hx]
      · refine .unread k ?_ ?_
        · simp only [setClient_self, hx]
          exact hreader
        · simp only [System.unread, Function.update_self]
          exact hun
  | taken m e hl => cases hk.symm.trans hl
  | gone ho =>
    rw [hk] at ho
    cases ho

/-- **A step of the system** keeps a version on its way, unless it tells or loses it. -/
theorem OnWay.step (hi : ReadingInv s) (hcalm : s.calm c a) (hw : OnWay s c w)
    (hs : systemStep cfg file s a = some s') : OnWay s' c w ∨ w ∈ s.tells c a ++ s.loses c a := by
  cases system_moves hs with
  | @client d t act x hlocal hx =>
    by_cases hcd : c = d
    · subst hcd
      exact hw.atClient hi hcalm hlocal hx
    · exact .inl (hw.other (setClient_of_ne s x hcd) rfl (fun _ ho => ho) fun _ _ => rfl)
  | @connect d k x hk hx =>
    by_cases hcd : c = d
    · subst hcd
      exact .inl (hw.atConnect hk hx)
    · refine .inl (hw.other (setClient_of_ne s x hcd) rfl (fun k' ho => ?_) fun _ _ => rfl)
      have hne : k' ≠ k := by
        rintro rfl
        cases hk.symm.trans ho
      simp only [Function.update_of_ne hne]
      exact ho
  | @deliver d k m x hk hm hx =>
    by_cases hcd : c = d
    · subst hcd
      exact .inl (hw.atDeliver hi hk hm hx)
    · refine .inl (hw.other (setClient_of_ne s x hcd) rfl (fun _ ho => ho) fun k' hk' => ?_)
      -- nobody else reads a connection of the node
      have hne : k' ≠ k := by
        rintro rfl
        have ho := hi.reads d k' (reads_of_link (link_of_reading hi hk))
        exact hcd (Option.some.inj ((hi.reads c k' (reads_of_link hk')).symm.trans ho))
      exact Function.update_of_ne hne ..
  | @handler h act d _ _ hd =>
    obtain ⟨g, l, hstep, rfl⟩ := Pool.machine_step.1 hd
    exact (hw.atHandler hi hstep).imp_right (List.mem_append_right _)
  | @request d h r _ _ _ hd =>
    obtain ⟨g, l, hstep, rfl⟩ := Pool.machine_step.1 hd
    rcases hw.atHandler hi hstep with hw | hw
    · exact .inl (hw.other rfl rfl (fun _ ho => ho) fun _ _ => rfl)
    · rw [losesAt_receive] at hw
      cases hw

/-- A version that is new is on its way to every node. -/
theorem onWay_of_new (hs : systemStep cfg file s a = some s') (hw : w ≤ s'.server.shared.data.version) :
    w ≤ s.server.shared.data.version ∨ OnWay s' c w := by
  have hserver : ∀ {h act d}, (serverMachine cfg H file).step s.server (h, act) = some d →
      w ≤ d.shared.data.version →
      w ≤ s.server.shared.data.version ∨ (d.thread h).pc.carried = some w := by
    intro h act d hd hw
    obtain ⟨g, l, hstep, rfl⟩ := Pool.machine_step.1 hd
    exact (version_step hstep hw).imp_right fun hc => by simpa using hc
  cases system_moves hs with
  | client | connect | deliver => exact .inl hw
  | @handler h act d _ _ hd => exact (hserver hd hw).imp_right fun hc => .carried h hc
  | @request d h r _ _ _ hd => exact (hserver hd hw).imp_right fun hc => .carried h hc

omit [DecidableEq C] [DecidableEq U] [DecidableEq H] in
theorem calm_of_allows (hallows : s.allows a = true) : s.calm c a := by
  rintro act rfl
  refine ⟨?_, ?_⟩
  · rintro rfl
    exact hallows
  · rintro rfl again hl
    simp only [System.allows, Client.allows, hl] at hallows
    cases hallows

/-! ### Every version -/

variable {S S' : Cluster C U H} {N : C → List ℕ} {ca : ClusterAct C U H}

/-- Every committed version has been told or lost, or is on its way. -/
def Accounted (S : Cluster C U H) (N : C → List ℕ) (c : C) : Prop :=
  ∀ w, 1 ≤ w → w ≤ S.sys.server.shared.data.version → w ∈ N c ∨ OnWay S.sys c w

theorem Accounted.step (hi : ReadingInv S.sys) (hacc : Accounted S N c)
    (hs : clusterStep cfg file S ca = some S') :
    Accounted S' (fun c => N c ++ ca.settles S.sys c) c := by
  have hsys : ∀ {a sys}, systemStep cfg file S.sys a = some sys → S.sys.calm c a → ∀ w, 1 ≤ w →
      w ≤ sys.server.shared.data.version →
      w ∈ N c ++ (S.sys.tells c a ++ S.sys.loses c a) ∨ OnWay sys c w := by
    intro a sys hs hcalm w h1 hw
    rcases onWay_of_new (c := c) hs hw with hw | hw
    · rcases hacc w h1 hw with hw | hw
      · exact .inl (List.mem_append_left _ hw)
      · exact (hw.step hi hcalm hs).symm.imp_left (List.mem_append_right _)
    · exact .inr hw
  cases clusterStep_cases hs with
  | ask d u call _ hstep =>
    intro w h1 hw
    have := hsys hstep (fun act heq => by cases heq) w h1 hw
    simpa [System.tells, System.loses, ClusterAct.settles] using this
  | update =>
    intro w h1 hw
    exact (hacc w h1 hw).imp_left (List.mem_append_left _)
  | system a hallows hstep => exact hsys hstep (calm_of_allows hallows)

variable {p : (Cluster C U H × SystemHistory C U H) × (C → List ℕ)}

theorem cluster_of_settling {ok : (Cluster C U H × SystemHistory C U H) × (C → List ℕ) →
      ClusterAct C U H → Prop} (hr : (settlingCluster cfg file C U H).Reach ok p) :
    (clusterMachine cfg file C U H).Reachable p.1 := Machine.Reach.erase hr.reachable

/-- **Nothing else happens to a version.** -/
theorem accounted_of_reachable (hr : (settlingCluster cfg file C U H).Reachable p) (c : C) :
    Accounted p.1.1 p.2 c := by
  refine hr.invariant (fun p => Accounted p.1.1 p.2 c) ?_ ?_
  · rintro ⟨⟨S, L⟩, N⟩ ⟨⟨⟨⟨-, ⟨hserver, -⟩, -⟩, -⟩, -⟩, -⟩ w h1 hw
    have hserver : S.sys.server.shared = { data := { file := file }, sessions := cfg.maxSessions } := hserver
    rw [hserver] at hw
    exact absurd (h1.trans hw) (by simp)
  · rintro ⟨⟨S, L⟩, N⟩ a ⟨⟨S', L'⟩, N'⟩ hr hacc hs
    obtain ⟨hstep, hN⟩ := Machine.withHistory_step.1 hs
    obtain ⟨hstep, -⟩ := Machine.withHistory_step.1 hstep
    simp only at hN hstep hacc ⊢
    rw [hN]
    exact hacc.step (readingInv_of_reachable (system_of_cluster (cluster_of_settling hr)).reachable) hstep

end OnWay

end DistRes
