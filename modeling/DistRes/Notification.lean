import DistRes.Announce
import DistRes.ServerSteps
import DistRes.SessionSafety

/-!
# Notifications after a login

What a client whose LOGIN has been answered is told.  It subscribes before it reads the version that
it answers with, so that a write is either in that version or published to the subscription.

* `NotifyEffect` is what a step does to the EVENTs that are sent and to those still to be sent;
* `EventInv` — every EVENT is sent once; `OpenInv` — a session that has been answered is subscribed;
  `ToldInv` — every later version has been sent to it, or still is to be;
* `notified_after_login` — from the answer to a LOGIN on, no published version is missed.
-/

namespace DistRes

open Lib

/-! ## What a step does to the EVENTs -/

section Effect

variable {H : Type}

/-- The version that a handler is delivering. -/
def HandlerPc.publishing : HandlerPc H → Option ℕ
  | .publish (.deliver e _ _) | .publish (.drop _ e _ _) => some e.payload.version
  | _ => none

/-- A delivery that raises. -/
def deliveryFails : HandlerPc H → HandlerAct → Bool
  | .publish (.deliver _ (_ :: _) _), .fail => true
  | _, _ => false

/-- A handler that is about to drop a subscriber. -/
def HandlerPc.dropping : HandlerPc H → Bool
  | .publish (.drop _ _ _ _) => true
  | _ => false

/-- A point at which a handler is not delivering. -/
def HandlerPc.aside (pc : HandlerPc H) : Prop :=
  pc.due = [] ∧ pc.publishing = none ∧ pc.dropping = false

theorem publishing_of_due {pc : HandlerPc H} {t : H} {v : ℕ} (h : (t, v) ∈ pc.due) :
    pc.publishing = some v := by
  unfold HandlerPc.due at h
  split at h
  · obtain ⟨x, -, hx⟩ := List.mem_map.1 h
    rw [← (Prod.mk.inj hx).2]
    rfl
  · obtain ⟨x, -, hx⟩ := List.mem_map.1 h
    rw [← (Prod.mk.inj hx).2]
    rfl
  · cases h

theorem aside_of_atRest {pc : HandlerPc H} (h : pc.atRest = true) : pc.aside := by
  cases pc <;> first | exact ⟨rfl, rfl, rfl⟩ | cases h

theorem aside_cleanup (l : ClientHandler H) : l.cleanup.pc.aside := aside_of_atRest (atRest_cleanup l)

theorem aside_dispatch (cfg : Config) (l : ClientHandler H) (m : Json) :
    (l.dispatch cfg m).pc.aside := by
  have hd := dispatch_cases cfg l m
  generalize l.dispatch cfg m = l' at hd
  cases hd with
  | notDict | unhashable => exact aside_cleanup l
  | ignored | login | refused | read | write | logout | ping | unknown => exact ⟨rfl, rfl, rfl⟩

theorem aside_proceed (l : ClientHandler H) (next : Next) : (l.proceed next).pc.aside := by
  cases next with
  | loop | publish => exact ⟨rfl, rfl, rfl⟩
  | release => exact aside_of_atRest (atRest_releaseSession l .logout)

variable [DecidableEq H] {cfg : Config} {h : H} {s s' : DistResServer H} {l l' : ClientHandler H}
  {a : HandlerAct}

omit [DecidableEq H] in
theorem aside_handleLogin (id : Json) (pc : LoginPc) : (handleLogin cfg h s l id pc).2.pc.aside := by
  exact handleLogin_pc cfg h s id pc (aside_cleanup l) (fun r => ⟨rfl, rfl, rfl⟩)
    fun pc' => ⟨rfl, rfl, rfl⟩

/-- A handler that is not in `publish` is not delivering after the step either. -/
theorem aside_of_step (hs : handlerStep cfg h s l a = some (s', l'))
    (hpc : ∀ pc, l.pc ≠ .publish pc) : l'.pc.aside := by
  cases handlerStep_cases hs with
  | accept => exact ⟨rfl, rfl, rfl⟩
  | receive m => exact aside_dispatch cfg l m
  | hangup | unsent | authenticate | readRaised | writeRaised => exact aside_cleanup l
  | respond r next => exact aside_proceed l next
  | login id pc => exact aside_handleLogin id pc
  | read id u pc a _ hread =>
    obtain ⟨d, pc', -, -, rfl⟩ := handleRead_cases hread
    exact ⟨rfl, rfl, rfl⟩
  | write id content u pc a _ hwrite =>
    obtain ⟨d, pc', -, -, rfl⟩ := handleWrite_cases hwrite
    exact ⟨rfl, rfl, rfl⟩
  | readReturns | writeReturns => exact ⟨rfl, rfl, rfl⟩
  | readDone | writeDone => split <;> exact ⟨rfl, rfl, rfl⟩
  | publish pc _ _ _ _ h1 => exact absurd h1 (hpc pc)
  | published n h1 => exact absurd h1 (hpc _)
  | release pc caller => exact aside_of_atRest (atRest_releaseStep l cfg s caller pc)

/-- **What a step of a handler does** to the EVENTs, if no delivery fails. -/
inductive NotifyEffect (s : DistResServer H) (l : ClientHandler H) (a : HandlerAct)
    (s' : DistResServer H) (l' : ClientHandler H) : Prop
  | quiet : (∀ t, eventVersions (s'.sockets t) = eventVersions (s.sockets t)) →
      l'.pc.due = l.pc.due → (∀ v, l'.pc.publishing = some v → l.pc.publishing = some v) →
      (∀ v, stage l.pc a ≠ some (.published v)) → NotifyEffect s l a s' l'
  | publishes (topic : Text) (e : Update) : s' = s → l.pc = .publish (.snapshot topic e) →
      l'.pc.due = s.broker.items.map (fun x => (x.2, e.version)) →
      l'.pc.publishing = some e.version → stage l.pc a = some (.published e.version) →
      NotifyEffect s l a s' l'
  | delivers (t : H) (v : ℕ) : eventVersions (s'.sockets t) = eventVersions (s.sockets t) ++ [v] →
      (∀ u, u ≠ t → s'.sockets u = s.sockets u) → l.pc.due = (t, v) :: l'.pc.due →
      l.pc.publishing = some v → l'.pc.publishing = some v →
      (∀ v, stage l.pc a ≠ some (.published v)) → NotifyEffect s l a s' l'

theorem handlerStep_notifies (hs : handlerStep cfg h s l a = some (s', l'))
    (hok : deliveryFails l.pc a = false) (hdrop : l.pc.dropping = false) :
    NotifyEffect s l a s' l' ∧ l'.pc.dropping = false := by
  by_cases hp : ∃ pc, l.pc = .publish pc
  · obtain ⟨pc, hpc⟩ := hp
    rw [hpc] at hok hdrop
    cases pc with
    | snapshot topic e =>
      cases a <;> simp only [handlerStep, hpc, handlerStep.publishStep, publish, reduceCtorEq] at hs
      cases hs
      refine ⟨.publishes topic e rfl hpc ?_ rfl (by rw [hpc]; rfl), rfl⟩
      simp only [HandlerPc.due]
    | deliver e todo n =>
      rcases todo with _ | ⟨⟨u, t⟩, todo⟩
      · cases a <;> simp only [handlerStep, hpc, handlerStep.publishStep, publish, reduceCtorEq] at hs
        cases hs
        exact ⟨.quiet (fun _ => rfl) (by rw [hpc]; rfl) (fun _ h => by cases h)
          (fun _ h => by rw [hpc] at h; cases h), rfl⟩
      · cases a with
        | go =>
          obtain ⟨-, rfl, rfl⟩ := deliver_step hpc hs
          refine ⟨.delivers t e.payload.version ?_ (fun v hv => ?_) (by rw [hpc]; rfl) (by rw [hpc]; rfl)
            rfl (fun _ h => by rw [hpc] at h; cases h), rfl⟩
          · simp [DistResServer.send]
          · simp [DistResServer.send, hv]
        | fail => cases hok
        | _ => simp only [handlerStep, hpc, reduceCtorEq] at hs
    | drop => cases hdrop
    | done n =>
      cases a <;> simp only [handlerStep, hpc, reduceCtorEq] at hs
      cases hs
      exact ⟨.quiet (fun _ => rfl) (by rw [hpc]; rfl) (fun _ h => by cases h)
          (fun _ h => by rw [hpc] at h; cases h), rfl⟩
  · have hpc : ∀ pc, l.pc ≠ .publish pc := fun pc hpc => hp ⟨pc, hpc⟩
    obtain ⟨hdue, hpub, hdrop'⟩ := aside_of_step hs hpc
    have hdue₀ : l.pc.due = [] := by
      unfold HandlerPc.due
      split
      · rename_i h1
        exact absurd h1 (hpc _)
      · rename_i h1
        exact absurd h1 (hpc _)
      · rfl
    have hstage : ∀ v, stage l.pc a ≠ some (.published v) := by
      intro v hst
      unfold stage at hst
      split at hst
      · obtain ⟨w, -, hw⟩ := Option.map_eq_some_iff.1 hst
        cases hw
      · cases hst
      · rename_i h1
        exact hpc _ h1
      · cases hst
    refine ⟨.quiet ?_ (hdue.trans hdue₀.symm) (fun v hv => by cases hpub.symm.trans hv) hstage,
      hdrop'⟩
    cases handlerStep_announces hs with
    | quiet _ hsock => exact hsock
    | commits _ hsock => exact fun t => by rw [hsock]
    | returns _ hs => exact fun t => by rw [hs]
    | replies _ _ hsock => exact hsock
    | loses _ hs => exact fun t => by rw [hs]
    | publishes e topic _ h1 => exact absurd h1 (hpc _)
    | delivers t v _ _ _ _ _ hd =>
      rw [hdue₀] at hd
      cases hd

end Effect

/-! ## Every EVENT is sent once -/

section Events

variable {H : Type} [DecidableEq H] {cfg : Config} {h : H} {s s' : DistResServer H}
  {th : H → ClientHandler H} {l' : ClientHandler H} {a : HandlerAct} {published : List ℕ}

/-- The versions that have been published after a step. -/
def publishedAfter (published : List ℕ) : Option Stage → List ℕ
  | some (.published v) => published ++ [v]
  | _ => published

/-- **The invariant of the EVENTs.**  A version is delivered by one handler, from one snapshot, and
what is still to be delivered has not been sent. -/
structure EventInv (d : DistResServer H) (th : H → ClientHandler H) (published : List ℕ) : Prop where
  intact : ∀ h, (th h).pc.dropping = false
  publishing : ∀ h v, (th h).pc.publishing = some v → v ∈ published
  alone : ∀ h k v, (th h).pc.publishing = some v → (th k).pc.publishing = some v → h = k
  dueOnce : ∀ h, (th h).pc.due.Nodup
  unsent : ∀ h t v, (t, v) ∈ (th h).pc.due → v ∉ eventVersions (d.sockets t)
  once : ∀ t, (eventVersions (d.sockets t)).Nodup
  sent : ∀ t, ∀ v ∈ eventVersions (d.sockets t), v ∈ published

theorem publishedAfter_of_ne {st : Option Stage} (h : ∀ v, st ≠ some (.published v)) :
    publishedAfter published st = published := by
  unfold publishedAfter
  split
  · exact absurd rfl (h _)
  · rfl

/-- Distinct entries of the registry have distinct callbacks. -/
def OneEntry (b : PubSubBroker H) : Prop :=
  ∀ u u' t, b.get? u = some t → b.get? u' = some t → u = u'

omit [DecidableEq H] in
theorem OneEntry.nodup {b : PubSubBroker H} (hb : OneEntry b) (v : ℕ) :
    (b.items.map fun x => (x.2, v)).Nodup := by
  refine List.Nodup.map_on ?_ (List.Nodup.of_map _ b.nodup)
  rintro ⟨u, t⟩ hx ⟨u', t'⟩ hx' heq
  obtain rfl : t = t' := (Prod.mk.inj heq).1
  rw [hb u u' t (Dict.mem_items.1 hx) (Dict.mem_items.1 hx')]

/-- The handler delivers no version that it has not delivered before. -/
theorem publishing_of_update (hl : ∀ v, l'.pc.publishing = some v → (th h).pc.publishing = some v) :
    ∀ k v, (Function.update th h l' k).pc.publishing = some v → (th k).pc.publishing = some v :=
  (Function.forall_update_iff th fun k l => ∀ v, l.pc.publishing = some v →
    (th k).pc.publishing = some v).2 ⟨hl, fun _ _ _ hv => hv⟩

theorem EventInv.intact_update (hi : EventInv s th published) (hdrop : l'.pc.dropping = false) :
    ∀ k, (Function.update th h l' k).pc.dropping = false :=
  (Function.forall_update_iff th fun _ l => l.pc.dropping = false).2 ⟨hdrop, fun k _ => hi.intact k⟩

/-- A step that neither publishes nor delivers. -/
theorem EventInv.quiet (hi : EventInv s th published) (hdrop : l'.pc.dropping = false)
    (hsock : ∀ t, eventVersions (s'.sockets t) = eventVersions (s.sockets t))
    (hdue : l'.pc.due = (th h).pc.due)
    (hpub : ∀ v, l'.pc.publishing = some v → (th h).pc.publishing = some v) :
    EventInv s' (Function.update th h l') published := by
  have hpubs := publishing_of_update hpub
  have hdues : ∀ k, (Function.update th h l' k).pc.due = (th k).pc.due :=
    (Function.forall_update_iff th fun k l => l.pc.due = (th k).pc.due).2 ⟨hdue, fun _ _ => rfl⟩
  refine ⟨hi.intact_update hdrop, fun k v hk => hi.publishing k v (hpubs k v hk),
    fun k k' v hk hk' => hi.alone k k' v (hpubs k v hk) (hpubs k' v hk'), fun k => ?_,
    fun k t v hm => ?_, fun t => ?_, fun t v hm => ?_⟩
  · rw [hdues]
    exact hi.dueOnce k
  · rw [hsock]
    exact hi.unsent k t v (hdues k ▸ hm)
  · rw [hsock]
    exact hi.once t
  · rw [hsock] at hm
    exact hi.sent t v hm

/-- The snapshot of a new version. -/
theorem EventInv.publishes {v : ℕ} (hi : EventInv s th published) (hb : OneEntry s.broker)
    (hdrop : l'.pc.dropping = false) (hnew : v ∉ published)
    (hdue : l'.pc.due = s.broker.items.map fun x => (x.2, v)) (hpub : l'.pc.publishing = some v) :
    EventInv s (Function.update th h l') (published ++ [v]) := by
  have hothers : ∀ k, (th k).pc.publishing ≠ some v := fun k hk => hnew (hi.publishing k v hk)
  refine ⟨hi.intact_update hdrop, ?_, fun k k' w hk hk' => ?_, ?_, ?_, hi.once,
    fun t w hm => List.mem_append_left _ (hi.sent t w hm)⟩
  · refine (Function.forall_update_iff th fun _ l => ∀ w, l.pc.publishing = some w →
      w ∈ published ++ [v]).2 ⟨fun w hw => ?_, fun k _ w hw => ?_⟩
    · rw [hpub] at hw
      exact List.mem_append_right _ (List.mem_singleton.2 (Option.some.inj hw).symm)
    · exact List.mem_append_left _ (hi.publishing k w hw)
  · by_cases hkh : k = h <;> by_cases hkh' : k' = h
    · exact hkh.trans hkh'.symm
    · rw [hkh, Function.update_self, hpub] at hk
      rw [Function.update_of_ne hkh', ← hk] at hk'
      exact absurd hk' (hothers k')
    · rw [hkh', Function.update_self, hpub] at hk'
      rw [Function.update_of_ne hkh, ← hk'] at hk
      exact absurd hk (hothers k)
    · rw [Function.update_of_ne hkh] at hk
      rw [Function.update_of_ne hkh'] at hk'
      exact hi.alone k k' w hk hk'
  · refine (Function.forall_update_iff th fun _ l => l.pc.due.Nodup).2 ⟨?_, fun k _ => hi.dueOnce k⟩
    rw [hdue]
    exact hb.nodup v
  · refine (Function.forall_update_iff th fun _ l => ∀ t w, (t, w) ∈ l.pc.due →
      w ∉ eventVersions (s.sockets t)).2 ⟨fun t w hm => ?_, fun k _ => hi.unsent k⟩
    rw [hdue] at hm
    obtain ⟨x, -, hx⟩ := List.mem_map.1 hm
    rw [← (Prod.mk.inj hx).2]
    exact fun hsent => hnew (hi.sent t v hsent)

/-- What is still to be delivered after a delivery is old and another one: nobody else delivers `v`,
and `h` has no second delivery of it to `t`. -/
theorem EventInv.due_of_delivers {t : H} {v : ℕ} (hi : EventInv s th published)
    (hdue : (th h).pc.due = (t, v) :: l'.pc.due) (hpub : (th h).pc.publishing = some v) (k u : H)
    (w : ℕ) (hm : (u, w) ∈ (Function.update th h l' k).pc.due) :
    (u, w) ∈ (th k).pc.due ∧ (u, w) ≠ (t, v) := by
  have honce := hi.dueOnce h
  rw [hdue] at honce
  by_cases hkh : k = h
  · rw [hkh, Function.update_self] at hm
    refine ⟨hkh ▸ hdue ▸ List.mem_cons_of_mem _ hm, ?_⟩
    rintro heq
    exact (List.nodup_cons.1 honce).1 (heq ▸ hm)
  · rw [Function.update_of_ne hkh] at hm
    refine ⟨hm, ?_⟩
    rintro heq
    cases heq
    exact hkh (hi.alone k h v (publishing_of_due hm) hpub)

/-- A delivery. -/
theorem EventInv.delivers {t : H} {v : ℕ} (hi : EventInv s th published)
    (hdrop : l'.pc.dropping = false)
    (ht : eventVersions (s'.sockets t) = eventVersions (s.sockets t) ++ [v])
    (hu : ∀ u, u ≠ t → s'.sockets u = s.sockets u) (hdue : (th h).pc.due = (t, v) :: l'.pc.due)
    (hpub : (th h).pc.publishing = some v) (hpub' : l'.pc.publishing = some v) :
    EventInv s' (Function.update th h l') published := by
  have hpubs := publishing_of_update fun w hw => hpub.trans (hpub'.symm.trans hw)
  refine ⟨hi.intact_update hdrop, fun k w hk => hi.publishing k w (hpubs k w hk),
    fun k k' w hk hk' => hi.alone k k' w (hpubs k w hk) (hpubs k' w hk'), ?_, fun k u w hm => ?_,
    fun u => ?_, fun u w hm => ?_⟩
  · have honce := hi.dueOnce h
    rw [hdue] at honce
    exact (Function.forall_update_iff th fun _ l => l.pc.due.Nodup).2
      ⟨(List.nodup_cons.1 honce).2, fun k _ => hi.dueOnce k⟩
  · obtain ⟨hold, hne⟩ := hi.due_of_delivers hdue hpub k u w hm
    have hunsent := hi.unsent k u w hold
    by_cases hut : u = t
    · subst hut
      rw [ht]
      intro hw
      rcases List.mem_append.1 hw with hw | hw
      · exact hunsent hw
      · exact hne (by rw [List.mem_singleton.1 hw])
    · rw [hu u hut]
      exact hunsent
  · by_cases hut : u = t
    · subst hut
      have hmem : (u, v) ∈ (th h).pc.due := by
        rw [hdue]
        exact List.mem_cons_self
      rw [ht, List.nodup_append]
      refine ⟨hi.once u, List.nodup_singleton _, fun w hw x hx => ?_⟩
      rw [List.mem_singleton.1 hx]
      rintro rfl
      exact hi.unsent h u w hmem hw
    · rw [hu u hut]
      exact hi.once u
  · by_cases hut : u = t
    · subst hut
      rw [ht] at hm
      rcases List.mem_append.1 hm with hm | hm
      · exact hi.sent u w hm
      · rw [List.mem_singleton.1 hm]
        exact hi.publishing h v hpub
    · rw [hu u hut] at hm
      exact hi.sent u w hm

theorem EventInv.step (hi : EventInv s th published) (hb : OneEntry s.broker)
    (hfresh : ∀ v, (th h).pc.carried = some v → v ∉ published)
    (he : NotifyEffect s (th h) a s' l') (hdrop : l'.pc.dropping = false) :
    EventInv s' (Function.update th h l') (publishedAfter published (stage (th h).pc a)) := by
  cases he with
  | quiet hsock hdue hpub hst =>
    rw [publishedAfter_of_ne hst]
    exact hi.quiet hdrop hsock hdue hpub
  | publishes topic e hs hpc hdue hpub hst =>
    subst hs
    rw [hst, publishedAfter]
    exact hi.publishes hb hdrop (hfresh _ (by rw [hpc]; rfl)) hdue hpub
  | delivers t v ht hu hdue hpub hpub' hst =>
    rw [publishedAfter_of_ne hst]
    exact hi.delivers hdrop ht hu hdue hpub hpub'

end Events

/-! ## A session that has been answered is subscribed -/

/-- What has become of the LOGIN of a handler's session. -/
inductive LoginPhase
  | none
  /-- about to be answered, with this version -/
  | read (v : ℕ)
  | answered (v : ℕ)
  deriving DecidableEq

def LoginPhase.version : LoginPhase → Option ℕ
  | .none => Option.none
  | .read v | .answered v => some v

/-- A RESPONSE is sent. -/
def LoginPhase.answer : LoginPhase → LoginPhase
  | .read v => .answered v
  | x => x

/-- In `_release_session`, or past it for good. -/
def HandlerPc.leaving {H : Type} : HandlerPc H → Bool
  | .release _ _ | .ended => true
  | _ => false

/-- About to read the version for the answer to a LOGIN. -/
def HandlerPc.versioning {H : Type} : HandlerPc H → Bool
  | .login _ (.version _) => true
  | _ => false

/-- The phase after a step from `pc` to `pc'`. -/
def LoginPhase.next {H : Type} (x : LoginPhase) (version : ℕ) (pc pc' : HandlerPc H) (a : HandlerAct) :
    LoginPhase :=
  if pc'.leaving then .none
  else
    match pc, a with
    | .login _ (.version _), .go => .read version
    | .respond _ _, .go => x.answer
    | _, _ => x

/-- The user as whom a handler is logged in, from `_user_id = user_id` to its `unsubscribe`. -/
def ClientHandler.loggedIn {H : Type} (l : ClientHandler H) : Option Text :=
  match l.pc with
  | .release (.unregister _) _ | .release .clear _ => none
  | _ => l.userId

section Open

variable {H : Type} [DecidableEq H] {cfg : Config} {h : H} {s s' : DistResServer H}
  {th : H → ClientHandler H} {l l' : ClientHandler H} {a : HandlerAct} {X : H → LoginPhase}

/-- What a step does to the registry of the broker. -/
theorem broker_of_step (hs : handlerStep cfg h s l a = some (s', l')) :
    s'.broker = s.broker ∨
    (∃ id u, l.pc = .login id (.subscribe u) ∧ s'.broker = s.broker.subscribe u h ∧
      l' = { l with pc := .login id (.version u) }) ∨
    (∃ u c, l.pc = .release (.unsubscribe u) c ∧ s'.broker = s.broker.unsubscribe u) ∨
    ∃ u e todo n, l.pc = .publish (.drop u e todo n) ∧ s'.broker = s.broker.unsubscribe u := by
  cases handlerStep_cases hs with
  | login id pc hpc =>
    cases pc with
    | subscribe u => exact .inr (.inl ⟨id, u, hpc, rfl, rfl⟩)
    | authenticate u n =>
      left
      simp only [handleLogin]
      split <;> rfl
    | isActive u n =>
      left
      simp only [handleLogin]
      split <;> rfl
    | acquire u n =>
      left
      simp only [handleLogin]
      split <;> rfl
    | hold | register | version => exact .inl rfl
  | read id u pc a _ hread =>
    obtain ⟨d, pc', -, hin, -⟩ := handleRead_cases hread
    exact .inl hin.broker
  | write id content u pc a _ hwrite =>
    obtain ⟨d, pc', -, hin, -⟩ := handleWrite_cases hwrite
    exact .inl hin.broker
  | publish pc pc' ok b d hpc hok hpub =>
    have hd : ({ s with broker := b }.delivered d).broker = b := by cases d <;> rfl
    rw [hd]
    unfold publish at hpub
    split at hpub
    · cases hpub
      exact .inl rfl
    · split at hpub <;> cases hpub <;> exact .inl rfl
    · cases hpub
      exact .inl rfl
    · cases hpub
      exact .inr (.inr (.inr ⟨_, _, _, _, hpc, rfl⟩))
    · cases hpub
  | release pc caller hpc =>
    cases pc with
    | unsubscribe u => exact .inr (.inr (.inl ⟨u, caller, hpc, rfl⟩))
    | free =>
      left
      simp only [releaseStep]
      split_ifs
      · rfl
      · cases caller <;> rfl
    | unregister | clear | unhold => exact .inl rfl
  | _ => exact .inl rfl

theorem versioning_of_step (hs : handlerStep cfg h s l a = some (s', l'))
    (hv : l'.pc.versioning = true) : ∃ id u, l.pc = .login id (.subscribe u) := by
  have hrest : ∀ {pc : HandlerPc H}, pc.atRest = true → pc.versioning ≠ true := by
    intro pc hr
    cases pc <;> first | exact Bool.false_ne_true | cases hr
  cases handlerStep_cases hs with
  | login id pc hpc =>
    cases pc with
    | subscribe u => exact ⟨id, u, hpc⟩
    | authenticate u n =>
      simp only [handleLogin] at hv
      split at hv
      · cases hv
      · cases hv
      · exact absurd hv (hrest (atRest_cleanup l))
    | isActive u n =>
      simp only [handleLogin] at hv
      split at hv <;> cases hv
    | acquire u n =>
      simp only [handleLogin] at hv
      split at hv <;> cases hv
    | hold | register | version => cases hv
  | receive m =>
    have hd := dispatch_cases cfg l m
    generalize l.dispatch cfg m = l' at hd hv
    cases hd with
    | notDict | unhashable => exact absurd hv (hrest (atRest_cleanup l))
    | ignored | login | refused | read | write | logout | ping | unknown => cases hv
  | hangup | unsent | authenticate | readRaised | writeRaised =>
    exact absurd hv (hrest (atRest_cleanup l))
  | respond r next =>
    cases next with
    | loop | publish => cases hv
    | release => exact absurd hv (hrest (atRest_releaseSession l .logout))
  | read id u pc a _ hread =>
    obtain ⟨d, pc', -, -, rfl⟩ := handleRead_cases hread
    cases hv
  | write id content u pc a _ hwrite =>
    obtain ⟨d, pc', -, -, rfl⟩ := handleWrite_cases hwrite
    cases hv
  | readDone | writeDone => split at hv <;> cases hv
  | release pc caller => exact absurd hv (hrest (atRest_releaseStep l cfg s caller pc))
  | accept | readReturns | writeReturns | publish | published => cases hv

omit [DecidableEq H] in
theorem point_release {pc : HandlerPc H} {p : ReleasePc} {c : Caller} (h : pc.point = .release p c) :
    pc.leaving = true := by
  cases pc with
  | login id pc => cases pc <;> cases h
  | release => rfl
  | _ => cases h

omit [DecidableEq H] in
/-- A handler whose session goes on, or begins to end. -/
theorem SessionStep.goes_on {n : ℕ} {r r' : Registry H} {x x' : Session} {e : Option SessionEvent}
    {u : Text} (hs : SessionStep n h r x e r' x') (hf : x.point.free = true) (hu : x.userId = some u)
    (he : e ≠ some .acquired) :
    x'.point.free = true ∧ x'.userId = some u ∨ ∃ c, x'.point = .release (.unsubscribe u) c := by
  cases hs with
  | work | check | reading | readDone | writing | writeDone | drop => exact .inl ⟨rfl, hu⟩
  | acquire => exact absurd rfl he
  | release caller h1 =>
    obtain ⟨v, b, p⟩ := x
    cases hu
    exact .inr ⟨caller, rfl⟩
  | hold _ h1 | register _ _ h1 | subscribe _ h1 | unsubscribe _ _ h1 | unregister _ _ h1
  | clear _ h1 | free _ h1 | overlogout h1 | overclean h1 | unhold _ h1 =>
    rw [h1] at hf
    cases hf

/-- A session whose LOGIN is being answered, or has been. -/
def Opened (l : ClientHandler H) (x : LoginPhase) : Prop := x ≠ .none ∨ l.pc.versioning = true

/-- **The invariant of the sessions.** -/
def OpenInv (d : DistResServer H) (th : H → ClientHandler H) (X : H → LoginPhase) : Prop :=
  ∀ h, Opened (th h) (X h) →
    (th h).session.point.free = true ∧ ∃ u, (th h).userId = some u ∧ d.broker.get? u = some h

omit [DecidableEq H] in
theorem loggedIn_of_free (hf : l.session.point.free = true) : l.loggedIn = l.userId := by
  obtain ⟨u, b, pc⟩ := l
  cases pc with
  | release => cases hf
  | _ => rfl

/-- A session that is open after a step from which it goes on was open before it. -/
theorem opened_of_next {x : LoginPhase} {v : ℕ} (hs : handlerStep cfg h s l a = some (s', l'))
    (ho : Opened l' (x.next v l.pc l'.pc a)) :
    l'.pc.leaving = false ∧ (Opened l x ∨ ∃ id u, l.pc = .login id (.subscribe u)) := by
  rcases ho with ho | ho
  · unfold LoginPhase.next at ho
    split at ho
    · exact absurd rfl ho
    · rename_i hl
      refine ⟨eq_false_of_ne_true hl, .inl ?_⟩
      split at ho
      · rename_i hpc
        exact .inr (by rw [hpc]; rfl)
      · left
        rintro rfl
        exact ho rfl
      · exact .inl ho
  · refine ⟨?_, .inr (versioning_of_step hs ho)⟩
    generalize l'.pc = pc at ho
    cases pc <;> first | rfl | cases ho

theorem OpenInv.step (hi : OpenInv s th X) (hv : ∀ k, (th k).session.Valid)
    (halone : ∀ k k', ∀ u ∈ (th k).loggedIn, u ∈ (th k').loggedIn → k = k')
    (hsingle : sessionEvent cfg s (th h).pc a = some .acquired → (th h).holdsSession = false)
    (hdrop : (th h).pc.dropping = false) (hs : handlerStep cfg h s (th h) a = some (s', l')) {v : ℕ} :
    OpenInv s' (Function.update th h l') (Function.update X h ((X h).next v (th h).pc l'.pc a)) := by
  have hval := (hv h).2
  have hnodrop : ∀ {u e todo n}, (th h).pc ≠ .publish (.drop u e todo n) := by
    intro u e todo n hpc
    rw [hpc] at hdrop
    cases hdrop
  intro k ho
  by_cases hkh : k = h
  · subst hkh
    simp only [Function.update_self] at ho ⊢
    obtain ⟨hleave, ho⟩ := opened_of_next hs ho
    rcases broker_of_step hs with hb | ⟨id, u, hpc, hb, rfl⟩ | ⟨u, c, hpc, hb⟩ | ⟨u, e, todo, n, hpc, -⟩
    · rcases ho with ho | ⟨id, u, hpc⟩
      · obtain ⟨hfree, u, hu, hget⟩ := hi k ho
        have hacq : sessionEvent cfg s (th k).pc a ≠ some .acquired := by
          intro hacq
          have hholds := (hv k).1 u hu
          rw [show (th k).session.holdsSession = (th k).holdsSession from rfl, hsingle hacq] at hholds
          cases hholds
        rcases (handlerStep_session hs).goes_on hfree hu hacq with ⟨hf', hu'⟩ | ⟨c, hp⟩
        · exact ⟨hf', u, hu', hb ▸ hget⟩
        · rw [point_release hp] at hleave
          cases hleave
      · -- at this point the step is the one of `subscribe`
        have hval : (th k).userId = some u := by
          rw [ClientHandler.session, hpc] at hval
          exact hval
        simp only [handlerStep, hpc, handleLogin] at hs
        cases a <;> cases hs
        exact ⟨rfl, u, hval, Dict.get?_set_self _ _ _⟩
    · rw [ClientHandler.session, hpc] at hval
      exact ⟨rfl, u, hval, hb ▸ Dict.get?_set_self _ _ _⟩
    · rcases ho with ho | ⟨id, u, hpc'⟩
      · have hfree := (hi k ho).1
        rw [ClientHandler.session, hpc] at hfree
        cases hfree
      · rw [hpc] at hpc'
        cases hpc'
    · exact absurd hpc hnodrop
  · simp only [Function.update_of_ne hkh] at ho ⊢
    obtain ⟨hfree, u, hu, hget⟩ := hi k ho
    refine ⟨hfree, u, hu, ?_⟩
    -- nobody else is logged in as `u`
    have hother : ∀ {w : Text}, (th h).loggedIn = some w → u ≠ w := by
      rintro w hw rfl
      exact hkh (halone k h u ((loggedIn_of_free hfree).trans hu) hw)
    rcases broker_of_step hs with hb | ⟨id, w, hpc, hb, -⟩ | ⟨w, c, hpc, hb⟩ | ⟨w, e, todo, n, hpc, -⟩
    · rw [hb]
      exact hget
    · have hval : (th h).userId = some w := by
        rw [ClientHandler.session, hpc] at hval
        exact hval
      rw [hb]
      exact (Dict.get?_set_of_ne _ _ (hother (by rw [ClientHandler.loggedIn, hpc]; exact hval))).trans hget
    · have hval : (th h).userId = some w := by
        rw [ClientHandler.session, hpc] at hval
        exact hval
      rw [hb]
      exact (Dict.get?_pop_of_ne _ (hother (by rw [ClientHandler.loggedIn, hpc]; exact hval))).trans hget
    · exact absurd hpc hnodrop

end Open

/-! ## No version is missed -/

section Told

variable {H : Type} [DecidableEq H] {cfg : Config} {file : Bytes} {h : H} {s s' : DistResServer H}
  {th : H → ClientHandler H} {l' : ClientHandler H} {a : HandlerAct} {X : H → LoginPhase}
  {published : List ℕ}

/-- Every published version that is later than the one in its answer has been sent to a session, or
a handler still has it to deliver. -/
def ToldInv (d : DistResServer H) (th : H → ClientHandler H) (X : H → LoginPhase)
    (published : List ℕ) : Prop :=
  ∀ h v, (X h).version = some v → ∀ w ∈ published, v < w →
    w ∈ eventVersions (d.sockets h) ∨ ∃ k, (h, w) ∈ (th k).pc.due

omit [DecidableEq H] in
theorem version_of_next {x : LoginPhase} {v w : ℕ} {pc pc' : HandlerPc H}
    (hw : (x.next v pc pc' a).version = some w) :
    x.version = some w ∨ w = v ∧ pc.versioning = true := by
  unfold LoginPhase.next at hw
  split at hw
  · cases hw
  · split at hw
    · exact .inr ⟨(Option.some.inj hw).symm, rfl⟩
    · left
      cases x <;> exact hw
    · exact .inl hw

theorem due_update {k t : H} {w : ℕ} (hm : (t, w) ∈ (th k).pc.due)
    (hl : (t, w) ∈ (th h).pc.due → (t, w) ∈ l'.pc.due) :
    ∃ k, (t, w) ∈ (Function.update th h l' k).pc.due := by
  refine ⟨k, ?_⟩
  by_cases hkh : k = h
  · subst hkh
    rw [Function.update_self]
    exact hl hm
  · rwa [Function.update_of_ne hkh]

theorem ToldInv.step (hi : ToldInv s th X published) (ho : OpenInv s th X)
    (hbound : ∀ w ∈ published, w ≤ s.data.version) (he : NotifyEffect s (th h) a s' l') :
    ToldInv s' (Function.update th h l')
      (Function.update X h ((X h).next s.data.version (th h).pc l'.pc a))
      (publishedAfter published (stage (th h).pc a)) := by
  intro t v hv w hw hlt
  -- a session that reads the version now has been told of nothing later, and there is nothing
  have hold : (X t).version = some v ∨ v = s.data.version ∧ (th h).pc.versioning = true := by
    by_cases hth : t = h
    · subst hth
      rw [Function.update_self] at hv
      exact version_of_next hv
    · rw [Function.update_of_ne hth] at hv
      exact .inl hv
  have hearlier : w ∈ published →
      w ∈ eventVersions (s.sockets t) ∨ ∃ k, (t, w) ∈ (th k).pc.due := by
    intro hw
    rcases hold with hv | ⟨rfl, -⟩
    · exact hi t v hv w hw hlt
    · exact absurd (hbound w hw) (Nat.not_le.2 hlt)
  cases he with
  | quiet hsock hdue _ hst =>
    rw [publishedAfter_of_ne hst] at hw
    rcases hearlier hw with hsent | ⟨k, hm⟩
    · exact .inl (by rw [hsock]; exact hsent)
    · exact .inr (due_update hm fun hm => by rw [hdue]; exact hm)
  | publishes topic e hs hpc hdue _ hst =>
    subst hs
    have hnone : (th h).pc.due = [] := by rw [hpc]; rfl
    rw [hst, publishedAfter] at hw
    rcases List.mem_append.1 hw with hw | hw
    · rcases hearlier hw with hsent | ⟨k, hm⟩
      · exact .inl hsent
      · exact .inr (due_update hm fun hm => absurd (hnone ▸ hm) List.not_mem_nil)
    · -- the snapshot has an entry of every session that has read its version
      rcases hold with hv | ⟨-, hver⟩
      · have hopen : Opened (th t) (X t) := .inl fun hx => by
          rw [hx] at hv
          cases hv
        obtain ⟨-, u, -, hget⟩ := ho t hopen
        refine .inr ⟨h, ?_⟩
        rw [Function.update_self, hdue, List.mem_singleton.1 hw]
        exact List.mem_map.2 ⟨(u, t), Dict.mem_items.2 hget, rfl⟩
      · rw [hpc] at hver
        cases hver
  | delivers u x hu hothers hdue _ _ hst =>
    rw [publishedAfter_of_ne hst] at hw
    have hkeep : w ∈ eventVersions (s.sockets t) → w ∈ eventVersions (s'.sockets t) := by
      intro hsent
      by_cases htu : t = u
      · rw [htu, hu]
        exact List.mem_append_left _ (htu ▸ hsent)
      · rwa [hothers t htu]
    rcases hearlier hw with hsent | ⟨k, hm⟩
    · exact .inl (hkeep hsent)
    · by_cases htu : (t, w) = (u, x)
      · cases htu
        left
        rw [hu]
        exact List.mem_append_right _ (List.mem_singleton_self _)
      · refine .inr (due_update hm fun hm => ?_)
        rw [hdue] at hm
        exact (List.mem_cons.1 hm).resolve_left htu

/-- The server with the stages of its writes and the phases of its LOGINs. -/
def notifyingServer (cfg : Config) (H : Type) [DecidableEq H] (file : Bytes) :=
  (announcingServer cfg H file).withHistory (fun _ : H => LoginPhase.none) fun X p a p' =>
    Function.update X a.1
      ((X a.1).next p.1.shared.data.version (p.1.thread a.1).pc (p'.1.thread a.1).pc a.2)

/-- No delivery fails, no user is logged in by two handlers, and no connection takes a slot while it
holds one. -/
def Orderly (cfg : Config) (s : Pool.State H (DistResServer H) (ClientHandler H))
    (a : H × HandlerAct) : Prop :=
  deliveryFails (s.thread a.1).pc a.2 = false ∧
  (∀ h k, ∀ u ∈ (s.thread h).loggedIn, u ∈ (s.thread k).loggedIn → h = k) ∧
  (sessionEvent cfg s.shared (s.thread a.1).pc a.2 = some .acquired →
    (s.thread a.1).holdsSession = false)

variable [Fintype H]

/-- While no connection takes a second slot, an entry of the registry belongs to its user. -/
theorem oneEntry_of_reach {s : Pool.State H (DistResServer H) (ClientHandler H)}
    (hr : (serverMachine cfg H file).Reach (fun s a =>
      sessionEvent cfg s.shared (s.thread a.1).pc a.2 = some .acquired →
        (s.thread a.1).holdsSession = false) s) : OneEntry s.shared.broker := by
  have hrecord : ∃ L, (ledgerServer cfg H file).Reach (SingleLogin cfg) (s, L) := hr.record
  obtain ⟨L, hL⟩ := hrecord
  have howners := (ledgerInv_of_reach hL).owners
  intro u u' t hu hu'
  have h1 := (howners.broker u t hu).1.1
  have h2 := (howners.broker u' t hu').1.1
  exact Option.some.inj (h1.symm.trans h2)

/-- **The invariants of the notifications.** -/
structure NotificationInv (s : Pool.State H (DistResServer H) (ClientHandler H)) (published : List ℕ)
    (X : H → LoginPhase) : Prop where
  events : EventInv s.shared s.thread published
  opened : OpenInv s.shared s.thread X
  told : ToldInv s.shared s.thread X published

theorem published_reach {H : Type} (A : Announcements H) (h : H) (st : Option Stage) :
    (A.reach h st).published = publishedAfter A.published st := by
  rcases st with _ | (v | v | v) <;> rfl

theorem notificationInv_of_reach
    {p : (Pool.State H (DistResServer H) (ClientHandler H) × Announcements H) × (H → LoginPhase)}
    (hr : (notifyingServer cfg H file).Reach (fun p => Orderly cfg p.1.1) p) :
    NotificationInv p.1.1 p.1.2.published p.2 := by
  refine hr.invariant (fun p => NotificationInv p.1.1 p.1.2.published p.2) ?_ ?_
  · rintro ⟨⟨s, A⟩, X⟩ ⟨⟨⟨hs, hth⟩, hA⟩, hX⟩
    simp only at hs hth hA hX ⊢
    subst hA hX
    have hs : s.shared = { data := { file := file }, sessions := cfg.maxSessions } := hs
    have hth : ∀ h, s.thread h = {} := hth
    refine ⟨⟨?_, ?_, ?_, ?_, ?_, ?_, ?_⟩, ?_, ?_⟩
    · exact fun h => by rw [hth]; rfl
    · exact fun h v hv => by rw [hth] at hv; cases hv
    · exact fun h k v hv => by rw [hth] at hv; cases hv
    · exact fun h => by rw [hth]; exact List.nodup_nil
    · exact fun h t v hm => by rw [hth] at hm; cases hm
    · exact fun t => by rw [hs]; exact List.nodup_nil
    · exact fun t v hm => by rw [hs] at hm; cases hm
    · rintro h (ho | ho)
      · exact absurd rfl ho
      · rw [hth] at ho
        cases ho
    · exact fun h v hv => by cases hv
  · rintro ⟨⟨s, A⟩, X⟩ ⟨h, a⟩ ⟨⟨s', A'⟩, X'⟩ hreach ih ⟨hok, halone, hsingle⟩ hs
    obtain ⟨hs, hX⟩ := Machine.withHistory_step.1 hs
    obtain ⟨hs, hA⟩ := Machine.withHistory_step.1 hs
    obtain ⟨d, l, hstep, rfl⟩ := Pool.machine_step.1 hs
    simp only at hA hX ih hok halone hsingle ⊢
    subst hA hX
    have hannounced : (announcingServer cfg H file).Reach (fun p => Orderly cfg p.1) (s, A) :=
      Machine.Reach.erase (M := announcingServer cfg H file) (p := ((s, A), X)) hreach
    have hserver : (serverMachine cfg H file).Reach (Orderly cfg) s :=
      Machine.Reach.erase (M := serverMachine cfg H file) (p := (s, A)) hannounced
    have hone : OneEntry s.shared.broker := oneEntry_of_reach (hserver.mono fun _ _ hok => hok.2.2)
    have hann := announceInv_of_reachable hannounced.reachable
    obtain ⟨slots, hslots⟩ := slotInv_of_reachable hserver.reachable
    obtain ⟨heff, hdrop⟩ := handlerStep_notifies hstep hok (ih.events.intact h)
    rw [published_reach, Function.update_self]
    exact ⟨ih.events.step hone (hann.unpublished h) heff hdrop,
      ih.opened.step hslots.valid halone hsingle (ih.events.intact h) hstep,
      ih.told.step ih.opened hann.publishedBound heff⟩

/-- **No gap after a login.**  In every run in which no delivery fails, no user is logged in by two
handlers and no connection takes a second slot: a session whose LOGIN was answered with a version is
sent one EVENT for every later version whose `publish` is over.  On no socket is a version sent
twice. -/
theorem notified_after_login
    {p : (Pool.State H (DistResServer H) (ClientHandler H) × Announcements H) × (H → LoginPhase)}
    (hr : (notifyingServer cfg H file).Reach (fun p => Orderly cfg p.1.1) p) (h : H) :
    (∀ w v, p.2 h = .answered w → w < v → v ∈ p.1.2.published →
      (∀ k, (p.1.1.thread k).pc.publishing ≠ some v) →
        (eventVersions (p.1.1.shared.sockets h)).count v = 1) ∧
    ∀ v, (eventVersions (p.1.1.shared.sockets h)).count v ≤ 1 := by
  have hi := notificationInv_of_reach hr
  refine ⟨fun w v hx hlt hpub hover => ?_, fun v => List.nodup_iff_count_le_one.1 (hi.events.once h) v⟩
  rcases hi.told h w (by rw [hx]; rfl) v hpub hlt with hsent | ⟨k, hm⟩
  · exact List.count_eq_one_of_mem (hi.events.once h) hsent
  · exact absurd (publishing_of_due hm) (hover k)

instance : DecidableRel (Orderly (H := H) cfg) := fun _ _ => by
  unfold Orderly
  infer_instance

/-- A client logs in while another one commits: it reads the version before the commit, and is
answered after the snapshot. -/
def notifiedRun (h k : H) : List (H × HandlerAct) :=
  (h, .accept) :: acceptLogin h (lit "ENG001") (lit "Alice") ++
    (k, .accept) :: (acceptLogin k (lit "ENG002") (lit "Bob")).take 8 ++
    commitWrite h (lit "a") 16 ++ (h, .go) :: (h, .go) :: (k, .go) :: List.replicate 4 (h, .go)

theorem notifiedRun_notified :
    ∃ p, (notifyingServer shippedConfig (Fin 2) []).runIf (fun p => Orderly shippedConfig p.1.1)
        ((serverStart shippedConfig, {}), fun _ => .none) (notifiedRun 0 1) = some p ∧
      p.2 1 = .answered 0 ∧ (eventVersions (p.1.1.shared.sockets 1)).count 1 = 1 := by
  have hs : ((notifyingServer shippedConfig (Fin 2) []).runIf (fun p => Orderly shippedConfig p.1.1)
      ((serverStart shippedConfig, {}), fun _ => .none) (notifiedRun 0 1)).map (fun p =>
        (p.2 1, p.1.2.published, (p.1.1.thread 0).pc.publishing, (p.1.1.thread 1).pc.publishing)) =
          some (.answered 0, [1], none, none) := by decide
  obtain ⟨p, hrun, hval⟩ := Option.map_eq_some_iff.1 hs
  simp only [Prod.mk.injEq] at hval
  obtain ⟨hx, hpub, h0, h1⟩ := hval
  have hr : (notifyingServer shippedConfig (Fin 2) []).Reach (fun p => Orderly shippedConfig p.1.1) p :=
    Machine.Reach.runIf (s := ((serverStart shippedConfig, {}), fun _ => .none))
      (.init ⟨⟨⟨rfl, fun _ => rfl⟩, rfl⟩, rfl⟩) hrun
  have hover : ∀ k, (p.1.1.thread k).pc.publishing ≠ some 1 :=
    Fin.forall_fin_two.2 ⟨by simp [h0], by simp [h1]⟩
  exact ⟨p, hrun, hx, (notified_after_login hr 1).1 0 1 hx Nat.one_pos (by simp [hpub]) hover⟩

end Told

end DistRes
