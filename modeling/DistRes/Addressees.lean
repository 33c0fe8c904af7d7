import DistRes.Broker

/-!
# To whom events go

`publish` delivers from a snapshot of the registry, outside the broker's lock, so that an EVENT may go
out on a connection whose session has been released in the meantime.  It goes to nobody who had no
session when the snapshot was taken, as long as no connection logs in again inside a session.

* `Addressees` — the sessions as every publisher has found them at its last snapshot, and the
  connections that have got a second slot;
* `SubscriberInv` — an entry of the broker belongs to the session of its user;
* `events_from_sessions` — every EVENT was addressed to a session.
-/

namespace DistRes

open Lib

/-- What the publishers have found. -/
structure Addressees (H : Type) where
  /-- the connections whose handler has got a slot while it held one -/
  again : H → Bool := fun _ => false
  /-- the user ids of all handlers at the last snapshot of a handler -/
  seen : H → H → Option Text := fun _ _ => none

section Addressees

variable {H : Type} [DecidableEq H] {cfg : Config} {file : Bytes}

/-- The handler takes the snapshot of its `publish`. -/
def takesSnapshot : HandlerPc H → HandlerAct → Bool
  | .publish (.snapshot _ _), .go => true
  | _, _ => false

/-- The connections with a second slot after a step of `h`, which holds one already if `holds`. -/
def againAfter (again : H → Bool) (h : H) (holds : Bool) : Option SessionEvent → H → Bool
  | some .acquired => Function.update again h (again h || holds)
  | _ => again

/-- The addressees after a step of `h`. -/
def Addressees.next (A : Addressees H) (th : H → ClientHandler H) (h : H) (a : HandlerAct)
    (e : Option SessionEvent) : Addressees H where
  again := againAfter A.again h (th h).holdsSession e
  seen := if takesSnapshot (th h).pc a then Function.update A.seen h fun k => (th k).userId else A.seen

/-- The server with the addressees of its events. -/
def addressedServer (cfg : Config) (H : Type) [DecidableEq H] (file : Bytes) :=
  (serverMachine cfg H file).withHistory ({} : Addressees H) fun A s a _ =>
    A.next s.thread a.1 a.2 (sessionEvent cfg s.shared (s.thread a.1).pc a.2)

/-! ## The entries of the broker -/

/-- **The invariant of the subscribers**: an entry of `u` belongs to a handler whose user is `u`, but
for the handlers that have got a second slot. -/
structure SubscriberInv (r : Registry H) (x : H → Session) (again : H → Bool) : Prop where
  broker : ∀ u k, r.broker.get? u = some k → again k = false → (x k).Subscribes u
  single : ∀ k u, (x k).point = .hold u → again k = false → (x k).holdsSession = false

variable {n : ℕ} {h : H} {r r' : Registry H} {x : H → Session} {x' : Session}
  {e : Option SessionEvent} {again : H → Bool}

/-- Neither in `_handle_login` with a new slot, nor past `unsubscribe` in a release. -/
def SessionPoint.steady : SessionPoint → Bool
  | .hold _ | .release .clear _ | .release (.unregister _) _ => false
  | _ => true

theorem steady_release (s : Session) (caller : Caller) : (s.release caller).point.steady = true := by
  obtain ⟨u, b, p⟩ := s
  rcases u with _ | u <;> rcases b with _ | _ <;> rcases caller with _ | _ <;> rfl

theorem not_hold_of_steady {p : SessionPoint} (hp : p.steady = true) (u : Text) : p ≠ .hold u := by
  rintro rfl
  cases hp

theorem subscribes_of_steady {s : Session} {u : Text} (hu : s.userId = some u)
    (hp : s.point.steady = true) : s.Subscribes u := by
  refine ⟨⟨hu, fun c hc => ?_⟩, fun v c hc => ?_⟩ <;> rw [hc] at hp <;> cases hp

/-- A step of `h` that takes no slot, and adds no entry but for `h` itself. -/
theorem SubscriberInv.moves (hi : SubscriberInv r x again)
    (hb : ∀ u k, k ≠ h → r'.broker.get? u = some k → r.broker.get? u = some k)
    (hsub : ∀ u, r'.broker.get? u = some h → again h = false → x'.Subscribes u)
    (hhold : ∀ u, x'.point ≠ .hold u) : SubscriberInv r' (Function.update x h x') again := by
  refine ⟨fun u k hk hagain => ?_, fun k u hk hagain => ?_⟩
  · by_cases hkh : k = h
    · subst hkh
      rw [Function.update_self]
      exact hsub u hk hagain
    · rw [Function.update_of_ne hkh]
      exact hi.broker u k (hb u k hkh hk) hagain
  · by_cases hkh : k = h
    · subst hkh
      rw [Function.update_self] at hk
      exact absurd hk (hhold u)
    · rw [Function.update_of_ne hkh] at hk ⊢
      exact hi.single k u hk hagain

/-- A handler with an entry is in the session of its user, and not at the end of its release. -/
theorem SubscriberInv.step (hi : SubscriberInv r x again) (hs : SessionStep n h r (x h) e r' x')
    (hv : (x h).Valid) :
    SubscriberInv r' (Function.update x h x') (againAfter again h (x h).holdsSession e) := by
  have hval := hv.2
  -- the user id stays, and the release does not go past `unsubscribe`
  have stays : ∀ {r' : Registry H} {x' : Session}, r'.broker = r.broker → x'.userId = (x h).userId →
      x'.point.steady = true → SubscriberInv r' (Function.update x h x') again := by
    intro r' x' hb hu hp
    refine hi.moves (fun u k _ hk => by rwa [hb] at hk) (fun u hk hagain => ?_) (not_hold_of_steady hp)
    rw [hb] at hk
    exact subscribes_of_steady (hu.trans (hi.broker u h hk hagain).1.1) hp
  -- a handler with no entry
  have bare : ∀ {r' : Registry H} {x' : Session}, r'.broker = r.broker →
      (∀ u, ¬ (x h).Subscribes u) → (∀ u, x'.point ≠ .hold u) →
      SubscriberInv r' (Function.update x h x') again := by
    intro r' x' hb hno h4
    refine hi.moves (fun u k _ hk => by rwa [hb] at hk) (fun u hk hagain => ?_) h4
    rw [hb] at hk
    exact absurd (hi.broker u h hk hagain) (hno u)
  cases hs with
  | acquire u h1 h2 =>
    have hless : ∀ k, againAfter again h (x h).holdsSession (some .acquired) k = false →
        again k = false ∧ (k = h → (x h).holdsSession = false) := by
      intro k hk
      simp only [againAfter] at hk
      by_cases hkh : k = h
      · rw [hkh, Function.update_self, Bool.or_eq_false_iff] at hk
        exact ⟨hkh ▸ hk.1, fun _ => hk.2⟩
      · rw [Function.update_of_ne hkh] at hk
        exact ⟨hk, fun h' => absurd h' hkh⟩
    refine ⟨fun v k hk hagain => ?_, fun k v hk hagain => ?_⟩
    · have hsub := hi.broker v k hk (hless k hagain).1
      by_cases hkh : k = h
      · subst hkh
        rw [Function.update_self]
        refine ⟨⟨hsub.1.1, fun c hc => ?_⟩, fun w c hc => ?_⟩ <;> cases hc
      · rwa [Function.update_of_ne hkh]
    · obtain ⟨h3, h4⟩ := hless k hagain
      by_cases hkh : k = h
      · subst hkh
        rw [Function.update_self]
        exact h4 rfl
      · rw [Function.update_of_ne hkh] at hk ⊢
        exact hi.single k v hk h3
  | hold u h1 =>
    refine hi.moves (fun _ _ _ => id) (fun v hk hagain => ?_) (not_hold_of_steady rfl)
    -- the handler had no session, and so no entry
    have := hv.1 v (hi.broker v h hk hagain).1.1
    rw [hi.single h u h1 hagain] at this
    cases this
  | subscribe u h1 =>
    rw [h1] at hval
    refine hi.moves (fun v k hkh hk => ?_) (fun v hk hagain => subscribes_of_steady ?_ rfl)
      (not_hold_of_steady rfl)
    · simp only [Dict.get?_set] at hk
      split_ifs at hk with hvu
      · exact absurd (Option.some.inj hk).symm hkh
      · exact hk
    · simp only [Dict.get?_set] at hk
      split_ifs at hk with hvu
      · exact hvu ▸ hval
      · exact (hi.broker v h hk hagain).1.1
  | drop u h1 =>
    refine hi.moves (fun v k _ hk => ?_) (fun v hk hagain => subscribes_of_steady ?_ rfl)
      (not_hold_of_steady rfl)
    · simp only [Dict.get?_pop] at hk
      split_ifs at hk
      exact hk
    · simp only [Dict.get?_pop] at hk
      split_ifs at hk
      exact (hi.broker v h hk hagain).1.1
  | release caller h1 => exact stays rfl (release_userId _ caller) (steady_release _ caller)
  | overlogout h1 h2 => exact stays rfl (release_userId _ _) (steady_release _ _)
  | unsubscribe u caller h1 =>
    rw [h1] at hval
    refine hi.moves (fun v k _ hk => ?_) (fun v hk hagain => ?_) (fun v hv' => by cases hv')
    · simp only [Dict.get?_pop] at hk
      split_ifs at hk
      exact hk
    · simp only [Dict.get?_pop] at hk
      split_ifs at hk with hvu
      exact absurd (Option.some.inj ((hi.broker v h hk hagain).1.1.symm.trans hval)) hvu
  | unregister u caller h1 =>
    exact bare rfl (fun v hsub => hsub.2 u caller h1) (fun v hv' => by cases hv')
  | clear caller h1 =>
    exact bare rfl (fun v hsub => hsub.1.2 caller h1) (not_hold_of_steady (steady_release _ caller))
  | unhold caller h1 =>
    rw [h1] at hval
    refine bare rfl (fun v hsub => ?_) ?_
    · have hnone := hval.1.symm.trans hsub.1.1
      cases hnone
    · cases caller <;> exact not_hold_of_steady rfl
  | work | check | register | reading | readDone | writing | writeDone | free | overclean =>
    exact stays rfl rfl rfl

/-! ## The entries of a snapshot -/

/-- The entries of its snapshot that a publisher has not come to yet. -/
def HandlerPc.todo : HandlerPc H → List (Text × H)
  | .publish (.deliver _ todo _) | .publish (.drop _ _ todo _) => todo
  | _ => []

variable {s s' : DistResServer H} {l l' : ClientHandler H} {a : HandlerAct}

omit [DecidableEq H] in
theorem todo_of_idle {pc : HandlerPc H} (h : pc.brokerCall = .idle) : pc.todo = [] := by
  cases pc <;> first | rfl | cases h

/-- A step takes the snapshot, or leaves no entry to come to that was not there before. -/
theorem todo_step (hs : handlerStep cfg h s l a = some (s', l')) :
    (takesSnapshot l.pc a = true ∧ l'.pc.todo = s.broker.items) ∨
      takesSnapshot l.pc a = false ∧ ∀ y ∈ l'.pc.todo, y ∈ l.pc.todo := by
  by_cases hp : ∃ pc, l.pc = .publish pc
  · obtain ⟨pc, hpc⟩ := hp
    cases handlerStep_cases hs with
    | publish pc' pc'' ok b d h1 hok hpub =>
      rw [h1]
      cases pc' with
      | snapshot topic e =>
        cases hpub
        cases ok with
        | true => exact .inl ⟨rfl, rfl⟩
        | false =>
          obtain ⟨_, _, _, _, h⟩ := hok rfl
          cases h
      | deliver e todo n =>
        refine .inr ⟨by cases ok <;> rfl, ?_⟩
        rcases todo with _ | ⟨⟨u, c⟩, todo⟩
        · cases hpub
          exact fun y hy => hy
        · cases ok <;> cases hpub <;> exact fun y hy => List.mem_cons_of_mem _ hy
      | drop u e todo n =>
        refine .inr ⟨by cases ok <;> rfl, ?_⟩
        cases hpub
        exact fun y hy => hy
      | done n => cases hpub
    | published n h1 => exact .inr ⟨by rw [h1]; rfl, nofun⟩
    | _ => simp_all
  · have hne : ∀ pc, l.pc ≠ .publish pc := fun pc hpc => hp ⟨pc, hpc⟩
    have hno : takesSnapshot l.pc a = false := by
      unfold takesSnapshot
      split
      · rename_i hpc
        exact absurd hpc (hne _)
      · rfl
    refine .inr ⟨hno, ?_⟩
    rcases brokerCall_of_step hs hne with hidle | ⟨-, topic, e, hpc⟩
    · rw [todo_of_idle hidle]
      exact nofun
    · rw [hpc]
      exact nofun

/-- What a publisher has still to come to was in a session, as it has found. -/
structure AddressInv (s : DistResServer H) (th : H → ClientHandler H) (A : Addressees H) : Prop where
  subscribers : SubscriberInv s.registry (fun k => (th k).session) A.again
  seen : ∀ t u k, (u, k) ∈ (th t).pc.todo → A.again k = false → A.seen t k = some u

theorem again_mono {A : Addressees H} {th : H → ClientHandler H} {t k : H} {e : Option SessionEvent}
    (hk : (A.next th t a e).again k = false) : A.again k = false := by
  simp only [Addressees.next] at hk
  unfold againAfter at hk
  split at hk
  · by_cases hkt : k = t
    · rw [hkt, Function.update_self, Bool.or_eq_false_iff] at hk
      exact hkt ▸ hk.1
    · rwa [Function.update_of_ne hkt] at hk
  · exact hk

variable [Fintype H]

omit [Fintype H] in
theorem AddressInv.step {th : H → ClientHandler H} {A : Addressees H} {t : H}
    (hi : AddressInv s th A) (hv : (th t).session.Valid)
    (hs : handlerStep cfg t s (th t) a = some (s', l')) :
    AddressInv s' (Function.update th t l') (A.next th t a (sessionEvent cfg s (th t).pc a)) := by
  refine ⟨?_, fun k u j hj hagain => ?_⟩
  · rw [session_update]
    exact hi.subscribers.step (handlerStep_session hs) hv
  · have hold := again_mono hagain
    simp only [Addressees.next]
    by_cases hk : k = t
    · subst hk
      rw [Function.update_self] at hj
      rcases todo_step hs with ⟨htakes, htodo⟩ | ⟨hno, hsub⟩
      · -- the snapshot: its entries are those of the broker
        rw [if_pos htakes, Function.update_self]
        rw [htodo] at hj
        exact (hi.subscribers.broker u j (Dict.mem_items.1 hj) hold).1.1
      · rw [if_neg (by rw [hno]; nofun)]
        exact hi.seen k u j (hsub _ hj) hold
    · rw [Function.update_of_ne hk] at hj
      split
      · rw [Function.update_of_ne hk]
        exact hi.seen k u j hj hold
      · exact hi.seen k u j hj hold

variable {p q : Pool.State H (DistResServer H) (ClientHandler H) × Addressees H}

theorem addressInv_of_reachable (hr : (addressedServer cfg H file).Reachable p) :
    AddressInv p.1.shared p.1.thread p.2 := by
  refine hr.invariant (fun p => AddressInv p.1.shared p.1.thread p.2) ?_ ?_
  · rintro ⟨s, A⟩ ⟨⟨hs, hth⟩, hA⟩
    have hs : s.shared = { data := { file := file }, sessions := cfg.maxSessions } := hs
    have hth : ∀ k, s.thread k = {} := hth
    simp only at hA ⊢
    subst hA
    refine ⟨⟨fun u k hk => ?_, fun k u hk => ?_⟩, fun t u k hk => ?_⟩
    · rw [hs] at hk
      cases hk
    · rw [hth] at hk
      cases hk
    · rw [hth] at hk
      cases hk
  · rintro ⟨s, A⟩ ⟨t, a⟩ ⟨s', A'⟩ hr hi hs
    obtain ⟨hserver, hA⟩ := Machine.withHistory_step.1 hs
    obtain ⟨d, l, hstep, rfl⟩ := Pool.machine_step.1 hserver
    simp only at hA hi ⊢
    subst hA
    obtain ⟨slots, hslots⟩ := slotInv_of_reachable (Machine.Reach.erase hr)
    exact hi.step (hslots.valid t) hstep

/-- **Events are addressed to sessions.**  An EVENT goes out on a connection only from a publisher that
has found, in the snapshot of its `publish`, the handler of the connection subscribed and in the session
of its user; unless the connection has got a slot inside a session. -/
theorem events_from_sessions (hr : (addressedServer cfg H file).Reachable p) {t k : H} {e : Event}
    (hs : (addressedServer cfg H file).step p (t, a) = some q)
    (he : q.1.shared.sockets k = p.1.shared.sockets k ++ [.event e])
    (hagain : p.2.again k = false) :
    ∃ u todo n, (p.1.thread t).pc = .publish (.deliver e ((u, k) :: todo) n) ∧
      p.2.seen t k = some u := by
  obtain ⟨hserver, -⟩ := Machine.withHistory_step.1 hs
  obtain ⟨d, l, hstep, hq⟩ := Pool.machine_step.1 hserver
  have hi := addressInv_of_reachable hr
  have hshared : q.1.shared = d := by rw [hq]
  rw [hshared] at he
  cases handlerStep_sends hstep with
  | nothing hsock =>
    rw [hsock] at he
    simp at he
  | response r next _ _ hd =>
    rw [hd] at he
    by_cases hk : k = t
    · subst hk
      simp [DistResServer.send] at he
    · simp [DistResServer.send, hk] at he
  | event e' u k' todo n hpc _ hd =>
    rw [hd] at he
    by_cases hk : k = k'
    · subst hk
      have he' : e' = e := by simpa [DistResServer.send] using he
      subst he'
      exact ⟨u, todo, n, hpc, hi.seen t u k (by rw [hpc]; exact List.mem_cons_self) hagain⟩
    · simp [DistResServer.send, hk] at he

/-! ### Runs -/

/-- `w` takes the snapshot of its `publish` with `h` in it; `h` logs out and releases its session. -/
def logoutRun (h w : H) : List (H × HandlerAct) :=
  (h, .accept) :: acceptLogin h (lit "ENG001") (lit "Alice") ++
    (w, .accept) :: acceptLogin w (lit "ENG002") (lit "Bob") ++ commitWrite w (lit "a") 16 ++
    (w, .go) :: (w, .go) :: (h, .receive (requestMessage 2 actionLogout [])) ::
      List.replicate 6 (h, .go)

/-- The delivery comes when `h` has no session. -/
theorem logoutRun_delivers :
    ¬ ∀ p, (serverMachine shippedConfig (Fin 2) []).Reachable p → ∀ t a q,
      (serverMachine shippedConfig (Fin 2) []).step p (t, a) = some q →
        ∀ k e, q.shared.sockets k = p.shared.sockets k ++ [.event e] → (p.thread k).userId ≠ none := by
  intro hall
  have hs : ∃ p q e, (serverMachine shippedConfig (Fin 2) []).run (serverStart shippedConfig)
      (logoutRun 0 1) = some p ∧ (serverMachine shippedConfig (Fin 2) []).step p (1, .go) = some q ∧
        q.shared.sockets 0 = p.shared.sockets 0 ++ [.event e] ∧ (p.thread 0).userId = none :=
    ⟨_, _, _, rfl, rfl, rfl, rfl⟩
  obtain ⟨p, q, e, hrun, hstep, he, hu⟩ := hs
  exact hall p (Machine.Reachable.run (s := serverStart shippedConfig) (.init ⟨rfl, fun _ => rfl⟩) hrun)
    1 .go q hstep 0 e he hu

/-- It was addressed to the session that `h` has had. -/
theorem logoutRun_addressed :
    ∃ p q e, (addressedServer shippedConfig (Fin 2) []).run (serverStart shippedConfig, {})
      (logoutRun 0 1) = some p ∧ (addressedServer shippedConfig (Fin 2) []).step p (1, .go) = some q ∧
        q.1.shared.sockets 0 = p.1.shared.sockets 0 ++ [.event e] ∧
        ∃ u todo n, (p.1.thread 1).pc = .publish (.deliver e ((u, 0) :: todo) n) ∧
          p.2.seen 1 0 = some u := by
  have hs : ∃ p q e, (addressedServer shippedConfig (Fin 2) []).run (serverStart shippedConfig, {})
      (logoutRun 0 1) = some p ∧ (addressedServer shippedConfig (Fin 2) []).step p (1, .go) = some q ∧
        q.1.shared.sockets 0 = p.1.shared.sockets 0 ++ [.event e] ∧ p.2.again 0 = false :=
    ⟨_, _, _, rfl, rfl, rfl, rfl⟩
  obtain ⟨p, q, e, hrun, hstep, he, hagain⟩ := hs
  have hr : (addressedServer shippedConfig (Fin 2) []).Reachable p :=
    Machine.Reachable.run (s := (serverStart shippedConfig, {})) (.init ⟨⟨rfl, fun _ => rfl⟩, rfl⟩) hrun
  exact ⟨p, q, e, hrun, hstep, he, events_from_sessions hr hstep he hagain⟩

end Addressees

end DistRes
