import DistRes.Replies

/-!
# The session at its handler

* `DistResServer.serves` — the handler has the session of a user, or comes to it, or closes the
  connection;
* `serves_step` and `serves_other` — what its own steps and those of the others do to this;
* `serves_dispatch` — only a LOGIN and a LOGOUT count among the messages.
-/

namespace DistRes

open Lib

section Handler

variable {H : Type}

/-- The handler is in `_handle_login` for `u`, and has not registered it yet. -/
def ClientHandler.enters (l : ClientHandler H) (u : Text) : Bool :=
  match l.pc with
  | .login _ (.authenticate v _) => v.text? = some u
  | .login _ (.isActive v _) | .login _ (.acquire v _) | .login _ (.hold v _) => v = u
  | .login _ (.register v _) => v = u && l.userId = some u
  | _ => false

/-- The handler has registered `u`, and is about to subscribe it. -/
def ClientHandler.subscribes (l : ClientHandler H) (u : Text) : Bool :=
  match l.pc with
  | .login _ (.subscribe v) => v = u && l.userId = some u
  | _ => false

/-- The handler has taken a LOGOUT. -/
def HandlerPc.leaves : HandlerPc H → Bool
  | .respond _ .release | .release _ .logout => true
  | _ => false

/-- The handler is in `_cleanup`, and closes the connection. -/
def HandlerPc.closes : HandlerPc H → Bool
  | .release _ .cleanup | .ended => true
  | _ => false

/-- The handler has the session of `u`, which is in both registries. -/
def DistResServer.hosts (d : DistResServer H) (l : ClientHandler H) (u : Text) : Bool :=
  l.userId = some u && !l.pc.leaves && d.isActive u && d.broker.has u

/-- The handler has the session of `u` or comes to it, or closes the connection. -/
def DistResServer.serves (d : DistResServer H) (l : ClientHandler H) (u : Text) : Bool :=
  l.pc.closes || l.enters u || (l.subscribes u && d.isActive u) || d.hosts l u

/-- In this step, the handler refuses the LOGIN of `u`, logs somebody else in, or drops `u` from the
broker. -/
def DistResServer.forfeits (cfg : Config) (d : DistResServer H) (l : ClientHandler H) (u : Text) :
    HandlerPc H → HandlerAct → Bool
  | .login _ (.authenticate v n), .go =>
    v.text? = some u && authenticate cfg v n = some false && !d.hosts l u
  | .login _ (.isActive v _), .go => v = u && d.isActive v && !d.hosts l u
  | .login _ (.acquire v _), .go => v = u && d.sessions = 0 && !d.hosts l u
  | .login _ (.hold v _), .go => v ≠ u
  | .publish (.drop v _ _ _), .go => v = u
  | _, _ => false

/-- In this step, another handler takes `u` out of a registry in which the handler `l` has put it. -/
def DistResServer.displaces (d : DistResServer H) (l : ClientHandler H) (u : Text) : HandlerPc H → Bool
  | .publish (.drop v _ _ _) | .release (.unsubscribe v) _ =>
    v = u && !(l.pc.closes || l.enters u || (l.subscribes u && d.isActive u))
  | .release (.unregister v) _ => v = u && !(l.pc.closes || l.enters u)
  | _ => false

/-! ### Its own steps -/

variable {cfg : Config} {d d' : DistResServer H} {l l' : ClientHandler H} {u : Text} {k : H}
  {a : HandlerAct}

theorem serves_of_closes (h : l.pc.closes = true) : d.serves l u = true := by
  simp only [DistResServer.serves, h, Bool.true_or]

theorem closes_cleanup (l : ClientHandler H) : l.cleanup.pc.closes = true := by
  obtain ⟨userId, holds, pc⟩ := l
  rcases userId with _ | v <;> cases holds <;> rfl

theorem serves_cleanup (l : ClientHandler H) : d.serves l.cleanup u = true :=
  serves_of_closes (closes_cleanup l)

theorem serves_of_hosts (h : d.hosts l u = true) : d.serves l u = true := by
  simp only [DistResServer.serves, h, Bool.or_true]

theorem hosts_iff : d.hosts l u = true ↔ l.userId = some u ∧ l.pc.leaves = false ∧
    d.activeUsers.has u = true ∧ d.broker.has u = true := by
  simp [DistResServer.hosts, DistResServer.isActive, and_assoc]

/-- A point from which a handler serves whom it hosts, and nobody else. -/
def HandlerPc.plain : HandlerPc H → Bool
  | .login _ (.version _) => true
  | .login _ _ | .release _ .cleanup | .ended => false
  | _ => true

theorem serves_of_plain (h : l.pc.plain = true) : d.serves l u = d.hosts l u := by
  obtain ⟨userId, holds, pc⟩ := l
  have hc : pc.closes = false := by
    cases pc with
    | release pc caller => cases caller <;> first | rfl | cases h
    | ended => cases h
    | _ => rfl
  have hl : (⟨userId, holds, pc⟩ : ClientHandler H).enters u = false ∧
      (⟨userId, holds, pc⟩ : ClientHandler H).subscribes u = false := by
    cases pc with
    | login id pc => cases pc <;> first | exact ⟨rfl, rfl⟩ | cases h
    | _ => exact ⟨rfl, rfl⟩
  simp only [DistResServer.serves, hc, hl.1, hl.2, Bool.false_or, Bool.false_and]

/-- The registries, the user id and the LOGOUT are all that counts. -/
theorem hosts_congr (hact : d'.activeUsers.has u = d.activeUsers.has u)
    (hbroker : d'.broker.has u = d.broker.has u) (huser : l'.userId = l.userId)
    (hleaves : l'.pc.leaves = l.pc.leaves) : d'.hosts l' u = d.hosts l u := by
  simp only [DistResServer.hosts, DistResServer.isActive, hact, hbroker, huser, hleaves]

theorem serves_of_login {id : Json} {pc : LoginPc} (hpc : l.pc = .login id pc) :
    d.serves l u = (l.enters u || (l.subscribes u && d.isActive u) || d.hosts l u) := by
  simp only [DistResServer.serves, HandlerPc.closes, hpc, Bool.false_or]

variable [DecidableEq H]

section

omit [DecidableEq H]

/-- A RESPONSE leaves the session that the handler has. -/
theorem serves_respond {r : Response} {next : Next} (hpc : l.pc.leaves = false)
    (hnext : (HandlerPc.respond (H := H) r next).leaves = false) :
    d.serves (l.respond r next) u = d.hosts l u := by
  rw [serves_of_plain (l := l.respond r next) rfl]
  exact hosts_congr rfl rfl rfl (hnext.trans hpc.symm)

theorem serves_reject {id : Json} (hpc : l.pc.leaves = false) (m : Text) :
    d.serves (l.reject id m) u = d.hosts l u := serves_respond hpc rfl

/-- Between two plain points, a handler keeps whom it hosts. -/
theorem serves_of_move (hsv : d.serves l u = true) (hpc : l.pc.plain = true) (hpc' : l'.pc.plain = true)
    (hleaves : l'.pc.leaves = l.pc.leaves) (huser : l'.userId = l.userId)
    (hact : d'.activeUsers = d.activeUsers) (hbroker : d'.broker = d.broker) :
    d'.serves l' u = true := by
  rw [serves_of_plain hpc] at hsv
  rw [serves_of_plain hpc', hosts_congr (d := d) (by rw [hact]) (by rw [hbroker]) huser hleaves]
  exact hsv

theorem hosts_login (hpc : l.pc.leaves = false) (id : Json) (pc : LoginPc) :
    d.hosts { l with pc := .login id pc } u = d.hosts l u :=
  hosts_congr rfl rfl rfl hpc.symm

/-- A refusal is a loss to the user of the LOGIN, unless the handler has its session. -/
theorem serves_refused {id : Json} {p : Prop} [Decidable p] (hpc : l.pc.leaves = false)
    (hsv : p ∨ d.hosts l u = true) (m : Text) :
    d.serves (l.reject id m) u = !(decide p && !d.hosts l u) := by
  rw [serves_reject hpc]
  by_cases hp : p
  · simp [hp]
  · simp [hp, hsv.resolve_left hp]

/-- On in `_handle_login`, for the user of the LOGIN or with the session that the handler has. -/
theorem serves_enters {p : Prop} (hsv : p ∨ d.hosts l u = true) (henters : p → l'.enters u = true)
    (hleaves : l'.pc.leaves = l.pc.leaves) (huser : l'.userId = l.userId)
    (hact : d'.activeUsers = d.activeUsers) (hbroker : d'.broker = d.broker) :
    d'.serves l' u = true := by
  rcases hsv with hp | h
  · simp only [DistResServer.serves, henters hp, Bool.or_true, Bool.true_or]
  · exact serves_of_hosts ((hosts_congr (by rw [hact]) (by rw [hbroker]) huser hleaves).trans h)

theorem serves_authenticate {id v n : Json} (hpc : l.pc.leaves = false)
    (hsv : v.text? = some u ∨ d.hosts l u = true) :
    (handleLogin cfg k d l id (.authenticate v n)).1.serves
        (handleLogin cfg k d l id (.authenticate v n)).2 u =
      !(decide (v.text? = some u) && decide (authenticate cfg v n = some false) && !d.hosts l u) := by
  simp only [handleLogin]
  split
  · rename_i v n hauth
    have hsv : v = u ∨ d.hosts l u = true := by simpa [Json.text?] using hsv
    have hgoes : d.serves { l with pc := .login id (.isActive v n) } u = true :=
      serves_enters hsv (fun hv => decide_eq_true hv) hpc.symm rfl rfl rfl
    rw [hgoes, hauth]
    simp
  · rename_i b hne hauth
    have hb : b = false := by
      by_contra hb
      rw [Bool.not_eq_false] at hb
      subst hb
      obtain ⟨w, m, rfl, rfl, -⟩ := eq_str_of_authenticate hauth
      exact hne w m rfl rfl rfl
    rw [serves_refused hpc hsv, hauth, hb]
    simp
  · rename_i hauth
    rw [serves_cleanup, hauth]
    simp

theorem serves_register {id : Json} {v n : Text} (hpc : l.pc.leaves = false)
    (hsv : v = u ∧ l.userId = some u ∨ d.hosts l u = true) :
    (d.registerSession v n).serves { l with pc := .login id (.subscribe v) } u = true := by
  by_cases hv : v = u
  · subst hv
    have huser : l.userId = some v := hsv.elim (fun h => h.2) fun h => (hosts_iff.1 h).1
    rw [serves_of_login rfl]
    simp [ClientHandler.subscribes, huser, DistResServer.isActive, DistResServer.registerSession]
  · refine serves_of_hosts (Eq.trans ?_ (hsv.resolve_left fun h => hv h.1))
    exact hosts_congr (Dict.has_set_of_ne _ _ (Ne.symm hv)) rfl rfl hpc.symm

theorem serves_subscribe {id : Json} {v : Text} (hpc : l.pc.leaves = false)
    (hsv : (v = u ∧ l.userId = some u) ∧ d.isActive u = true ∨ d.hosts l u = true) :
    DistResServer.serves { d with broker := d.broker.subscribe v k }
      { l with pc := .login id (.version v) } u = true := by
  by_cases hv : v = u
  · subst hv
    have hboth : l.userId = some v ∧ d.isActive v = true :=
      hsv.elim (fun h => ⟨h.1.2, h.2⟩) fun h => ⟨(hosts_iff.1 h).1, (hosts_iff.1 h).2.2.1⟩
    exact serves_of_hosts (hosts_iff.2 ⟨hboth.1, rfl, hboth.2, by simp [PubSubBroker.subscribe]⟩)
  · refine serves_of_hosts (Eq.trans ?_ (hsv.resolve_left fun h => hv h.1.1))
    exact hosts_congr rfl (Dict.has_set_of_ne _ _ (Ne.symm hv)) rfl hpc.symm

/-- A step of `_handle_login` keeps the session of `u`, unless it forfeits it. -/
theorem serves_login {id : Json} {pc : LoginPc} (hpc : l.pc = .login id pc) (hsv : d.serves l u = true) :
    (handleLogin cfg k d l id pc).1.serves (handleLogin cfg k d l id pc).2 u =
      !d.forfeits cfg l u l.pc .go := by
  rw [serves_of_login hpc] at hsv
  simp only [ClientHandler.enters, ClientHandler.subscribes, hpc] at hsv
  simp only [DistResServer.forfeits, hpc]
  have hleaves : l.pc.leaves = false := by rw [hpc]; rfl
  cases pc with
  | authenticate v n => exact serves_authenticate hleaves (by simpa using hsv)
  | isActive v n =>
    have hsv : v = u ∨ d.hosts l u = true := by simpa using hsv
    simp only [handleLogin]
    split_ifs with hact
    · rw [serves_refused hleaves hsv, hact, Bool.and_true]
    · have hgoes : d.serves { l with pc := .login id (.acquire v n) } u = true :=
        serves_enters hsv (fun hv => decide_eq_true hv) hleaves.symm rfl rfl rfl
      rw [hgoes]
      simp [hact]
  | acquire v n =>
    have hsv : v = u ∨ d.hosts l u = true := by simpa using hsv
    simp only [handleLogin]
    split_ifs with h0
    · rw [serves_refused hleaves hsv, decide_eq_true h0, Bool.and_true]
    · have hgoes : DistResServer.serves { d with sessions := d.sessions - 1 }
          { l with pc := .login id (.hold v n) } u = true :=
        serves_enters hsv (fun hv => decide_eq_true hv) hleaves.symm rfl rfl rfl
      rw [hgoes]
      simp [h0]
  | hold v n =>
    simp only [handleLogin]
    rw [serves_of_login rfl]
    by_cases hv : v = u
    · simp [hv, ClientHandler.enters]
    · simp [hv, ClientHandler.enters, ClientHandler.subscribes, DistResServer.hosts]
  | register v n => exact serves_register hleaves (by simpa using hsv)
  | subscribe v => exact serves_subscribe hleaves (by simpa using hsv)
  | version v =>
    have hsv : d.hosts l u = true := by simpa using hsv
    exact (serves_respond hleaves rfl).trans hsv

end

theorem delivered_registries (d : DistResServer H) (x : Option (H × Event)) :
    (d.delivered x).activeUsers = d.activeUsers ∧ (d.delivered x).broker = d.broker := by
  rcases x with _ | ⟨t, e⟩ <;> exact ⟨rfl, rfl⟩

omit [DecidableEq H] in
theorem closes_releaseStep {pc : ReleasePc} :
    (releaseStep cfg d l .cleanup pc).2.pc.closes = true := by
  cases pc with
  | unsubscribe | unregister | unhold => rfl
  | clear => exact closes_cleanup _
  | free =>
    simp only [releaseStep]
    split_ifs <;> rfl

/-- **A step of the handler itself** keeps the session of `u`, unless it forfeits it. -/
theorem serves_step (hs : handlerStep cfg k d l a = some (d', l')) (ha : ∀ m, a ≠ .receive m)
    (hsv : d.serves l u = true) : d'.serves l' u = !d.forfeits cfg l u l.pc a := by
  have kept : d'.serves l' u = true → d.forfeits cfg l u l.pc a = false →
      d'.serves l' u = !d.forfeits cfg l u l.pc a := by
    intro h1 h2
    rw [h1, h2]
    rfl
  cases handlerStep_cases hs with
  | receive m => exact absurd rfl (ha m)
  | accept hpc | readReturns _ _ _ hpc | writeReturns _ _ _ _ hpc | published _ hpc =>
    exact kept (serves_of_move hsv (by rw [hpc]; rfl) rfl (by rw [hpc]; rfl) rfl rfl rfl)
      (by rw [hpc]; rfl)
  | hangup hpc | unsent _ _ hpc | readRaised _ _ _ hpc | writeRaised _ _ _ _ hpc
  | authenticate _ _ _ hpc =>
    exact kept (serves_cleanup l) (by rw [hpc]; rfl)
  | respond r next hpc =>
    have hhosts : d.hosts l u = true := by
      rw [serves_of_plain (by rw [hpc]; rfl)] at hsv
      exact hsv
    have hleaves := (hosts_iff.1 hhosts).2.1
    rw [hpc] at hleaves
    refine kept ?_ (by rw [hpc]; rfl)
    cases next with
    | loop | publish => exact serves_of_move hsv (by rw [hpc]; rfl) rfl (by rw [hpc]; rfl) rfl rfl rfl
    | release => cases hleaves
  | login id pc hpc => exact serves_login hpc hsv
  | read id v pc a hpc hread =>
    obtain ⟨x, pc', -, hin, rfl⟩ := handleRead_cases hread
    exact kept (serves_of_move hsv (by rw [hpc]; rfl) rfl (by rw [hpc]; rfl) rfl hin.activeUsers
      hin.broker) (by rw [hpc]; rfl)
  | write id content v pc a hpc hwrite =>
    obtain ⟨x, pc', -, hin, rfl⟩ := handleWrite_cases hwrite
    exact kept (serves_of_move hsv (by rw [hpc]; rfl) rfl (by rw [hpc]; rfl) rfl hin.activeUsers
      hin.broker) (by rw [hpc]; rfl)
  | readDone id v r hpc | writeDone id content v r hpc =>
    refine kept ?_ (by rw [hpc]; rfl)
    split <;> exact serves_of_move hsv (by rw [hpc]; rfl) rfl (by rw [hpc]; rfl) rfl rfl rfl
  | publish pc pc' ok b x hpc hok hpub =>
    obtain ⟨hact, hbroker⟩ := delivered_registries { d with broker := b } x
    have same : b = d.broker →
        ({ d with broker := b }.delivered x).serves { l with pc := .publish pc' } u = true :=
      fun hb => serves_of_move hsv (by rw [hpc]; rfl) rfl (by rw [hpc]; rfl) rfl hact (hbroker.trans hb)
    cases pc with
    | drop v e todo n =>
      cases ok with
      | false =>
        obtain ⟨_, _, _, _, heq⟩ := hok rfl
        cases heq
      | true =>
        cases hpub
        rw [hpc]
        rw [serves_of_plain (by rw [hpc]; rfl)] at hsv
        rw [serves_of_plain rfl]
        by_cases hv : v = u
        · subst hv
          simp [DistResServer.hosts, DistResServer.forfeits, DistResServer.delivered,
            PubSubBroker.unsubscribe]
        · have hhosts : DistResServer.hosts { d with broker := d.broker.unsubscribe v }
              { l with pc := .publish (.deliver e todo n) } u = d.hosts l u :=
            hosts_congr rfl (Dict.has_pop_of_ne _ (Ne.symm hv)) rfl (by rw [hpc]; rfl)
          simpa [DistResServer.forfeits, hv, DistResServer.delivered] using hhosts.trans hsv
    | snapshot topic e =>
      cases hpub
      refine kept (same rfl) ?_
      rw [hpc]
      cases ok <;> rfl
    | deliver e todo n =>
      have hb : b = d.broker := by
        rcases todo with _ | ⟨⟨v, t⟩, todo⟩
        · cases hpub
          rfl
        · cases ok <;> cases hpub <;> rfl
      refine kept (same hb) ?_
      rw [hpc]
      cases ok <;> rfl
    | done n => cases hpub
  | release pc caller hpc =>
    cases caller with
    | logout =>
      rw [serves_of_plain (by rw [hpc]; rfl)] at hsv
      have hleaves := (hosts_iff.1 hsv).2.1
      rw [hpc] at hleaves
      cases hleaves
    | cleanup => exact kept (serves_of_closes closes_releaseStep) (by rw [hpc]; rfl)

/-! ### The steps of the others -/

/-- The registry of the users after a step at the given point. -/
def HandlerPc.active (users : Dict Text Text) : HandlerPc H → Dict Text Text
  | .login _ (.register v n) => users.set v n
  | .release (.unregister v) _ => users.pop v
  | _ => users

/-- The registry of the broker after a step of `h` at the given point. -/
def HandlerPc.subscribed (h : H) (broker : PubSubBroker H) : HandlerPc H → PubSubBroker H
  | .login _ (.subscribe v) => broker.subscribe v h
  | .publish (.drop v _ _ _) | .release (.unsubscribe v) _ => broker.unsubscribe v
  | _ => broker

theorem registries_step (hs : handlerStep cfg k d l a = some (d', l')) :
    d'.activeUsers = l.pc.active d.activeUsers ∧ d'.broker = l.pc.subscribed k d.broker := by
  cases handlerStep_cases hs with
  | accept hpc | receive _ hpc | hangup hpc | respond _ _ hpc | unsent _ _ hpc | authenticate _ _ _ hpc
  | readRaised _ _ _ hpc | readReturns _ _ _ hpc | readDone _ _ _ hpc | writeRaised _ _ _ _ hpc
  | writeReturns _ _ _ _ hpc | writeDone _ _ _ _ hpc | published _ hpc =>
    rw [hpc]
    exact ⟨rfl, rfl⟩
  | read id v pc a hpc hread =>
    obtain ⟨x, pc', -, hin, -⟩ := handleRead_cases hread
    rw [hpc]
    exact ⟨hin.activeUsers, hin.broker⟩
  | write id content v pc a hpc hwrite =>
    obtain ⟨x, pc', -, hin, -⟩ := handleWrite_cases hwrite
    rw [hpc]
    exact ⟨hin.activeUsers, hin.broker⟩
  | login id pc hpc =>
    rw [hpc]
    cases pc with
    | authenticate | isActive | acquire =>
      simp only [handleLogin]
      split <;> exact ⟨rfl, rfl⟩
    | hold | register | subscribe | version => exact ⟨rfl, rfl⟩
  | publish pc pc' ok b x hpc hok hpub =>
    obtain ⟨hact, hbroker⟩ := delivered_registries { d with broker := b } x
    rw [hpc]
    refine ⟨hact, hbroker.trans ?_⟩
    cases pc with
    | snapshot | drop =>
      cases hpub
      rfl
    | deliver e todo n =>
      rcases todo with _ | ⟨⟨v, t⟩, todo⟩
      · cases hpub
        rfl
      · cases ok <;> cases hpub <;> rfl
    | done => cases hpub
  | release pc caller hpc =>
    rw [hpc]
    cases pc with
    | free =>
      simp only [releaseStep]
      split_ifs
      · exact ⟨rfl, rfl⟩
      · cases caller <;> exact ⟨rfl, rfl⟩
    | unsubscribe | unregister | clear | unhold => exact ⟨rfl, rfl⟩

omit [DecidableEq H] in
theorem serves_mono (hact : d.activeUsers.has u = true → d'.activeUsers.has u = true)
    (hbroker : d.broker.has u = true → d'.broker.has u = true) (hsv : d.serves l u = true) :
    d'.serves l u = true := by
  simp only [DistResServer.serves, DistResServer.hosts, DistResServer.isActive, Bool.or_eq_true,
    Bool.and_eq_true] at hsv ⊢
  exact hsv.imp (Or.imp_right fun h => ⟨h.1, hact h.2⟩) fun h => ⟨⟨h.1.1, hact h.1.2⟩, hbroker h.2⟩

/-- **A step of another handler** keeps the session of `u`, unless it takes `u` out of a registry. -/
theorem serves_other {x x' : ClientHandler H} (hs : handlerStep cfg k d x a = some (d', x'))
    (hsv : d.serves l u = true) : d'.serves l u = !d.displaces l u x.pc := by
  obtain ⟨hact, hbroker⟩ := registries_step hs
  have keep : (d.activeUsers.has u = true → (x.pc.active d.activeUsers).has u = true) →
      (d.broker.has u = true → (x.pc.subscribed k d.broker).has u = true) → d'.serves l u = true := by
    intro h1 h2
    rw [← hact] at h1
    rw [← hbroker] at h2
    exact serves_mono h1 h2 hsv
  generalize x.pc = pc at hact hbroker keep
  unfold DistResServer.displaces
  -- the entry of the broker goes
  have unsubscribed : ∀ v, d'.activeUsers = d.activeUsers → d'.broker = d.broker.unsubscribe v →
      (v ≠ u → d'.serves l u = true) →
      d'.serves l u =
        !(decide (v = u) && !(l.pc.closes || l.enters u || (l.subscribes u && d.isActive u))) := by
    intro v hact hbroker hne
    by_cases hv : v = u
    · subst hv
      have hgone : d'.broker.has v = false := by
        rw [hbroker]
        simp [PubSubBroker.unsubscribe]
      simp [DistResServer.serves, DistResServer.hosts, DistResServer.isActive, hact, hgone]
    · simp [hv, hne hv]
  split
  · exact unsubscribed _ hact hbroker fun hv =>
      keep id fun h => (Dict.has_pop_of_ne _ (Ne.symm hv)).trans h
  · exact unsubscribed _ hact hbroker fun hv =>
      keep id fun h => (Dict.has_pop_of_ne _ (Ne.symm hv)).trans h
  · rename_i v _
    by_cases hv : v = u
    · subst hv
      have hgone : d'.activeUsers.has v = false := by
        rw [hact]
        simp [HandlerPc.active]
      simp [DistResServer.serves, DistResServer.hosts, DistResServer.isActive, hgone]
    · rw [keep (fun h => (Dict.has_pop_of_ne _ (Ne.symm hv)).trans h) id]
      simp [hv]
  · rename_i h1 h2 h3
    refine keep (fun h => ?_) fun h => ?_
    · unfold HandlerPc.active
      split
      · exact Dict.has_set_of_has h
      · exact absurd rfl (h3 _ _)
      · exact h
    · unfold HandlerPc.subscribed
      split
      · exact Dict.has_set_of_has h
      · exact absurd rfl (h1 _ _ _ _)
      · exact absurd rfl (h2 _ _)
      · exact h

/-! ### The messages -/

/-- The message is a REQUEST for the action. -/
def asksFor (m : Message) (action : Text) : Bool :=
  (getField m (lit "type")).text? = some typeRequest && (getField m (lit "action")).text? = some action

/-- The request arrives as a LOGIN of `u`. -/
def Request.logsIn (r : Request) (u : Text) : Bool :=
  asksFor r.arriving actionLogin && (getField r.arriving (lit "user_id")).text? = some u

theorem asksFor_iff {m : Message} {action : Text} : asksFor m action = true ↔
    getField m (lit "type") = .str typeRequest ∧ getField m (lit "action") = .str action := by
  simp [asksFor, Json.text?_eq_some]

omit [DecidableEq H] in
/-- A LOGIN of `u` takes the handler into `_handle_login`. -/
theorem enters_dispatch {r : Request} (h : r.logsIn u = true) :
    (l.dispatch cfg r.toJson.joined).enters u = true := by
  simp only [Request.logsIn, Bool.and_eq_true, decide_eq_true_eq] at h
  obtain ⟨hasks, huser⟩ := h
  obtain ⟨htype, haction⟩ := asksFor_iff.1 hasks
  simp [joined_request, ClientHandler.dispatch, htype, haction, ClientHandler.enters, huser]

omit [DecidableEq H] in
/-- A handler that gets a message keeps the session of `u`, unless the message is a LOGOUT. -/
theorem serves_dispatch {m : Message} (hpc : l.pc = .recv) (hsv : d.serves l u = true) :
    d.serves (l.dispatch cfg (.obj m)) u = !asksFor m actionLogout := by
  have hhosts : d.hosts l u = true := by
    rw [serves_of_plain (by rw [hpc]; rfl)] at hsv
    exact hsv
  have hleaves : l.pc.leaves = false := by rw [hpc]; rfl
  have kept : ∀ {l' : ClientHandler H}, d.serves l' u = true →
      (getField m (lit "type") = .str typeRequest → getField m (lit "action") ≠ .str actionLogout) →
      d.serves l' u = !asksFor m actionLogout := by
    intro l' h hno
    have hno : asksFor m actionLogout = false := by
      rw [Bool.eq_false_iff]
      exact fun hasks => hno (asksFor_iff.1 hasks).1 (asksFor_iff.1 hasks).2
    rw [h, hno]
    rfl
  have other : ∀ a, getField m (lit "action") = .str a → a ≠ actionLogout →
      getField m (lit "action") ≠ .str actionLogout := by
    intro a ha hne hl
    exact hne (Json.str.inj (ha.symm.trans hl))
  have hplain : l.pc.plain = true := by rw [hpc]; rfl
  simp only [ClientHandler.dispatch]
  split
  · rename_i t ht
    split
    · rename_i hne
      exact kept (serves_of_move hsv hplain rfl hleaves.symm rfl rfl rfl) fun h =>
        absurd (Json.str.inj (ht.symm.trans h)) hne
    · rename_i htype
      split
      · rename_i hno
        exact kept (serves_cleanup l) fun _ h => by cases hno.symm.trans h
      · rename_i hno
        exact kept (serves_cleanup l) fun _ h => by cases hno.symm.trans h
      · rename_i a ha
        split
        · rename_i hlogin
          refine kept ?_ fun _ => other a ha (hlogin ▸ by decide)
          exact serves_of_hosts ((hosts_login hleaves _ _).trans hhosts)
        · split
          · rename_i hread
            refine kept ?_ fun _ => other a ha (hread ▸ by decide)
            split <;> exact serves_of_move hsv hplain rfl hleaves.symm rfl rfl rfl
          · split
            · rename_i hwrite
              refine kept ?_ fun _ => other a ha (hwrite ▸ by decide)
              split <;> exact serves_of_move hsv hplain rfl hleaves.symm rfl rfl rfl
            · split
              · rename_i hlogout
                -- the handler lets its session go
                have hasks : asksFor m actionLogout = true := by
                  refine asksFor_iff.2 ⟨?_, ha.trans (by rw [hlogout])⟩
                  rw [ht, not_not.1 htype]
                rw [serves_of_plain rfl, hasks]
                simp [DistResServer.hosts, ClientHandler.respond, HandlerPc.leaves]
              · rename_i hlogout
                refine kept ?_ fun _ => other a ha hlogout
                split <;> exact serves_of_move hsv hplain rfl hleaves.symm rfl rfl rfl
      · rename_i hno
        exact kept (serves_of_move hsv hplain rfl hleaves.symm rfl rfl rfl) fun _ h => by
          exact absurd h (hno _)
  · rename_i hne
    exact kept (serves_of_move hsv hplain rfl hleaves.symm rfl rfl rfl) fun h => absurd h (hne _)

end Handler

end DistRes
