import DistRes.Reconnection
import DistRes.Recovery

/-!
# What the listener survives

The thread of `_listen_loop` catches what reading raises, and nothing else.

* `Client.undisturbed` — nobody closes the connection, the server sends objects and lines that cannot be
  decoded, and no callback raises;
* `Client.fatal` — the three steps in which something else raises;
* `listener_survives_iff` — an undisturbed listener dies in these steps, and in no other.
-/

namespace DistRes

open Lib

section Survival

variable {U K : Type} [DecidableEq U] [DecidableEq K] {conn conn' : ServerConnection K}
  {pc pc' : ListenerPc K} {a : ClientAct K} {s s' : Client U K} {h : ClientHistory U}

/-! ## The steps in which the listener dies -/

/-- The callback of `_set_state` is called inside of `_connect_once`. -/
def ListenerPc.announcing : ListenerPc K → Bool
  | .connect .setConnected _ => true
  | _ => false

/-- Nobody closes the connection, the server sends objects and lines that cannot be decoded, and no
callback raises. -/
def Client.undisturbed (s : Client U K) (x : Thread U × ClientAct K) : Bool :=
  match x.2, x.1 with
  | .call .close, _ => false
  | .crash, .listener => s.listener.isReading
  | .crash, _ => false
  | .receive (.obj _), _ => true
  | .receive _, _ => false
  | .fail, .listener => !s.listener.announcing
  | _, _ => true

/-- A RESPONSE whose id a dict cannot be asked for. -/
def unhashableId (m : Message) : Bool := isResponse m && !hashable (getField m (lit "id"))

/-- In this step, the listener unpacks credentials that are there no longer, or asks `_pending`, which is
not empty, for an id that is not hashable; or `json.loads` exceeds the recursion limit. -/
def Client.fatal (s : Client U K) : Thread U × ClientAct K → Bool
  | (.listener, .go) =>
    match s.listener with
    | .unpack => s.conn.credentials.isNone
    | .handle m => unhashableId m && !s.conn.pending.isEmpty
    | _ => false
  | (.listener, .crash) => s.listener.isReading
  | _ => false

theorem unhashableId_of_type {m : Message} {t : Text} (ht : getField m (lit "type") = .str t) :
    unhashableId m = (decide (t = typeResponse) && !hashable (getField m (lit "id"))) := by
  simp only [unhashableId, isResponse, ht]

omit [DecidableEq K] in
theorem handleIncoming_died {m : Message} (hs : handleIncoming conn m = some (conn', pc)) :
    pc = .died ↔ (unhashableId m && !conn.pending.isEmpty) = true := by
  have hlookup : ∀ {pc : ListenerPc K}, (if conn.pending = [] then ListenerPc.loop else .died) = pc →
      (pc = .died ↔ (!conn.pending.isEmpty) = true) := by
    rintro _ rfl
    cases conn.pending with
    | nil => exact iff_of_false nofun nofun
    | cons id ids => exact iff_of_true rfl rfl
  unfold handleIncoming at hs
  split at hs
  · rename_i t htype
    rw [unhashableId_of_type htype]
    split at hs
    · rename_i ht
      rw [decide_eq_true ht, Bool.true_and]
      split at hs
      · cases hs
      · cases hid : getField m (lit "id") with
        | arr | obj =>
          simp only [hid] at hs
          exact hlookup (Prod.mk.inj (Option.some.inj hs)).2
        | _ =>
          simp only [hid] at hs
          split at hs <;> cases hs <;> exact iff_of_false nofun nofun
    · rename_i ht
      cases hs
      rw [decide_eq_false ht, Bool.false_and]
      exact iff_of_false nofun nofun
  · rename_i htype
    cases hs
    refine iff_of_false nofun ?_
    unfold unhashableId isResponse
    cases hty : getField m (lit "type") with
    | str t => exact absurd hty (htype t)
    | _ => nofun

/-- **Where the listener dies.** -/
theorem died_of_step (hpc : pc ≠ .died) (hs : listenerStep conn pc a = some (conn', .died)) :
    a = .crash ∨ (pc = .read ∧ conn.reader = none) ∨ (∃ m, a = .receive m ∧ ∀ fields, m ≠ .obj fields) ∨
      a = .go ∧ ((pc = .unpack ∧ conn.credentials = none) ∨
        ∃ m, pc = .handle m ∧ (unhashableId m && !conn.pending.isEmpty) = true) := by
  cases listenerStep_moves hs with
  | connectedRaises | retryRaises | handleRaises | reconnectRaises | overflows => exact .inl rfl
  | readerless hreader => exact .inr (.inl ⟨rfl, hreader⟩)
  | receiveOther k m hobj => exact .inr (.inr (.inl ⟨m, rfl, hobj⟩))
  | unpackNone hcred => exact .inr (.inr (.inr ⟨rfl, .inl ⟨rfl, hcred⟩⟩))
  | handle m hm => exact .inr (.inr (.inr ⟨rfl, .inr ⟨m, rfl, (handleIncoming_died hm).1 rfl⟩⟩))

omit [DecidableEq U] in
/-- In the fatal steps, it does. -/
theorem died_of_fatal (hfatal : s.fatal (.listener, a) = true)
    (hs : listenerStep s.conn s.listener a = some (conn', pc')) : pc' = .died := by
  obtain ⟨conn, user, pc, beat⟩ := s
  change listenerStep conn pc a = some (conn', pc') at hs
  cases a with
  | go =>
    cases pc with
    | unpack =>
      have hcred : conn.credentials = none := Option.isNone_iff_eq_none.1 hfatal
      simp only [listenerStep, hcred] at hs
      cases hs
      rfl
    | handle m => exact (handleIncoming_died hs).2 hfatal
    | _ => cases hfatal
  | crash =>
    cases pc with
    | reading k =>
      cases hs
      rfl
    | _ => cases hfatal
  | _ => cases hfatal

/-! ## An undisturbed client -/

/-- The listener is in the `_connect_with_retry` of `start`, and has no reader. -/
def ListenerPc.opening : ListenerPc K → Bool
  | .connect .setConnected _ | .connect .done _ => false
  | .connect _ again => !again
  | _ => false

/-- What holds of a client that is not disturbed. -/
structure AwakeInv (s : Client U K) : Prop where
  recovery : RecoveryInv s
  unclosed : ∀ u, s.user u ≠ .close
  reader : s.conn.reader = none → s.listener.opening = true
  alive : s.listener.gone = false

/-- `close` is where only a call of it leads. -/
theorem close_of_step {pc : UserPc K} (hs : userStep conn pc a = some (conn', .close)) :
    a = .call .close := by
  generalize hclose : UserPc.close = pc' at hs
  cases userStep_moves hs with
  | call m =>
    cases m with
    | close => rfl
    | _ => cases hclose
  | _ => cases hclose

omit [DecidableEq K] in
theorem connectStep_opening {pc pc' : ConnectPc K} {again : Bool} (hrun : conn.running = true)
    (hr : conn.reader = none → (ListenerPc.connect pc again).opening = true)
    (hs : connectStep conn pc a = some (conn', pc')) :
    conn'.reader = none → (ListenerPc.connect pc' again).opening = true := by
  cases connectStep_moves hs with
  | stop hstop => cases hrun.symm.trans hstop
  | setReader => exact nofun
  | setConnected | refused => exact fun hnone => absurd (hr hnone) nofun
  | check | attempt | fail | setSock | setReconnecting | sleep => exact hr

/-- A listener that has no reader yet goes on opening its first connection. -/
theorem listenerStep_opening (hrun : conn.running = true) (hcrash : a = .crash → pc.isReading = true)
    (hr : conn.reader = none → pc.opening = true)
    (hs : listenerStep conn pc a = some (conn', pc')) :
    conn'.reader = none → pc'.opening = true := by
  -- past the first connection, there is a reader
  have keeps : ∀ {conn' : ServerConnection K} {pc' : ListenerPc K}, pc.opening = false →
      conn'.reader = conn.reader → conn'.reader = none → pc'.opening = true := by
    intro conn' pc' hno heq hnone
    rw [hr (heq.symm.trans hnone)] at hno
    cases hno
  cases listenerStep_moves hs with
  | connectedRaises | retryRaises | handleRaises | reconnectRaises => exact absurd (hcrash rfl) nofun
  | connect again hc => exact connectStep_opening hrun hr hc
  | handle m hm =>
    rcases handleIncoming_cases hm with ⟨rfl, -⟩ | ⟨id, -, -, -, rfl, -⟩ <;> exact keeps rfl rfl
  | request hreq => exact keeps rfl (requestStep_link hreq).2.2
  | _ => exact keeps rfl rfl

/-- A listener ends only where the client is closed. -/
theorem ended_of_step (hs : listenerStep conn pc a = some (conn', .ended)) : conn.running = false := by
  cases listenerStep_moves hs with
  | ends hrun => exact hrun
  | handle m hm => rcases handleIncoming_cases hm with ⟨-, h | h⟩ | ⟨id, -, -, -, -, h⟩ <;> cases h

/-- An undisturbed listener that has not died dies in the fatal steps only. -/
theorem AwakeInv.dies_iff {x : Thread U × ClientAct K} (hi : AwakeInv s) (hx : s.undisturbed x = true)
    (hs : clientStep s x = some s') : s'.listener = .died ↔ s.fatal x = true := by
  have hne : s.listener ≠ .died := by
    intro h
    have := hi.alive
    rw [h] at this
    cases this
  obtain ⟨t, a⟩ := x
  rcases clientStep_cases hs with ⟨u, conn', pc, rfl, -, rfl⟩ | ⟨conn', pc, rfl, hstep, rfl⟩ |
    ⟨conn', pc, rfl, -, rfl⟩
  · exact iff_of_false hne nofun
  · constructor
    · intro h
      have h : pc = .died := h
      subst h
      rcases died_of_step hne hstep with rfl | ⟨hpc, hr⟩ | ⟨m, rfl, hobj⟩ | ⟨rfl, ⟨hpc, hcred⟩ | ⟨m, hpc, hid⟩⟩
      · exact hx
      · have := hi.reader hr
        rw [hpc] at this
        cases this
      · cases m with
        | obj fields => exact absurd rfl (hobj fields)
        | _ => cases hx
      · simp only [Client.fatal, hpc, hcred, Option.isNone_none]
      · simp only [Client.fatal, hpc, hid]
    · exact fun h => died_of_fatal h hstep
  · exact iff_of_false hne nofun

theorem AwakeInv.step {x : Thread U × ClientAct K} (hi : AwakeInv s) (hx : s.undisturbed x = true)
    (hfatal : s.fatal x = false) (hs : clientStep s x = some s') : AwakeInv s' := by
  obtain ⟨t, a⟩ := x
  have hclose : a ≠ .call .close := by
    rintro rfl
    cases hx
  have hrec := hi.recovery.step hi.unclosed hs
  rcases clientStep_cases hs with ⟨u, conn', pc, rfl, hstep, rfl⟩ | ⟨conn', pc, rfl, hstep, rfl⟩ |
    ⟨conn', pc, rfl, hstep, rfl⟩
  · refine ⟨hrec, ?_, fun hr => hi.reader ((userStep_reader hstep).symm.trans hr), hi.alive⟩
    refine (Function.forall_update_iff s.user fun _ pc => pc ≠ .close).2 ⟨?_, fun v _ => hi.unclosed v⟩
    rintro rfl
    exact hclose (close_of_step hstep)
  · have hcrash : a = .crash → s.listener.isReading = true := by
      rintro rfl
      exact hx
    have hopen := listenerStep_opening hi.recovery.running hcrash hi.reader hstep
    refine ⟨hrec, hi.unclosed, hopen, ?_⟩
    cases pc with
    | ended => exact absurd (hi.recovery.running.symm.trans (ended_of_step hstep)) nofun
    | died =>
      rw [(hi.dies_iff hx hs).1 rfl] at hfatal
      cases hfatal
    | _ => rfl
  · exact ⟨hrec, hi.unclosed, fun hr => hi.reader ((beatStep_reader hstep).symm.trans hr), hi.alive⟩

theorem alive_of_step {x : Thread U × ClientAct K} (hs : clientStep s x = some s')
    (hne : s'.listener ≠ .died) : s.listener ≠ .died := by
  obtain ⟨t, a⟩ := x
  rcases clientStep_cases hs with ⟨u, conn', pc, -, -, rfl⟩ | ⟨conn', pc, -, hstep, rfl⟩ |
    ⟨conn', pc, -, -, rfl⟩
  · exact hne
  · intro h
    rw [h] at hstep
    cases hstep
  · exact hne

omit [DecidableEq U] [DecidableEq K] in
theorem awakeInv_initial : AwakeInv ({} : Client U K) :=
  ⟨⟨rfl, nofun, fun _ => rfl, nofun, nofun⟩, nofun, fun _ => rfl, rfl⟩

/-- **The listener survives, but for three steps.**  In an undisturbed run without a fatal step it is
never gone; and an undisturbed step in which a listener dies is a fatal one, as every fatal step is one
in which it dies. -/
theorem listener_survives_iff :
    ((clientMachine U K).Reach (fun p x => p.1.undisturbed x = true ∧ p.1.fatal x = false) (s, h) →
      s.listener.gone = false) ∧
    ((clientMachine U K).Reach (fun p x => p.1.undisturbed x = true) (s, h) → s.listener ≠ .died →
      ∀ x s', s.undisturbed x = true → clientStep s x = some s' →
        (s'.listener = .died ↔ s.fatal x = true)) := by
  constructor
  · intro hr
    refine AwakeInv.alive (hr.invariant (fun p => AwakeInv p.1) ?_ ?_)
    · rintro ⟨s, h⟩ ⟨hs, -⟩
      have hs : s = {} := hs
      exact hs ▸ awakeInv_initial
    · rintro ⟨s, h⟩ x ⟨s', h'⟩ - hi ⟨hx, hfatal⟩ hs
      exact hi.step hx hfatal (Machine.withHistory_step.1 hs).1
  · intro hr hne x s' hx hs
    have hi : s.listener ≠ .died → AwakeInv s := by
      refine hr.invariant (fun p => p.1.listener ≠ .died → AwakeInv p.1) ?_ ?_
      · rintro ⟨s, h⟩ ⟨hs, -⟩ -
        have hs : s = {} := hs
        exact hs ▸ awakeInv_initial
      · rintro ⟨s, h⟩ x ⟨s', h'⟩ - hi hx hs hne'
        have hs : clientStep s x = some s' := (Machine.withHistory_step.1 hs).1
        have hi := hi (alive_of_step hs hne')
        exact hi.step hx (eq_false_of_ne_true fun h => hne' ((hi.dies_iff hx hs).2 h)) hs
    exact (hi hne).dies_iff hx hs

end Survival

/-! ### Runs -/

/-- `u` logs in, and is answered. -/
def loggedInRun {U K : Type} (u : U) (k : K) : List (Thread U × ClientAct K) :=
  startOn k ++ (.user u, .call (.login (lit "ENG001") (lit "Alice"))) :: List.replicate 6 (.user u, .go) ++
    (.listener, .receive (.obj (responseTo 1))) :: List.replicate 5 (.listener, .go) ++
    List.replicate 3 (.user u, .go)

/-- The connection drops while `u` waits for the answer of its `logout`; the listener connects again
and finds credentials, and `logout` forgets them. -/
def forgottenRun {U K : Type} (u : U) (k k' : K) : List (Thread U × ClientAct K) :=
  loggedInRun u k ++ (.user u, .call .logout) :: List.replicate 5 (.user u, .go) ++
    (.listener, .unreadable) :: List.replicate 8 (.listener, .go) ++
    (.listener, .connect k') :: List.replicate 6 (.listener, .go) ++ List.replicate 4 (.user u, .go)

/-- The listener dies of it. -/
theorem forgottenRun_dies :
    ¬ ∀ p, (clientMachine (Fin 1) (Fin 2)).Reach (fun p x => p.1.undisturbed x = true) p →
      p.1.listener ≠ .died := by
  intro hall
  have hs : ∃ p, (clientMachine (Fin 1) (Fin 2)).runIf (fun p x => p.1.undisturbed x = true) ({}, {})
      (forgottenRun 0 0 1 ++ [(.listener, .go)]) = some p ∧ p.1.listener = .died := ⟨_, rfl, rfl⟩
  obtain ⟨p, hrun, hdied⟩ := hs
  exact hall p (Machine.Reach.runIf (s := ({}, {})) (.init ⟨rfl, rfl⟩) hrun) hdied

/-- It has survived until then, and the next step is fatal; if nobody logs out, it survives. -/
theorem forgottenRun_fatal :
    (∃ s h, (clientMachine (Fin 1) (Fin 2)).runIf (fun p x => p.1.undisturbed x = true ∧
        p.1.fatal x = false) ({}, {}) (forgottenRun 0 0 1) = some (s, h) ∧ s.listener.gone = false ∧
      ∃ s', clientStep s (.listener, .go) = some s' ∧
        (s'.listener = .died ↔ s.fatal (.listener, .go) = true)) ∧
    ∃ s h, (clientMachine (Fin 1) (Fin 2)).runIf (fun p x => p.1.undisturbed x = true ∧
        p.1.fatal x = false) ({}, {}) (reloginRun 0 0 1) = some (s, h) ∧ s.listener.gone = false := by
  have hs : ∃ s h s', (clientMachine (Fin 1) (Fin 2)).runIf (fun p x => p.1.undisturbed x = true ∧
        p.1.fatal x = false) ({}, {}) (forgottenRun 0 0 1) = some (s, h) ∧
      clientStep s (.listener, .go) = some s' := ⟨_, _, _, rfl, rfl⟩
  have hr : ∃ s h, (clientMachine (Fin 1) (Fin 2)).runIf (fun p x => p.1.undisturbed x = true ∧
        p.1.fatal x = false) ({}, {}) (reloginRun 0 0 1) = some (s, h) := ⟨_, _, rfl⟩
  have reach : ∀ {as s h}, (clientMachine (Fin 1) (Fin 2)).runIf (fun p x =>
      p.1.undisturbed x = true ∧ p.1.fatal x = false) ({}, {}) as = some (s, h) →
        (clientMachine (Fin 1) (Fin 2)).Reach (fun p x => p.1.undisturbed x = true ∧ p.1.fatal x = false)
          (s, h) := fun hrun => Machine.Reach.runIf (s := ({}, {})) (.init ⟨rfl, rfl⟩) hrun
  obtain ⟨s, h, s', hrun, hstep⟩ := hs
  obtain ⟨s₁, h₁, hrun₁⟩ := hr
  have halive := listener_survives_iff.1 (reach hrun)
  refine ⟨⟨s, h, hrun, halive, s', hstep, ?_⟩, s₁, h₁, hrun₁, listener_survives_iff.1 (reach hrun₁)⟩
  refine listener_survives_iff.2 ((reach hrun).mono fun _ _ hok => hok.1) ?_ _ _ rfl hstep
  intro hdied
  rw [hdied] at halive
  cases halive

end DistRes
