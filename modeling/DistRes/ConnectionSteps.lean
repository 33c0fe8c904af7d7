import DistRes.Connection

/-!
# What the steps of a client do

The inversion lemmas of the step functions of `Connection`, from which the invariants of a client are
proved: the moves (`userStep_moves`, `connectStep_moves`, `listenerStep_moves`) have a case for every
step, and the cases (`userStep_cases`, `listenerStep_cases`) one for every step that matters to a slot
or to what is sent.
-/

namespace DistRes

open Lib

section Steps

variable {K : Type} [DecidableEq K] {conn conn' : ServerConnection K} {a : ClientAct K}

/-! ## `_raw_send` -/

inductive SendStep (r : Request) (conn : ServerConnection K) :
    SendPc K → Bool → ServerConnection K → SendPc K → Prop
  | lock : conn.sendLock = false → SendStep r conn .lock true { conn with sendLock := true } .pick
  | pick (k : K) : conn.sock = some k → SendStep r conn .pick true conn (.sendall k)
  | unconnected : conn.sock = none →
      SendStep r conn .pick true { conn with sendLock := false } .raised
  | sent (k : K) : k ∉ conn.closed →
      SendStep r conn (.sendall k) true { conn.transmit k r with sendLock := false } .sent
  | raises (k : K) : SendStep r conn (.sendall k) false { conn with sendLock := false } .raised

theorem rawSend_cases {r : Request} {pc pc' : SendPc K} {ok : Bool}
    (h : rawSend r conn pc ok = some (conn', pc')) : SendStep r conn pc ok conn' pc' := by
  unfold rawSend at h
  split at h
  · split at h <;> cases h
    rename_i hl
    exact .lock (eq_false_of_ne_true hl)
  · split at h <;> cases h
    · rename_i hk
      exact .pick _ hk
    · rename_i hk
      exact .unconnected hk
  · split at h <;> cases h
    rename_i hk
    exact .sent _ hk
  · cases h
    exact .raises _
  · cases h

/-- `_raw_send` changes its lock and what is sent. -/
theorem SendStep.frame {r : Request} {pc pc' : SendPc K} {ok : Bool} (h : SendStep r conn pc ok conn' pc') :
    conn' = { conn with sendLock := conn'.sendLock, sent := conn'.sent } := by
  cases h <;> rfl

/-! ## `request` -/

inductive RequestStep (conn : ServerConnection K) (action : Text) (params : List (Text × Json)) :
    RequestPc K → ClientAct K → ServerConnection K → RequestPc K → Prop
  | next : RequestStep conn action params .next .go
      { conn.setSlot conn.nextId {} with nextId := conn.nextId + 1 } (.insert conn.nextId)
  | insert (id : ℕ) : conn.pendingLock = false → RequestStep conn action params (.insert id) .go
      { conn with pending := conn.pending ++ [id] } (.send id .lock)
  | send (id : ℕ) {pc pc' : SendPc K} {conn' : ServerConnection K} (ok : Bool) :
      SendStep ⟨id, action, params⟩ conn pc ok conn' pc' →
      RequestStep conn action params (.send id pc) (if ok then .go else .fail) conn' (.ofSend id pc')
  | unavailable (id : ℕ) : conn.pendingLock = false → RequestStep conn action params (.failed id) .go
      (conn.popPending id) (.done id (some connectionUnavailable))
  | wakes (id : ℕ) : (conn.slots id).event = true →
      RequestStep conn action params (.wait id) .go conn (.fetch id)
  | expires (id : ℕ) : RequestStep conn action params (.wait id) .timeout conn (.timedOut id)
  | timedOut (id : ℕ) : conn.pendingLock = false → RequestStep conn action params (.timedOut id) .go
      (conn.popPending id) (.done id (some requestTimedOut))
  | fetch (id : ℕ) : RequestStep conn action params (.fetch id) .go conn
      (.done id (conn.slots id).response)

theorem requestStep_cases {c c' : RequestCall K} (h : requestStep conn c a = some (conn', c')) :
    ∃ pc', c' = { c with pc := pc' } ∧ RequestStep conn c.action c.params c.pc a conn' pc' := by
  obtain ⟨action, params, pc⟩ := c
  have hsend : ∀ id pc₀ ok, requestStep.send conn ⟨action, params, pc⟩ id pc₀ ok = some (conn', c') →
      pc = .send id pc₀ → ∃ pc', c' = ⟨action, params, pc'⟩ ∧
        RequestStep conn action params pc (if ok then .go else .fail) conn' pc' := by
    rintro id pc₀ ok hs rfl
    obtain ⟨⟨conn₁, pc₁⟩, hraw, heq⟩ := Option.map_eq_some_iff.1 hs
    cases heq
    exact ⟨_, rfl, .send id ok (rawSend_cases hraw)⟩
  unfold requestStep at h
  split at h
  all_goals rename_i hpc
  case h_1 =>
    cases h
    exact ⟨_, rfl, hpc ▸ .next⟩
  case h_2 id =>
    split at h <;> cases h
    rename_i hl
    exact ⟨_, rfl, hpc ▸ .insert id (eq_false_of_ne_true hl)⟩
  case h_3 id pc₀ => exact hsend id pc₀ true h hpc
  case h_4 id pc₀ => exact hsend id pc₀ false h hpc
  case h_5 id =>
    split at h <;> cases h
    rename_i hl
    exact ⟨_, rfl, hpc ▸ .unavailable id (eq_false_of_ne_true hl)⟩
  case h_6 id =>
    split at h <;> cases h
    rename_i hev
    exact ⟨_, rfl, hpc ▸ .wakes id hev⟩
  case h_7 id =>
    cases h
    exact ⟨_, rfl, hpc ▸ .expires id⟩
  case h_8 id =>
    split at h <;> cases h
    rename_i hl
    exact ⟨_, rfl, hpc ▸ .timedOut id (eq_false_of_ne_true hl)⟩
  case h_9 id =>
    cases h
    exact ⟨_, rfl, hpc ▸ .fetch id⟩
  case h_10 => cases h

/-- `request` changes the slots, the ids, its lock and what is sent. -/
theorem requestStep_frame {c c' : RequestCall K} (h : requestStep conn c a = some (conn', c')) :
    conn' = { conn with
      nextId := conn'.nextId, pending := conn'.pending, slots := conn'.slots
      sendLock := conn'.sendLock, sent := conn'.sent } := by
  obtain ⟨pc', rfl, hstep⟩ := requestStep_cases h
  obtain ⟨action, params, pc⟩ := c
  cases hstep with
  | send id ok hsend => rw [hsend.frame]
  | _ => rfl

/-! ## The methods -/

/-- **The steps of a thread that calls methods.** -/
inductive UserMove (conn : ServerConnection K) :
    UserPc K → ClientAct K → ServerConnection K → UserPc K → Prop
  | call (m : Method) : UserMove conn .idle (.call m) conn (.start m)
  | login (userId username : Text) :
      UserMove conn (.login userId username) .go
        { conn with credentials := some (userId, username) }
        (.request { action := actionLogin, params := loginParams userId username } false)
  | request {a : ClientAct K} {c c' : RequestCall K} {conn' : ServerConnection K} (logout : Bool) :
      requestStep conn c a = some (conn', c') →
      UserMove conn (.request c logout) a conn' (.request c' logout)
  | returns (action : Text) (params : List (Text × Json)) (id : ℕ) (reply : Option Message) :
      UserMove conn (.request ⟨action, params, .done id reply⟩ false) .go conn .idle
  | loggedOut (action : Text) (params : List (Text × Json)) (id : ℕ) (reply : Option Message) :
      UserMove conn (.request ⟨action, params, .done id reply⟩ true) .go conn .forget
  | forget : UserMove conn .forget .go { conn with credentials := none } .idle
  | close : UserMove conn .close .go { conn with running := false } .closeState
  | closeState : UserMove conn .closeState .go (conn.setState .disconnected) .closeSock
  | closeRaises : UserMove conn .closeState .crash (conn.setState .disconnected) .idle
  | closeSock : UserMove conn .closeSock .go { conn with closed := conn.sock.toList ++ conn.closed } .idle

theorem userStep_moves {pc pc' : UserPc K} (hs : userStep conn pc a = some (conn', pc')) :
    UserMove conn pc a conn' pc' := by
  unfold userStep at hs
  split at hs
  case h_1 m =>
    cases hs
    exact .call m
  case h_2 u n =>
    cases hs
    exact .login u n
  case h_3 logout =>
    cases hs
    cases logout with
    | false => exact .returns _ _ _ _
    | true => exact .loggedOut _ _ _ _
  case h_4 logout _ =>
    obtain ⟨⟨conn₁, c'⟩, hreq, heq⟩ := Option.map_eq_some_iff.1 hs
    cases heq
    exact .request logout hreq
  case h_5 =>
    cases hs
    exact .forget
  case h_6 =>
    cases hs
    exact .close
  case h_7 =>
    cases hs
    exact .closeState
  case h_8 =>
    cases hs
    exact .closeRaises
  case h_9 =>
    cases hs
    exact .closeSock
  case h_10 => cases hs

inductive UserStep (conn : ServerConnection K) :
    UserPc K → ClientAct K → ServerConnection K → UserPc K → Prop
  | call (m : Method) : UserStep conn .idle (.call m) conn (.start m)
  | login (userId username : Text) :
      UserStep conn (.login userId username) .go
        { conn with credentials := some (userId, username) }
        (.request { action := actionLogin, params := loginParams userId username } false)
  | request {a : ClientAct K} {c c' : RequestCall K} {conn' : ServerConnection K} (logout : Bool) :
      requestStep conn c a = some (conn', c') →
      UserStep conn (.request c logout) a conn' (.request c' logout)
  | returns (action : Text) (params : List (Text × Json)) (id : ℕ) (reply : Option Message)
      (logout : Bool) :
      UserStep conn (.request ⟨action, params, .done id reply⟩ logout) .go conn
        (if logout then .forget else .idle)
  | outside {pc pc' : UserPc K} {a : ClientAct K} (credentials : Option (Text × Text)) (running : Bool)
      (state : ConnectionState) (closed : List K) : pc.call? = none → pc'.call? = none →
      UserStep conn pc a { conn with credentials, running, state, closed } pc'

theorem userStep_cases {pc pc' : UserPc K} (hs : userStep conn pc a = some (conn', pc')) :
    UserStep conn pc a conn' pc' := by
  cases userStep_moves hs with
  | call m => exact .call m
  | login u n => exact .login u n
  | request logout hreq => exact .request logout hreq
  | returns => exact .returns _ _ _ _ false
  | loggedOut => exact .returns _ _ _ _ true
  | forget | close | closeState | closeRaises | closeSock => exact .outside _ _ _ _ rfl rfl

/-! ## The listener -/

/-- The socket that the listener is reading from, or is about to. -/
def ListenerPc.socket : ListenerPc K → Option K
  | .reading k | .connect (.setSock k) _ | .connect (.setReader k) _ => some k
  | _ => none

/-- **The steps of `_connect_with_retry`.** -/
inductive ConnectMove (conn : ServerConnection K) :
    ConnectPc K → ClientAct K → ServerConnection K → ConnectPc K → Prop
  | check : conn.running = true → ConnectMove conn .check .go conn .attempt
  | stop : conn.running = false → ConnectMove conn .check .go conn .done
  | attempt (k : K) : ConnectMove conn .attempt (.connect k) conn (.setSock k)
  | fail : ConnectMove conn .attempt .fail conn .setReconnecting
  | setSock (k : K) : ConnectMove conn (.setSock k) .go { conn with sock := some k } (.setReader k)
  | setReader (k : K) : ConnectMove conn (.setReader k) .go { conn with reader := some k } .setConnected
  | setConnected : ConnectMove conn .setConnected .go (conn.setState .connected) .done
  | refused : ConnectMove conn .setConnected .fail (conn.setState .connected) .setReconnecting
  | setReconnecting : ConnectMove conn .setReconnecting .go (conn.setState .reconnecting) .sleep
  | sleep : ConnectMove conn .sleep .go conn .check

omit [DecidableEq K] in
theorem connectStep_moves {pc pc' : ConnectPc K} (hs : connectStep conn pc a = some (conn', pc')) :
    ConnectMove conn pc a conn' pc' := by
  unfold connectStep at hs
  split at hs
  case h_1 =>
    cases hs
    cases hrun : conn.running with
    | true => exact .check hrun
    | false => exact .stop hrun
  case h_2 k =>
    cases hs
    exact .attempt k
  case h_3 =>
    cases hs
    exact .fail
  case h_4 k =>
    cases hs
    exact .setSock k
  case h_5 k =>
    cases hs
    exact .setReader k
  case h_6 =>
    cases hs
    exact .setConnected
  case h_7 =>
    cases hs
    exact .refused
  case h_8 =>
    cases hs
    exact .setReconnecting
  case h_9 =>
    cases hs
    exact .sleep
  case h_10 => cases hs

omit [DecidableEq K] in
/-- `_connect_with_retry` changes the socket, its reader and the state. -/
theorem connectStep_frame {pc pc' : ConnectPc K} (hs : connectStep conn pc a = some (conn', pc')) :
    conn' = { conn with sock := conn'.sock, reader := conn'.reader, state := conn'.state } := by
  cases connectStep_moves hs <;> rfl

/-- **The steps of the listener.** -/
inductive ListenerMove (conn : ServerConnection K) :
    ListenerPc K → ClientAct K → ServerConnection K → ListenerPc K → Prop
  | started : ListenerMove conn (.connect .done false) .go { conn with started := true } .loop
  | reconnected : ListenerMove conn (.connect .done true) .go conn .checkRunning
  | connectedRaises (again : Bool) :
      ListenerMove conn (.connect .setConnected again) .crash (conn.setState .connected) .died
  | retryRaises (again : Bool) :
      ListenerMove conn (.connect .setReconnecting again) .crash (conn.setState .reconnecting) .died
  | connect {pc pc' : ConnectPc K} {a : ClientAct K} {conn' : ServerConnection K} (again : Bool) :
      connectStep conn pc a = some (conn', pc') →
      ListenerMove conn (.connect pc again) a conn' (.connect pc' again)
  | loop : conn.running = true → ListenerMove conn .loop .go conn .read
  | ends : conn.running = false → ListenerMove conn .loop .go conn .ended
  | read (k : K) : conn.reader = some k → ListenerMove conn .read .go conn (.reading k)
  | readerless : conn.reader = none → ListenerMove conn .read .go conn .died
  | receive (k : K) (m : Message) : ListenerMove conn (.reading k) (.receive (.obj m)) conn (.handle m)
  | receiveNone (k : K) : ListenerMove conn (.reading k) (.receive .null) conn .recover
  | receiveOther (k : K) (m : Json) : (∀ fields, m ≠ .obj fields) → m ≠ .null →
      ListenerMove conn (.reading k) (.receive m) conn .died
  | unreadable (k : K) : ListenerMove conn (.reading k) .unreadable conn .recover
  | overflows (k : K) : ListenerMove conn (.reading k) .crash conn .died
  | recover : conn.running = true → ListenerMove conn .recover .go conn .reconnect
  | recoverStopped : conn.running = false → ListenerMove conn .recover .go conn .loop
  | handle (m : Message) {conn' : ServerConnection K} {pc' : ListenerPc K} :
      handleIncoming conn m = some (conn', pc') → ListenerMove conn (.handle m) .go conn' pc'
  | handleRaises (m : Message) : ListenerMove conn (.handle m) .crash conn .died
  | resolve (id : ℕ) (m : Message) : ListenerMove conn (.resolve id m) .go
      (conn.setSlot id { conn.slots id with response := some m }) (.wake id)
  | wake (id : ℕ) : ListenerMove conn (.wake id) .go
      (conn.setSlot id { conn.slots id with event := true }) .loop
  | reconnect : conn.running = true → ListenerMove conn .reconnect .go conn .setReconnecting
  | reconnectStopped : conn.running = false → ListenerMove conn .reconnect .go conn .loop
  | setReconnecting : ListenerMove conn .setReconnecting .go (conn.setState .reconnecting) .lockPending
  | reconnectRaises : ListenerMove conn .setReconnecting .crash (conn.setState .reconnecting) .died
  | lock : conn.pendingLock = false → ListenerMove conn .lockPending .go
      { conn with pendingLock := true } (.sweep conn.pending)
  | sweep (id : ℕ) (todo : List ℕ) : ListenerMove conn (.sweep (id :: todo)) .go
      (conn.setSlot id { conn.slots id with response := some connectionLost }) (.sweepWake id todo)
  | sweepWake (id : ℕ) (todo : List ℕ) : ListenerMove conn (.sweepWake id todo) .go
      (conn.setSlot id { conn.slots id with event := true }) (.sweep todo)
  | swept : ListenerMove conn (.sweep []) .go { conn with pending := [], pendingLock := false }
      (.connect .check true)
  | checkRunning : conn.running = true → ListenerMove conn .checkRunning .go conn .checkCredentials
  | stopped : conn.running = false → ListenerMove conn .checkRunning .go conn .loop
  | checkCredentials (x : Text × Text) : conn.credentials = some x →
      ListenerMove conn .checkCredentials .go conn .unpack
  | loggedOut : conn.credentials = none → ListenerMove conn .checkCredentials .go conn .loop
  | relogin (userId username : Text) : conn.credentials = some (userId, username) →
      ListenerMove conn .unpack .go conn
        (.relogin { action := actionLogin, params := loginParams userId username })
  | unpackNone : conn.credentials = none → ListenerMove conn .unpack .go conn .died
  | request {a : ClientAct K} {c c' : RequestCall K} {conn' : ServerConnection K} :
      requestStep conn c a = some (conn', c') →
      ListenerMove conn (.relogin c) a conn' (.relogin c')
  | returns (action : Text) (params : List (Text × Json)) (id : ℕ) (reply : Option Message) :
      ListenerMove conn (.relogin ⟨action, params, .done id reply⟩) .go conn .loop

theorem listenerStep_moves {pc pc' : ListenerPc K} (hs : listenerStep conn pc a = some (conn', pc')) :
    ListenerMove conn pc a conn' pc' := by
  unfold listenerStep at hs
  split at hs
  case h_1 again =>
    cases again with
    | true =>
      cases hs
      exact .reconnected
    | false =>
      cases hs
      exact .started
  case h_2 again =>
    cases hs
    exact .connectedRaises again
  case h_3 again =>
    cases hs
    exact .retryRaises again
  case h_4 =>
    obtain ⟨⟨conn₁, pc₁⟩, hc, heq⟩ := Option.map_eq_some_iff.1 hs
    cases heq
    exact .connect _ hc
  case h_5 =>
    cases hs
    cases hrun : conn.running with
    | true => exact .loop hrun
    | false => exact .ends hrun
  case h_6 =>
    split at hs <;> cases hs
    · rename_i k hk
      exact .read k hk
    · rename_i hk
      exact .readerless hk
  case h_7 k m =>
    cases hs
    exact .receive k m
  case h_8 k =>
    cases hs
    exact .receiveNone k
  case h_9 k m hobj hnull =>
    cases hs
    exact .receiveOther k m hobj hnull
  case h_10 k =>
    cases hs
    exact .unreadable k
  case h_11 k =>
    cases hs
    exact .overflows k
  case h_12 =>
    cases hs
    cases hrun : conn.running with
    | true => exact .recover hrun
    | false => exact .recoverStopped hrun
  case h_13 m => exact .handle m hs
  case h_14 m =>
    split at hs <;> cases hs
    exact .handleRaises m
  case h_15 id m =>
    cases hs
    exact .resolve id m
  case h_16 id =>
    cases hs
    exact .wake id
  case h_17 =>
    cases hs
    cases hrun : conn.running with
    | true => exact .reconnect hrun
    | false => exact .reconnectStopped hrun
  case h_18 =>
    cases hs
    exact .setReconnecting
  case h_19 =>
    cases hs
    exact .reconnectRaises
  case h_20 =>
    split at hs <;> cases hs
    rename_i hl
    exact .lock (eq_false_of_ne_true hl)
  case h_21 id todo =>
    cases hs
    exact .sweep id todo
  case h_22 id todo =>
    cases hs
    exact .sweepWake id todo
  case h_23 =>
    cases hs
    exact .swept
  case h_24 =>
    cases hs
    cases hrun : conn.running with
    | true => exact .checkRunning hrun
    | false => exact .stopped hrun
  case h_25 =>
    cases hs
    cases hcred : conn.credentials with
    | none => exact .loggedOut hcred
    | some x => exact .checkCredentials x hcred
  case h_26 =>
    split at hs <;> cases hs
    · rename_i u n hu
      exact .relogin u n hu
    · rename_i hu
      exact .unpackNone hu
  case h_27 =>
    cases hs
    exact .returns _ _ _ _
  case h_28 =>
    obtain ⟨⟨conn₁, c'⟩, hreq, heq⟩ := Option.map_eq_some_iff.1 hs
    cases heq
    exact .request hreq
  case h_29 => cases hs

/-- The listener is in `read_message`. -/
def ListenerPc.isReading : ListenerPc K → Bool
  | .reading _ => true
  | _ => false

/-- A point at which the listener has no message, no slot and no call. -/
def ListenerPc.bare : ListenerPc K → Bool
  | .handle _ | .resolve _ _ | .wake _ | .sweep _ | .sweepWake _ _ | .relogin _ => false
  | _ => true

inductive ListenerStep (conn : ServerConnection K) :
    ListenerPc K → ClientAct K → ServerConnection K → ListenerPc K → Prop
  | connect {pc pc' : ConnectPc K} {a : ClientAct K} {conn' : ServerConnection K} (again : Bool) :
      connectStep conn pc a = some (conn', pc') →
      ListenerStep conn (.connect pc again) a conn' (.connect pc' again)
  | read (k : K) : conn.reader = some k → ListenerStep conn .read .go conn (.reading k)
  | receive (k : K) (m : Message) : ListenerStep conn (.reading k) (.receive (.obj m)) conn (.handle m)
  | handle (m : Message) {conn' : ServerConnection K} {pc' : ListenerPc K} :
      handleIncoming conn m = some (conn', pc') → ListenerStep conn (.handle m) .go conn' pc'
  | crash (m : Message) : ListenerStep conn (.handle m) .crash conn .died
  | resolve (id : ℕ) (m : Message) : ListenerStep conn (.resolve id m) .go
      (conn.setSlot id { conn.slots id with response := some m }) (.wake id)
  | wake (id : ℕ) : ListenerStep conn (.wake id) .go
      (conn.setSlot id { conn.slots id with event := true }) .loop
  | lock : conn.pendingLock = false → ListenerStep conn .lockPending .go
      { conn with pendingLock := true } (.sweep conn.pending)
  | sweep (id : ℕ) (todo : List ℕ) : ListenerStep conn (.sweep (id :: todo)) .go
      (conn.setSlot id { conn.slots id with response := some connectionLost }) (.sweepWake id todo)
  | sweepWake (id : ℕ) (todo : List ℕ) : ListenerStep conn (.sweepWake id todo) .go
      (conn.setSlot id { conn.slots id with event := true }) (.sweep todo)
  | swept : ListenerStep conn (.sweep []) .go { conn with pending := [], pendingLock := false }
      (.connect .check true)
  | relogin (userId username : Text) : conn.credentials = some (userId, username) →
      ListenerStep conn .unpack .go conn
        (.relogin { action := actionLogin, params := loginParams userId username })
  | request {a : ClientAct K} {c c' : RequestCall K} {conn' : ServerConnection K} :
      requestStep conn c a = some (conn', c') →
      ListenerStep conn (.relogin c) a conn' (.relogin c')
  | returns (action : Text) (params : List (Text × Json)) (id : ℕ) (reply : Option Message) :
      ListenerStep conn (.relogin ⟨action, params, .done id reply⟩) .go conn .loop
  | outside {pc pc' : ListenerPc K} {a : ClientAct K} (state : ConnectionState) (started : Bool) :
      pc.bare = true → pc'.bare = true → pc'.socket = none → pc.receives a = [] →
      ListenerStep conn pc a { conn with state, started } pc'

theorem listenerStep_cases {pc pc' : ListenerPc K} (hs : listenerStep conn pc a = some (conn', pc')) :
    ListenerStep conn pc a conn' pc' := by
  cases listenerStep_moves hs with
  | connect again hc => exact .connect again hc
  | read k hk => exact .read k hk
  | receive k m => exact .receive k m
  | receiveOther k m hobj =>
    refine .outside _ _ rfl rfl rfl ?_
    cases m with
    | obj fields => exact absurd rfl (hobj fields)
    | _ => rfl
  | handle m hm => exact .handle m hm
  | handleRaises m => exact .crash m
  | resolve id m => exact .resolve id m
  | wake id => exact .wake id
  | lock hl => exact .lock hl
  | sweep id todo => exact .sweep id todo
  | sweepWake id todo => exact .sweepWake id todo
  | swept => exact .swept
  | relogin u n hu => exact .relogin u n hu
  | request hreq => exact .request hreq
  | returns => exact .returns _ _ _ _
  | _ => exact .outside _ _ rfl rfl rfl rfl

/-! ## The heartbeat -/

/-- **The steps of the heartbeat.** -/
inductive BeatMove (conn : ServerConnection K) :
    BeatPc K → ClientAct K → ServerConnection K → BeatPc K → Prop
  | start : conn.started = true → BeatMove conn .off .go conn .loop
  | loop : conn.running = true → BeatMove conn .loop .go conn .sleep
  | ends : conn.running = false → BeatMove conn .loop .go conn .ended
  | sleep : BeatMove conn .sleep .go conn .check
  | connected : conn.state = .connected → BeatMove conn .check .go conn .next
  | unconnected : conn.state ≠ .connected → BeatMove conn .check .go conn .loop
  | next : BeatMove conn .next .go { conn with nextId := conn.nextId + 1 } (.send conn.nextId .lock)
  | send (id : ℕ) {pc pc' : SendPc K} {conn' : ServerConnection K} (ok : Bool) :
      SendStep ⟨id, actionPing, []⟩ conn pc ok conn' pc' →
      BeatMove conn (.send id pc) (if ok then .go else .fail) conn' (.ofSend id pc')

theorem beatStep_moves {pc pc' : BeatPc K} (hs : beatStep conn pc a = some (conn', pc')) :
    BeatMove conn pc a conn' pc' := by
  have hping : ∀ id pc₀ ok, beatStep.ping conn id pc₀ ok = some (conn', pc') →
      BeatMove conn (.send id pc₀) (if ok then .go else .fail) conn' pc' := by
    intro id pc₀ ok hs
    obtain ⟨⟨conn₁, pc₁⟩, hraw, heq⟩ := Option.map_eq_some_iff.1 hs
    cases heq
    exact .send id ok (rawSend_cases hraw)
  unfold beatStep at hs
  split at hs
  case h_1 =>
    split at hs <;> cases hs
    rename_i hstarted
    exact .start hstarted
  case h_2 =>
    cases hs
    cases hrun : conn.running with
    | true => exact .loop hrun
    | false => exact .ends hrun
  case h_3 =>
    cases hs
    exact .sleep
  case h_4 =>
    cases hs
    by_cases hstate : conn.state = .connected
    · rw [if_pos hstate]
      exact .connected hstate
    · rw [if_neg hstate]
      exact .unconnected hstate
  case h_5 =>
    cases hs
    exact .next
  case h_6 id pc₀ => exact hping id pc₀ true hs
  case h_7 id pc₀ => exact hping id pc₀ false hs
  case h_8 => cases hs

inductive BeatStep (conn : ServerConnection K) :
    BeatPc K → ClientAct K → ServerConnection K → BeatPc K → Prop
  | next : BeatStep conn .next .go { conn with nextId := conn.nextId + 1 } (.send conn.nextId .lock)
  | send (id : ℕ) {pc pc' : SendPc K} {conn' : ServerConnection K} (ok : Bool) :
      SendStep ⟨id, actionPing, []⟩ conn pc ok conn' pc' →
      BeatStep conn (.send id pc) (if ok then .go else .fail) conn' (.ofSend id pc')
  | outside {pc pc' : BeatPc K} {a : ClientAct K} : (∀ id pc₁, pc' ≠ .send id pc₁) →
      pc.issues conn a = [] → BeatStep conn pc a conn pc'

theorem beatStep_cases {pc pc' : BeatPc K} (hs : beatStep conn pc a = some (conn', pc')) :
    BeatStep conn pc a conn' pc' := by
  cases beatStep_moves hs with
  | next => exact .next
  | send id ok hsend => exact .send id ok hsend
  | start | loop | ends | sleep | connected | unconnected =>
    exact .outside (fun _ _ h => nomatch h) rfl

/-- The heartbeat changes the ids, its lock and what is sent. -/
theorem beatStep_frame {pc pc' : BeatPc K} (hs : beatStep conn pc a = some (conn', pc')) :
    conn' = { conn with
      nextId := conn'.nextId, sendLock := conn'.sendLock, sent := conn'.sent } := by
  cases beatStep_moves hs with
  | send id ok hsend => rw [hsend.frame]
  | _ => rfl

end Steps

end DistRes
