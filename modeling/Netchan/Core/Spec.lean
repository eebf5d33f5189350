import Netchan.Core.Step

/-!
# What each call does

One lemma for each call of the API that branches: it lists the outcomes with the guards that lead
to them and the connection each one leaves, so that later proofs need not look into the calls.
-/

namespace Netchan

open Lib

/-! ## Datagrams -/

/-- **What the source address of a datagram changes**: the peer's address, or nothing. -/
theorem updatePeer_eq (c : Conn) (frames : List UInt8) (source : Option Addr) :
    ∃ a, updatePeer c frames source = { c with peerAddr := a } := by
  unfold updatePeer
  dsimp only
  repeat' split
  all_goals exact ⟨_, rfl⟩

/-! ## Timers -/

/-- `netchan_service` ends the session: the handshake ran out of attempts, or the peer was silent
for too long. -/
def GivesUp (c : Conn) (now : UInt32) : Prop :=
  (c.state = .connecting ∧ c.server = false ∧ now - c.connectSentMs ≥ ncConnectRetryMs ∧
      c.connectAttempts ≥ ncConnectRetries) ∨
    (c.state = .connected ∧ c.lastRecvMs > 0 ∧ now - c.lastRecvMs ≥ c.cfg.idleTimeoutMs)

instance (c : Conn) (now : UInt32) : Decidable (GivesUp c now) :=
  inferInstanceAs (Decidable (_ ∨ _))

/-- The connection after the handshake retry and the keepalive of `netchan_service`. -/
def serviced (env : Env) (c : Conn) (now : UInt32) : Conn :=
  if c.state = .connecting ∧ c.server = false ∧ now - c.connectSentMs ≥ ncConnectRetryMs then
    { ctrlConnectInit c with connectSentMs := now, connectAttempts := c.connectAttempts + 1 }
  else if c.state = .connected ∧ c.lastSendMs > 0 ∧ now - c.lastSendMs ≥ ncPingIntervalMs ∧
      c.pingSentMs = 0 then
    { ctrlPing c (ncRandomId env) with pingOpaque := ncRandomId env, pingSentMs := now }
  else c

theorem serviceConnect_cases (c : Conn) (now : UInt32) :
    (c.state = .connecting ∧ c.server = false ∧ now - c.connectSentMs ≥ ncConnectRetryMs ∧
      c.connectAttempts ≥ ncConnectRetries) ∧
      serviceConnect c now = (evPush { c with state := .closed } .disconnected, none) ∨
    (c.state = .connecting ∧ c.server = false ∧ now - c.connectSentMs ≥ ncConnectRetryMs ∧
      ¬ c.connectAttempts ≥ ncConnectRetries) ∧
      (∃ n, serviceConnect c now = ({ ctrlConnectInit c with
        connectSentMs := now, connectAttempts := c.connectAttempts + 1 }, some n)) ∨
    ¬ (c.state = .connecting ∧ c.server = false ∧ now - c.connectSentMs ≥ ncConnectRetryMs) ∧
      ∃ n, serviceConnect c now = (c, some n) := by
  unfold serviceConnect
  by_cases h1 : c.state = .connecting ∧ c.server = false
  · rw [if_pos h1]
    by_cases h2 : now - c.connectSentMs ≥ ncConnectRetryMs
    · simp only [if_pos h2]
      by_cases h3 : c.connectAttempts ≥ ncConnectRetries
      · exact .inl ⟨⟨h1.1, h1.2, h2, h3⟩, by rw [if_pos h3]⟩
      · exact .inr (.inl ⟨⟨h1.1, h1.2, h2, h3⟩, _, by rw [if_neg h3]⟩)
    · exact .inr (.inr ⟨fun h => h2 h.2.2, _, by simp only [if_neg h2]; rfl⟩)
  · exact .inr (.inr ⟨fun h => h1 ⟨h.1, h.2.1⟩, _, if_neg h1⟩)

theorem serviceIdle_cases (c : Conn) (now : UInt32) (n : Int) :
    (c.state = .connected ∧ c.lastRecvMs > 0 ∧ now - c.lastRecvMs ≥ c.cfg.idleTimeoutMs) ∧
      serviceIdle c now n = (evPush { c with state := .closed } .disconnected, none) ∨
    ¬ (c.state = .connected ∧ c.lastRecvMs > 0 ∧ now - c.lastRecvMs ≥ c.cfg.idleTimeoutMs) ∧
      ∃ m, serviceIdle c now n = (c, some m) := by
  unfold serviceIdle
  by_cases h1 : c.state = .connected ∧ c.lastRecvMs > 0
  · rw [if_pos h1]
    by_cases h2 : now - c.lastRecvMs ≥ c.cfg.idleTimeoutMs
    · exact .inl ⟨⟨h1.1, h1.2, h2⟩, by simp only [if_pos h2]⟩
    · exact .inr ⟨fun h => h2 h.2.2, _, by simp only [if_neg h2]; rfl⟩
  · exact .inr ⟨fun h => h1 ⟨h.1, h.2.1⟩, _, if_neg h1⟩

theorem servicePing_cases (env : Env) (c : Conn) (now : UInt32) (n : Int) :
    ∃ m, servicePing env c now n = (if c.state = .connected ∧ c.lastSendMs > 0 ∧
        now - c.lastSendMs ≥ ncPingIntervalMs ∧ c.pingSentMs = 0 then
      { ctrlPing c (ncRandomId env) with pingOpaque := ncRandomId env, pingSentMs := now }
      else c, m) := by
  unfold servicePing
  by_cases h1 : c.state = .connected ∧ c.lastSendMs > 0
  · by_cases h2 : now - c.lastSendMs ≥ ncPingIntervalMs ∧ c.pingSentMs = 0
    · rw [if_pos h1, if_pos ⟨h1.1, h1.2, h2⟩]
      exact ⟨_, by simp only [if_pos h2]; rfl⟩
    · rw [if_pos h1, if_neg fun h => h2 h.2.2]
      exact ⟨_, by simp only [if_neg h2]; rfl⟩
  · rw [if_neg h1, if_neg fun h => h1 ⟨h.1, h.2.1⟩]
    exact ⟨n, rfl⟩

/-- The retransmission timer of a slot has run out. -/
def Outgoing.Due (o : Outgoing) (cfg : Cfg) (now : UInt32) : Prop :=
  o.active = true ∧ o.sentMs ≠ 0 ∧ now - o.sentMs ≥ rtTimeout cfg o

instance (o : Outgoing) (cfg : Cfg) (now : UInt32) : Decidable (o.Due cfg now) :=
  inferInstanceAs (Decidable (_ ∧ _))

/-- The slot with its message to be sent again. -/
def Outgoing.requeued (o : Outgoing) (now : UInt32) : Outgoing :=
  { o with fragSent := 0, sentMs := now, attempts := o.attempts + 1 }

/-- **What `netchan_service` does to the slots of a channel**: a slot whose timer has run out is
sent again, or ends the channel if it was sent too often. -/
theorem serviceSlots_cases (cfg : Cfg) (now : UInt32) : ∀ (js : List (Fin ncOutgoingSlots))
    (s : Sender) (n : Int), js.Nodup →
    let r := serviceSlots cfg now js s n
    (∀ k, r.1.outgoing k = s.outgoing k ∨ k ∈ js ∧ (s.outgoing k).Due cfg now ∧
      (s.outgoing k).attempts < ncMaxRtAttempts ∧
      r.1.outgoing k = (s.outgoing k).requeued now) ∧
    (∃ m, r.1 = { s with outgoing := r.1.outgoing, retransmissions := m }) ∧
    (r.2.1 = true →
      ∃ k ∈ js, (s.outgoing k).Due cfg now ∧ ncMaxRtAttempts ≤ (s.outgoing k).attempts)
  | [], s, _, _ => ⟨fun _ => .inl rfl, ⟨s.retransmissions, rfl⟩, by simp [serviceSlots]⟩
  | j :: js, s, n, hn => by
    obtain ⟨hj, hn⟩ := List.nodup_cons.1 hn
    have skip : ∀ m, let r := serviceSlots cfg now js s m
        (∀ k, r.1.outgoing k = s.outgoing k ∨ k ∈ j :: js ∧ (s.outgoing k).Due cfg now ∧
          (s.outgoing k).attempts < ncMaxRtAttempts ∧
          r.1.outgoing k = (s.outgoing k).requeued now) ∧
        (∃ m, r.1 = { s with outgoing := r.1.outgoing, retransmissions := m }) ∧
        (r.2.1 = true →
          ∃ k ∈ j :: js, (s.outgoing k).Due cfg now ∧
            ncMaxRtAttempts ≤ (s.outgoing k).attempts) := by
      intro m
      obtain ⟨h1, h2, h3⟩ := serviceSlots_cases cfg now js s m hn
      refine ⟨fun k => (h1 k).imp_right fun h => ⟨.tail _ h.1, h.2⟩, h2, fun h => ?_⟩
      obtain ⟨k, hk, h⟩ := h3 h
      exact ⟨k, .tail _ hk, h⟩
    unfold serviceSlots
    dsimp only
    split
    · exact skip n
    · rename_i hg
      split
      · rename_i ht
        have hdue : (s.outgoing j).Due cfg now := by
          simp only [Bool.or_eq_true, Bool.not_eq_true', beq_iff_eq, not_or,
            Bool.not_eq_false] at hg
          exact ⟨hg.1, hg.2, ht⟩
        split
        · rename_i ha
          exact ⟨fun _ => .inl rfl, ⟨s.retransmissions, rfl⟩, fun _ => ⟨j, .head _, hdue, ha⟩⟩
        · rename_i ha
          obtain ⟨h1, ⟨m, h2⟩, h3⟩ := serviceSlots_cases cfg now js
            { s with outgoing := Function.update s.outgoing j ((s.outgoing j).requeued now)
                     retransmissions := s.retransmissions + 1 } n hn
          refine ⟨fun k => ?_, ⟨m, h2⟩, fun hd => ?_⟩
          · by_cases hk : k = j
            · subst hk
              rcases h1 k with h | h
              · refine .inr ⟨.head _, hdue, by omega, h.trans ?_⟩
                exact Function.update_self ..
              · exact absurd h.1 hj
            · have := h1 k
              simp only [Function.update_of_ne hk] at this
              exact this.imp_right fun h => ⟨.tail _ h.1, h.2⟩
          · obtain ⟨k, hmem, hd, ha'⟩ := h3 hd
            have hk : k ≠ j := fun he => hj (he ▸ hmem)
            simp only [Function.update_of_ne hk] at hd ha'
            exact ⟨k, .tail _ hmem, hd, ha'⟩
      · exact skip _

/-- A channel after `netchan_service` went through its slots. -/
def chanTimed (cfg : Cfg) (now : UInt32) (ch : Chan) : Chan :=
  if ch.role ≠ .sender ∨ ch.type ≠ .reliable then ch
  else
    let r := serviceSlots cfg now (List.finRange ncOutgoingSlots) ch.snd 0
    { ch with snd := r.1, state := if r.2.1 then .closed else ch.state }

/-- The slots do not depend on the wait computed so far. -/
theorem serviceSlots_wait (cfg : Cfg) (now : UInt32) : ∀ (js : List (Fin ncOutgoingSlots))
    (s : Sender) (n m : Int), (serviceSlots cfg now js s n).1 = (serviceSlots cfg now js s m).1 ∧
      (serviceSlots cfg now js s n).2.1 = (serviceSlots cfg now js s m).2.1
  | [], _, _, _ => ⟨rfl, rfl⟩
  | j :: js, s, n, m => by
    unfold serviceSlots
    dsimp only
    split
    · exact serviceSlots_wait cfg now js s n m
    split
    · split
      · exact ⟨rfl, rfl⟩
      · exact serviceSlots_wait cfg now js _ n m
    · exact serviceSlots_wait cfg now js s _ _

theorem serviceChans_table (cfg : Cfg) (now : UInt32) : ∀ (is : List ChanId) (ev : _) (t : Table)
    (n : Int), is.Nodup → (serviceChans cfg now is (ev, t) n).1.2 =
      fun id => if id ∈ is then (t id).map (chanTimed cfg now) else t id
  | [], _, _, _, _ => by simp [serviceChans]
  | i :: is, ev, t, n, h => by
    obtain ⟨hi, hn⟩ := List.nodup_cons.1 h
    have skip : ∀ {t' : Table}, (∀ j, j ≠ i → t' j = t j) →
        t' i = (t i).map (chanTimed cfg now) →
        (fun id => if id ∈ is then (t' id).map (chanTimed cfg now) else t' id) =
          fun id => if id ∈ i :: is then (t id).map (chanTimed cfg now) else t id := by
      intro t' hne hit
      funext id
      by_cases he : id = i
      · subst he
        simp [hi, hit]
      · simp [he, hne id he]
    unfold serviceChans
    split
    · rename_i ht
      rw [serviceChans_table cfg now is _ _ _ hn]
      exact skip (fun _ _ => rfl) (by simp [ht])
    · rename_i ch ht
      split
      · rename_i hr
        rw [serviceChans_table cfg now is _ _ _ hn]
        exact skip (fun _ _ => rfl) (by rw [ht, Option.map_some, chanTimed, if_pos hr])
      · rename_i hr
        obtain ⟨w1, w2⟩ := serviceSlots_wait cfg now (List.finRange ncOutgoingSlots) ch.snd n 0
        split
        · rename_i s m hs
          rw [hs] at w1 w2
          rw [serviceChans_table cfg now is _ _ _ hn]
          refine skip (fun j hj => Table.set_of_ne _ hj _) ?_
          rw [ht, Option.map_some, chanTimed, if_neg hr, Table.set_same]
          dsimp only
          rw [← w1, ← w2]
          rfl
        · rename_i s m hs
          rw [hs] at w1 w2
          rw [serviceChans_table cfg now is _ _ _ hn]
          refine skip (fun j hj => Table.set_of_ne _ hj _) ?_
          rw [ht, Option.map_some, chanTimed, if_neg hr, Table.set_same]
          dsimp only
          rw [← w1, ← w2]
          rfl

/-- **What `netchan_service` does to the channels**: each one's slots are looked at. -/
theorem serviceChans_allIds (cfg : Cfg) (now : UInt32) (ev : _) (t : Table) (n : Int) :
    (serviceChans cfg now allIds (ev, t) n).1.2 = fun id => (t id).map (chanTimed cfg now) := by
  rw [serviceChans_table cfg now allIds ev t n (List.nodup_finRange _)]
  funext id
  exact if_pos (List.mem_finRange id)

/-- **What `netchan_service` does**: it ends the session, or it sends what is due and goes through
the channels. -/
theorem netchanService_cases (env : Env) (c : Conn) (now : UInt32) :
    GivesUp c now ∧
      (netchanService env c now).2 = evPush { c with state := .closed } .disconnected ∨
    ¬ GivesUp c now ∧ ∃ n, (netchanService env c now).2 = { serviced env c now with
      events := (serviceChans c.cfg now allIds (c.events, c.channels) n).1.1
      channels := (serviceChans c.cfg now allIds (c.events, c.channels) n).1.2 } := by
  unfold netchanService
  rcases serviceConnect_cases c now with ⟨h, he⟩ | ⟨h, n, he⟩ | ⟨h, n, he⟩
  · exact .inl ⟨.inl h, by rw [he]⟩
  · -- the client retries; it is connecting, so neither the idle timer nor the keepalive runs
    have hs : c.state ≠ .connected := by rw [h.1]; simp
    have hg : ¬ GivesUp c now := by
      rintro (h' | h')
      · exact h.2.2.2 h'.2.2.2
      · exact hs h'.1
    refine .inr ⟨hg, ?_⟩
    rw [serviced, if_pos ⟨h.1, h.2.1, h.2.2.1⟩, he]
    dsimp only
    rcases serviceIdle_cases { ctrlConnectInit c with
        connectSentMs := now, connectAttempts := c.connectAttempts + 1 } now n with
      ⟨hi, -⟩ | ⟨-, m, hi⟩
    · exact absurd hi.1 hs
    · rw [hi]
      obtain ⟨k, hk⟩ := servicePing_cases env { ctrlConnectInit c with
        connectSentMs := now, connectAttempts := c.connectAttempts + 1 } now m
      dsimp only
      rw [hk, if_neg fun hp => hs hp.1]
      exact ⟨k, rfl⟩
  · rw [he]
    dsimp only
    rcases serviceIdle_cases c now n with ⟨hi, he'⟩ | ⟨hi, m, he'⟩
    · exact .inl ⟨.inr hi, by rw [he']⟩
    · refine .inr ⟨?_, ?_⟩
      · rintro (h' | h')
        · exact h ⟨h'.1, h'.2.1, h'.2.2.1⟩
        · exact hi h'
      · rw [serviced, if_neg h, he']
        obtain ⟨k, hk⟩ := servicePing_cases env c now m
        dsimp only
        rw [hk]
        refine ⟨k, ?_⟩
        split <;> rfl

/-! ## Session calls -/

/-- The calls that concern no channel. -/
def Call.Session : Call → Prop
  | .connect _ _ | .accept | .disconnect | .poll => True
  | _ => False

theorem apply_session (c : Conn) {k : Call} (h : k.Session) :
    (k.apply c).channels = c.channels ∧ (k.apply c).pool = c.pool ∧
      (k.apply c).chanUsed = c.chanUsed ∧ (k.apply c).nextChanId = c.nextChanId := by
  cases k with
  | connect env addr =>
    simp only [Call.apply, netchanConnect]
    repeat' split
    all_goals exact ⟨rfl, rfl, rfl, rfl⟩
  | accept =>
    simp only [Call.apply, netchanAccept]
    repeat' split
    all_goals exact ⟨rfl, rfl, rfl, rfl⟩
  | disconnect =>
    simp only [Call.apply, netchanDisconnect]
    split <;> exact ⟨rfl, rfl, rfl, rfl⟩
  | poll =>
    simp only [Call.apply, netchanPoll]
    split <;> exact ⟨rfl, rfl, rfl, rfl⟩
  | service env now => exact h.elim
  | chanOpen type dir ct => exact h.elim
  | chanClose id => exact h.elim
  | write id data => exact h.elim
  | read id buflen => exact h.elim

/-! ## Channels -/

/-- The channel `netchan_chan_open` creates: a receiver is open at once. -/
def createdChan (c : Conn) (type : ChanType) (dir : Dir) (contentType : List UInt8) : Chan :=
  { freshChan c c.nextChanId type dir (if dir = .send then .sender else .receiver) contentType with
    state := if dir = .send then .opening else .opened }

/-- The CHANNEL_OPEN frame of a channel. -/
def openFrame (ch : Chan) : Frame :=
  .channelOpen ch.id (.ofByte ch.type.toByte) (.ofByte ch.dir.toByte) (ch.contentType.take 63)

theorem toByte_ofByte_type (b : UInt8) : (ChanType.ofByte b).toByte = b := by
  unfold ChanType.ofByte
  repeat' split
  all_goals simp_all [ChanType.toByte]

theorem toByte_ofByte_dir (b : UInt8) : (Dir.ofByte b).toByte = b := by
  unfold Dir.ofByte
  repeat' split
  all_goals simp_all [Dir.toByte]

theorem ctrlChannelOpen_eq (c : Conn) (ch : Chan) :
    ctrlChannelOpen c ch = ctrlReserve c (openFrame ch).encode := by
  have h : ch.contentType.take (min ch.contentType.length 63) = ch.contentType.take 63 := by
    rw [← List.take_take]
    exact List.take_of_length_le (by simp)
  simp only [ctrlChannelOpen, openFrame, Frame.encode, toByte_ofByte_type, toByte_ofByte_dir, h,
    List.length_take, Nat.min_comm]

/-- **What `netchan_chan_open` does.** -/
theorem netchanChanOpen_eq (c : Conn) (type : ChanType) (dir : Dir) (contentType : List UInt8) :
    netchanChanOpen c type dir contentType =
      if c.state ≠ .connected ∨ (c.channels c.nextChanId).isSome then (none, c)
      else if ncMaxChan ≤ c.chanUsed then (none, { c with nextChanId := c.nextChanId + 2 })
      else (some c.nextChanId, { c with
        nextChanId := c.nextChanId + 2
        chanUsed := c.chanUsed + 1
        channels := Table.set c.channels c.nextChanId (createdChan c type dir contentType)
        ctrlBuf :=
          let buf := ctrlAppend c.ctrlBuf (openFrame (createdChan c type dir contentType)).encode
          if dir = .send then buf
          else ctrlAppend buf (Frame.windowUpdate c.nextChanId c.cfg.chanWindow).encode }) := by
  unfold netchanChanOpen chanNew
  by_cases h1 : c.state = .connected
  · by_cases h2 : (c.channels c.nextChanId).isSome
    · simp [h1, h2]
    · by_cases h3 : c.chanUsed < ncMaxChan
      · by_cases hd : dir = .send
        · simp [h1, h2, h3, hd, Nat.not_le.2 h3, ctrlChannelOpen_eq, ctrlReserve, Conn.setChan,
            createdChan, freshChan, openFrame]
        · simp [h1, h2, h3, hd, Nat.not_le.2 h3, ctrlChannelOpen_eq, ctrlReserve, Conn.setChan,
            createdChan, freshChan, openFrame, ctrlWindowUpdate, Frame.encode, Table.set]
      · simp [h1, h2, h3, Nat.not_lt.1 h3]
  · simp [h1]

theorem maxFragPayload_eq {c : Conn} (h : 15 ≤ c.cfg.mtu.toNat) :
    maxFragPayload c = c.cfg.mtu.toNat - 15 := by
  have h7 : (UInt32.ofNat ncHdrFullSize).toNat = 7 := rfl
  have h8 : (8 : UInt32).toNat = 8 := rfl
  have h1 : (c.cfg.mtu - UInt32.ofNat ncHdrFullSize).toNat = c.cfg.mtu.toNat - 7 := by
    rw [UInt32.toNat_sub_of_le _ _ (by rw [UInt32.le_iff_toNat_le, h7]; omega), h7]
  rw [maxFragPayload,
    UInt32.toNat_sub_of_le _ _ (by rw [UInt32.le_iff_toNat_le, h8, h1]; omega), h1, h8]
  omega

/-- A message takes the slot at `out_tail`. -/
def writtenChan (c : Conn) (ch : Chan) (b : BufIdx) (data : List UInt8) : Chan :=
  { ch with snd := { ch.snd with
      outgoing := Function.update ch.snd.outgoing ch.snd.outTail
        { seq := ch.snd.sendSeq, buf := some b, len := data.length,
          fragTotal := fragTotalOf (maxFragPayload c) data.length, active := true }
      sendSeq := ch.snd.sendSeq + 1
      bytesInFlight :=
        if ch.type = ChanType.reliable then ch.snd.bytesInFlight + UInt32.ofNat data.length
        else ch.snd.bytesInFlight
      msgsSent := ch.snd.msgsSent + 1
      outTail := ch.snd.outTail + 1 } }

/-- A message of too many fragments was refused: its sequence number is gone. -/
def skippedChan (ch : Chan) : Chan :=
  { ch with snd := { ch.snd with outgoing := Function.update ch.snd.outgoing ch.snd.outTail {}
                                 sendSeq := ch.snd.sendSeq + 1 } }

/-- `netchan_chan_write` takes the message. -/
def writeAccepted (c : Conn) (id : ChanId) (data : List UInt8) : Bool :=
  match (netchanChanWrite c id data).1 with
  | .ok n => n ≠ 0
  | .error _ => false

/-- The guards of `netchan_chan_write` up to the buffer it takes. -/
structure CanWrite (c : Conn) (id : ChanId) (data : List UInt8) (ch : Chan) (b : BufIdx)
    (p : Pool) : Prop where
  chan : c.channels id = some ch
  role : ch.role = .sender
  state : ch.state ≠ .closed
  pos : data.length ≠ 0
  small : data.length ≤ ncMaxMsg
  window : ¬ (ch.type = .reliable ∧ ch.state = .opened ∧
    ch.snd.bytesInFlight.toNat + data.length > ch.snd.sendWindow.toNat)
  room : ch.snd.outTail + 1 ≠ ch.snd.outHead
  get : poolGet c.pool = (some b, p)

/-- **What `netchan_chan_write` does**: nothing, or it takes the message, or it refuses it for its
number of fragments after taking a sequence number for it. -/
theorem netchanChanWrite_cases (c : Conn) (id : ChanId) (data : List UInt8) :
    ((netchanChanWrite c id data).2 = c ∧ writeAccepted c id data = false) ∨
    ∃ ch b p, CanWrite c id data ch b p ∧
      (fragTotalOf (maxFragPayload c) data.length ≤ ncMaxFrags ∧ writeAccepted c id data = true ∧
        (netchanChanWrite c id data).2 =
          { c with pool := p.write (some b) 0 data }.setChan id (writtenChan c ch b data) ∨
      ¬ fragTotalOf (maxFragPayload c) data.length ≤ ncMaxFrags ∧ writeAccepted c id data = false ∧
        (netchanChanWrite c id data).2 =
          { c with pool := poolPut (p.write (some b) 0 data) (some b) }.setChan id
            (skippedChan ch)) := by
  unfold writeAccepted
  generalize hr : netchanChanWrite c id data = r
  unfold netchanChanWrite at hr
  cases hc : c.channels id with
  | none =>
    rw [hc] at hr
    subst hr
    exact .inl ⟨rfl, rfl⟩
  | some ch =>
    simp only [hc] at hr
    by_cases h1 : ch.role = .sender
    swap
    · rw [if_pos h1] at hr; subst hr; exact .inl ⟨rfl, rfl⟩
    by_cases h2 : ch.state = .closed
    · rw [if_neg (by simp [h1]), if_pos h2] at hr; subst hr; exact .inl ⟨rfl, rfl⟩
    by_cases h3 : data.length = 0
    · rw [if_neg (by simp [h1]), if_neg h2, if_pos h3] at hr; subst hr
      exact .inl ⟨rfl, by simp⟩
    by_cases h4 : data.length > ncMaxMsg
    · rw [if_neg (by simp [h1]), if_neg h2, if_neg h3, if_pos h4] at hr; subst hr
      exact .inl ⟨rfl, rfl⟩
    by_cases h5 : ch.type = .reliable ∧ ch.state = .opened ∧
        ch.snd.bytesInFlight.toNat + data.length > ch.snd.sendWindow.toNat
    · rw [if_neg (by simp [h1]), if_neg h2, if_neg h3, if_neg h4, if_pos h5] at hr; subst hr
      exact .inl ⟨rfl, rfl⟩
    by_cases h6 : ch.snd.outTail + 1 = ch.snd.outHead
    · rw [if_neg (by simp [h1]), if_neg h2, if_neg h3, if_neg h4, if_neg h5, if_pos h6] at hr
      subst hr
      exact .inl ⟨rfl, rfl⟩
    rw [if_neg (by simp [h1]), if_neg h2, if_neg h3, if_neg h4, if_neg h5, if_neg h6] at hr
    generalize hg : poolGet c.pool = g at hr
    obtain ⟨b | b, p⟩ := g
    · subst hr
      exact .inl ⟨rfl, rfl⟩
    · refine .inr ⟨ch, b, p, ⟨hc, h1, h2, h3, by omega, h5, h6, hg⟩, ?_⟩
      by_cases h7 : fragTotalOf (maxFragPayload c) data.length > ncMaxFrags
      · simp only [if_pos h7] at hr
        subst hr
        exact .inr ⟨by omega, rfl, rfl⟩
      · simp only [if_neg h7] at hr
        subst hr
        exact .inl ⟨by omega, by simpa using h3, rfl⟩

/-- The guards passed, and the message has few enough fragments: it is taken. -/
theorem netchanChanWrite_taken {c : Conn} {id : ChanId} {data : List UInt8} {ch : Chan} {b : BufIdx}
    {p : Pool} (hw : CanWrite c id data ch b p)
    (hfew : fragTotalOf (maxFragPayload c) data.length ≤ ncMaxFrags) :
    netchanChanWrite c id data = (.ok data.length,
      { c with pool := p.write (some b) 0 data }.setChan id (writtenChan c ch b data)) := by
  unfold netchanChanWrite
  rw [hw.chan]
  dsimp only
  rw [if_neg (by simp [hw.role]), if_neg hw.state, if_neg hw.pos, if_neg (Nat.not_lt.2 hw.small),
    if_neg hw.window, if_neg hw.room, hw.get]
  dsimp only
  rw [if_neg (Nat.not_lt.2 hfew)]
  rfl

/-- **What `netchan_chan_read` does**: nothing, or it takes the oldest message. -/
theorem netchanChanRead_cases (c : Conn) (id : ChanId) (buflen : Nat) :
    ((netchanChanRead c id buflen).2 = c ∧
      (∀ d, (netchanChanRead c id buflen).1 = .ok d → d = []) ∧
      ∀ ch, c.channels id = some ch → ch.role = .receiver → ch.rcv.recvQueue.Empty) ∨
    ∃ ch, c.channels id = some ch ∧ ch.role = .receiver ∧ ¬ ch.rcv.recvQueue.Empty ∧
      netchanChanRead c id buflen =
        (.ok (c.pool.read ch.rcv.recvQueue.front.buf 0 (min ch.rcv.recvQueue.front.len buflen)),
          { c with pool := poolPut c.pool ch.rcv.recvQueue.front.buf }.setChan id
            { ch with rcv := { ch.rcv with
                recvQueue := ch.rcv.recvQueue.pop {}
                recvBuffered := ch.rcv.recvBuffered -
                  UInt32.ofNat (min ch.rcv.recvQueue.front.len buflen)
                needWindowUpdate := true } }) := by
  unfold netchanChanRead
  cases hc : c.channels id with
  | none => exact .inl ⟨rfl, by simp, by simp⟩
  | some ch =>
    dsimp only
    split
    · rename_i hr
      refine .inl ⟨rfl, by simp, fun d hd hrole => ?_⟩
      cases hd
      exact absurd hrole hr
    split
    · rename_i hq
      refine .inl ⟨rfl, by simp, fun d hd _ => ?_⟩
      cases hd
      exact hq
    · exact .inr ⟨ch, rfl, by simpa using ‹¬ ch.role ≠ .receiver›, ‹_›, rfl⟩

end Netchan
