import Netchan.Core.World

/-!
# What a step can do to a channel

`step_chan` lists what one step of a connection can do to the channel with a given id: create it,
or keep its id, type, direction and role and change its receiver state as `RcvChange` says. The
invariants of the receiving side start from it.
-/

namespace Netchan

open Lib

/-- What never changes in a channel's life. -/
structure SameKind (ch ch' : Chan) : Prop where
  id : ch'.id = ch.id
  type : ch'.type = ch.type
  dir : ch'.dir = ch.dir
  role : ch'.role = ch.role

namespace SameKind

theorem refl (ch : Chan) : SameKind ch ch := ⟨rfl, rfl, rfl, rfl⟩

theorem trans {ch ch' ch'' : Chan} (h1 : SameKind ch ch') (h2 : SameKind ch' ch'') :
    SameKind ch ch'' :=
  ⟨h2.id.trans h1.id, h2.type.trans h1.type, h2.dir.trans h1.dir, h2.role.trans h1.role⟩

end SameKind

/-- The receiver state with other flags for what is to be sent: none is raised. -/
def Receiver.Flagged (r r' : Receiver) : Prop :=
  ∃ a w, r' = { r with needAck := a, needWindowUpdate := w } ∧ (a = true → r.needAck = true) ∧
    (w = true → r.needWindowUpdate = true)

namespace Receiver.Flagged

theorem refl (r : Receiver) : r.Flagged r := ⟨r.needAck, r.needWindowUpdate, rfl, id, id⟩

theorem trans {r r' r'' : Receiver} (h1 : r.Flagged r') (h2 : r'.Flagged r'') : r.Flagged r'' := by
  obtain ⟨a, w, rfl, ha, hw⟩ := h1
  obtain ⟨a', w', rfl, ha', hw'⟩ := h2
  exact ⟨a', w', rfl, fun h => ha (ha' h), fun h => hw (hw' h)⟩

end Receiver.Flagged

/-- The receiver state after a DATA frame. -/
def dataRcv (c : Conn) (id : ChanId) (ch : Chan) (seq : UInt16) (fragIdx fragTotal : Nat)
    (payload : List UInt8) : Receiver :=
  if ch.type = .unreliable then
    (dataUnreliable (maxFragPayload c) id (c.rx ch) seq fragIdx fragTotal payload).rcv
  else (dataReliable (maxFragPayload c) id (c.rx ch) seq fragIdx fragTotal payload).rcv.ack

/-- A DATA frame on a channel that receives and is not UNRELIABLE. -/
theorem stepFrame_data {c : Conn} {id : ChanId} {ch : Chan} (env : Env) (hc : c.channels id = some ch)
    (hr : ch.role = .receiver) (ht : ch.type ≠ .unreliable) (seq : UInt16) (idx total : Nat)
    (payload : List UInt8) :
    stepFrame env c (.data id seq idx total payload) = c.withRx id ch
      { dataReliable (maxFragPayload c) id (c.rx ch) seq idx total payload with
        rcv := (dataReliable (maxFragPayload c) id (c.rx ch) seq idx total payload).rcv.ack } := by
  simp only [stepFrame, applyFrame, Option.getD_some, dataReceived, hc]
  rw [if_neg (not_not.2 hr), if_neg ht]

/-- The receiver state after a read. -/
def readRcv (r : Receiver) (buflen : Nat) : Receiver :=
  { r with
    recvQueue := r.recvQueue.pop {}
    recvBuffered := r.recvBuffered - UInt32.ofNat (min r.recvQueue.front.len buflen)
    needWindowUpdate := true }

/-- The changes of a channel's receiver state. -/
inductive RcvChange (c : Conn) (id : ChanId) (ch : Chan) : Step → Receiver → Prop
  | flags {st : Step} {r' : Receiver} (h : ch.rcv.Flagged r') : RcvChange c id ch st r'
  | read (buflen : Nat) (hr : ch.role = .receiver) (hq : ¬ ch.rcv.recvQueue.Empty) :
      RcvChange c id ch (.call (.read id buflen)) (readRcv ch.rcv buflen)
  | data (env : Env) (seq : UInt16) (fragIdx fragTotal : Nat) (payload : List UInt8)
      (hr : ch.role = .receiver) :
      RcvChange c id ch (.frame env (.data id seq fragIdx fragTotal payload))
        (dataRcv c id ch seq fragIdx fragTotal payload)

theorem RcvChange.same {c : Conn} {id : ChanId} {ch : Chan} {st : Step} :
    RcvChange c id ch st ch.rcv :=
  .flags (.refl _)

/-- The changes of the table entry of a channel. -/
inductive ChanChange (c : Conn) (id : ChanId) (st : Step) : Option Chan → Option Chan → Prop
  | absent : ChanChange c id st none none
  | created {ch' : Chan} (hid : ch'.id = id) (hs : ch'.snd = {})
      (hr : ch'.rcv = { recvWindow := c.cfg.chanWindow }) : ChanChange c id st none (some ch')
  | kept {ch ch' : Chan} (hk : SameKind ch ch') (hr : RcvChange c id ch st ch'.rcv) :
      ChanChange c id st (some ch) (some ch')

section
variable {c : Conn} {id : ChanId} {st : Step}

theorem ChanChange.refl (o : Option Chan) : ChanChange c id st o o := by
  cases o with
  | none => exact .absent
  | some ch => exact .kept (.refl ch) .same

theorem ChanChange.setRcv {t : Table} {j : ChanId} {ch ch' : Chan} (hc : t j = some ch)
    (hk : SameKind ch ch') (hr : RcvChange c j ch st ch'.rcv) :
    ChanChange c id st (t id) (Table.set t j ch' id) := by
  by_cases h : id = j
  · subst h
    rw [hc, Table.set_same]
    exact .kept hk hr
  · rw [Table.set_of_ne _ h]
    exact .refl _

theorem ChanChange.set {t : Table} {j : ChanId} {ch ch' : Chan} (hc : t j = some ch)
    (hk : SameKind ch ch') (hr : ch'.rcv = ch.rcv) :
    ChanChange c id st (t id) (Table.set t j ch' id) :=
  .setRcv hc hk (hr ▸ .same)

/-- The creation of the channel at `j`. -/
theorem ChanChange.create {t : Table} {j : ChanId} {ch' : Chan} (hc : t j = none)
    (hid : ch'.id = j) (hs : ch'.snd = {}) (hr : ch'.rcv = { recvWindow := c.cfg.chanWindow }) :
    ChanChange c id st (t id) (Table.set t j ch' id) := by
  by_cases h : id = j
  · subst h
    rw [hc, Table.set_same]
    exact .created hid hs hr
  · rw [Table.set_of_ne _ h]
    exact .refl _

end

theorem chanSent_rcv (now : UInt32) (p : Pool) (ch : Chan) (k : Fin ncOutgoingSlots) :
    SameKind ch (chanSent now p ch k).2 ∧ (chanSent now p ch k).2.rcv = ch.rcv := by
  unfold chanSent
  dsimp only
  split <;> exact ⟨⟨rfl, rfl, rfl, rfl⟩, rfl⟩

theorem chanTimed_rcv (cfg : Cfg) (now : UInt32) (ch : Chan) :
    SameKind ch (chanTimed cfg now ch) ∧ (chanTimed cfg now ch).rcv = ch.rcv := by
  unfold chanTimed
  split
  · exact ⟨.refl _, rfl⟩
  · exact ⟨⟨rfl, rfl, rfl, rfl⟩, rfl⟩

/-- Sending keeps every channel and raises none of its flags. -/
def FlagsOnly (t t' : Table) : Prop :=
  ∀ id, (t id = none ∧ t' id = none) ∨
    ∃ ch ch', t id = some ch ∧ t' id = some ch' ∧ SameKind ch ch' ∧ ch.rcv.Flagged ch'.rcv

namespace FlagsOnly

theorem refl (t : Table) : FlagsOnly t t := fun id => by
  cases h : t id with
  | none => exact .inl ⟨rfl, rfl⟩
  | some ch => exact .inr ⟨ch, ch, rfl, rfl, .refl ch, .refl _⟩

theorem trans {t t' t'' : Table} (h1 : FlagsOnly t t') (h2 : FlagsOnly t' t'') :
    FlagsOnly t t'' := fun id => by
  rcases h1 id with ⟨a, b⟩ | ⟨ch, ch', a, b, k, f⟩
  · rcases h2 id with ⟨-, d⟩ | ⟨_, _, d, -⟩
    · exact .inl ⟨a, d⟩
    · rw [b] at d; cases d
  · rcases h2 id with ⟨d, -⟩ | ⟨ch1, ch'', d, e, k', f'⟩
    · rw [b] at d; cases d
    · rw [b] at d
      cases d
      exact .inr ⟨ch, ch'', a, e, k.trans k', f.trans f'⟩

theorem set {t : Table} {j : ChanId} {ch ch' : Chan} (hc : t j = some ch) (hk : SameKind ch ch')
    (hf : ch.rcv.Flagged ch'.rcv) : FlagsOnly t (Table.set t j ch') := fun id => by
  by_cases h : id = j
  · subst h
    exact .inr ⟨ch, ch', hc, Table.set_same .., hk, hf⟩
  · rw [Table.set_of_ne _ h]
    exact refl t id

end FlagsOnly

theorem emit_flags {now : UInt32} {c c' : Conn} {f : Frame} (h : Emit now c f c') :
    FlagsOnly c.channels c'.channels := by
  cases h with
  | ack hc hn => exact .set hc ⟨rfl, rfl, rfl, rfl⟩ ⟨false, _, rfl, by simp, id⟩
  | window hc hn => exact .set hc ⟨rfl, rfl, rfl, rfl⟩ ⟨_, false, rfl, id, by simp⟩
  | data hc hs =>
    obtain ⟨hk, hr⟩ := chanSent_rcv now c.pool _ _
    exact .set hc hk (by rw [hr]; exact .refl _)

theorem sendNext_flags (env : Env) (c : Conn) (buflen : Nat) :
    FlagsOnly c.channels (netchanSendNext env c buflen).1.channels := by
  rcases netchanSendNext_cases env c buflen with h | ⟨-, fs, c', he, h⟩
  · rw [h]
    exact .refl _
  · rw [h]
    have := he.invariant (I := fun d => FlagsOnly c.channels d.channels)
      (fun _ _ _ hi h => hi.trans (emit_flags h)) (.refl _)
    exact this

/-- **What a frame can do to a channel.** -/
theorem frame_chan (env : Env) (c : Conn) (f : Frame) (id : ChanId) :
    ChanChange c id (.frame env f) (c.channels id) ((stepFrame env c f).channels id) := by
  cases f with
  | connectInit i =>
    simp only [stepFrame, applyFrame, initReceived]
    by_cases h1 : c.server <;> by_cases h2 : c.state = .new <;> simp only [h1, h2, ↓reduceIte] <;>
      exact .refl _
  | connectAccept i v idle =>
    simp only [stepFrame, applyFrame]
    split <;> exact .refl _
  | connectRedirect i addr => exact .refl _
  | disconnect reason =>
    simp only [stepFrame, applyFrame, disconnectReceived, Option.getD_some]
    split <;> exact .refl _
  | ping opaq => exact .refl _
  | pong opaq =>
    simp only [stepFrame, applyFrame, pongReceived, Option.getD_some]
    split <;> exact .refl _
  | channelOpen j type dir ct =>
    simp only [stepFrame, applyFrame, channelOpened_eq, Option.getD_some]
    split
    · exact .refl _
    · rename_i h
      exact .create (by simpa using (not_or.1 h).1) rfl rfl rfl
  | channelClose j error =>
    simp only [stepFrame, applyFrame, channelClosed, Option.getD_some]
    split
    · exact .refl _
    · rename_i ch hc
      exact .set hc ⟨rfl, rfl, rfl, rfl⟩ rfl
  | data j seq fragIdx fragTotal payload =>
    simp only [stepFrame, applyFrame, dataReceived, Option.getD_some]
    split
    · exact .refl _
    · rename_i ch hc
      split
      · exact .refl _
      · rename_i hr
        have hr : ch.role = .receiver := by simpa using hr
        have : RcvChange c j ch _ _ := .data env seq fragIdx fragTotal payload hr
        split
        · rename_i ht
          rw [dataRcv, if_pos ht] at this
          exact .setRcv hc ⟨rfl, rfl, rfl, rfl⟩ this
        · rename_i ht
          rw [dataRcv, if_neg ht] at this
          exact .setRcv hc ⟨rfl, rfl, rfl, rfl⟩ this
  | ack j seq =>
    simp only [stepFrame, applyFrame, ackReceived, Option.getD_some]
    split
    · exact .refl _
    · rename_i ch hc
      split
      · exact .refl _
      · exact .set hc ⟨rfl, rfl, rfl, rfl⟩ rfl
  | windowUpdate j w =>
    simp only [stepFrame, applyFrame, windowUpdated, Option.getD_some]
    split
    · exact .refl _
    · rename_i ch hc
      split
      · exact .set hc ⟨rfl, rfl, rfl, rfl⟩ rfl
      · exact .refl _

theorem call_chan (c : Conn) (k : Call) (id : ChanId) :
    ChanChange c id (.call k) (c.channels id) ((k.apply c).channels id) := by
  cases k with
  | connect env addr =>
    simp only [Call.apply, netchanConnect]
    repeat' split
    all_goals exact .refl _
  | accept =>
    simp only [Call.apply, netchanAccept]
    repeat' split
    all_goals exact .refl _
  | disconnect =>
    simp only [Call.apply, netchanDisconnect]
    split <;> exact .refl _
  | service env now =>
    simp only [Call.apply]
    rcases netchanService_cases env c now with ⟨-, he⟩ | ⟨-, n, he⟩
    · rw [he]
      exact .refl _
    · rw [he]
      simp only [serviceChans_allIds]
      cases hc : c.channels id with
      | none => exact .absent
      | some ch =>
        obtain ⟨hk, hr⟩ := chanTimed_rcv c.cfg now ch
        exact .kept hk (hr ▸ .same)
  | chanOpen type dir ct =>
    simp only [Call.apply, netchanChanOpen_eq]
    split
    · exact .refl _
    · rename_i h
      split
      · exact .refl _
      · exact .create (by simpa using (not_or.1 h).2) rfl rfl rfl
  | chanClose j =>
    simp only [Call.apply, netchanChanClose]
    split
    · exact .refl _
    · rename_i ch hc
      split
      · exact .refl _
      · exact .set hc ⟨rfl, rfl, rfl, rfl⟩ rfl
  | write j data =>
    simp only [Call.apply]
    rcases netchanChanWrite_cases c j data with ⟨h, -⟩ | ⟨ch, b, p, hw, ⟨-, -, h⟩ | ⟨-, -, h⟩⟩
    · rw [h]
      exact .refl _
    · rw [h]
      exact .set hw.chan ⟨rfl, rfl, rfl, rfl⟩ rfl
    · rw [h]
      exact .set hw.chan ⟨rfl, rfl, rfl, rfl⟩ rfl
  | read j buflen =>
    simp only [Call.apply]
    rcases netchanChanRead_cases c j buflen with ⟨h, -⟩ | ⟨ch, hc, hr, hq, h⟩
    · rw [h]
      exact .refl _
    · rw [h]
      exact .setRcv hc ⟨rfl, rfl, rfl, rfl⟩ (.read buflen hr hq)
  | poll =>
    simp only [Call.apply, netchanPoll]
    split <;> exact .refl _

theorem updatePeer_channels (c : Conn) (frames : List UInt8) (source : Option Addr) :
    (updatePeer c frames source).channels = c.channels := by
  obtain ⟨a, h⟩ := updatePeer_eq c frames source
  rw [h]

/-- **What a step can do to a channel.** -/
theorem step_chan (c : Conn) (st : Step) (id : ChanId) :
    ChanChange c id st (c.channels id) ((st.apply c).channels id) := by
  cases st with
  | config cfg => exact .refl _
  | call k => exact call_chan c k id
  | sendNext env buflen =>
    rcases sendNext_flags env c buflen id with ⟨h1, h2⟩ | ⟨ch, ch', h1, h2, hk, hf⟩
    · rw [h1]
      exact h2.symm ▸ .absent
    · rw [h1]
      exact h2.symm ▸ .kept hk (.flags hf)
  | header env pkt source =>
    have h := updatePeer_channels c (pkt.drop (hdrSize (byte pkt 0))) source
    show ChanChange c id _ _ ((updatePeer c _ source).channels id)
    rw [h]
    exact .refl _
  | frame env f => exact frame_chan env c f id

/-! ## The configuration -/

theorem emit_cfg {now : UInt32} {c c' : Conn} {f : Frame} (h : Emit now c f c') :
    c'.cfg = c.cfg ∧ c'.server = c.server ∧ c'.nextChanId = c.nextChanId := by
  cases h <;> exact ⟨rfl, rfl, rfl⟩

theorem sendNext_cfg (env : Env) (c : Conn) (buflen : Nat) :
    (netchanSendNext env c buflen).1.cfg = c.cfg ∧
      (netchanSendNext env c buflen).1.server = c.server ∧
      (netchanSendNext env c buflen).1.nextChanId = c.nextChanId := by
  rcases netchanSendNext_cases env c buflen with h | ⟨-, fs, c', he, h⟩
  · rw [h]
    exact ⟨rfl, rfl, rfl⟩
  · rw [h]
    have hinv := he.invariant (I := fun d => d.cfg = c.cfg ∧ d.server = c.server ∧
      d.nextChanId = c.nextChanId) (fun d f d' hi h => by
        obtain ⟨h1, h2, h3⟩ := emit_cfg h
        exact ⟨h1.trans hi.1, h2.trans hi.2.1, h3.trans hi.2.2⟩) ⟨rfl, rfl, rfl⟩
    exact hinv

theorem serviced_cfg (env : Env) (c : Conn) (now : UInt32) :
    (serviced env c now).cfg = c.cfg ∧ (serviced env c now).server = c.server := by
  unfold serviced
  repeat' split
  all_goals exact ⟨rfl, rfl⟩

theorem call_cfg (c : Conn) (k : Call) : (k.apply c).cfg = c.cfg ∧ (k.apply c).server = c.server := by
  cases k with
  | connect env addr =>
    simp only [Call.apply, netchanConnect]
    repeat' split
    all_goals exact ⟨rfl, rfl⟩
  | accept =>
    simp only [Call.apply, netchanAccept]
    repeat' split
    all_goals exact ⟨rfl, rfl⟩
  | disconnect =>
    simp only [Call.apply, netchanDisconnect]
    split <;> exact ⟨rfl, rfl⟩
  | service env now =>
    simp only [Call.apply]
    rcases netchanService_cases env c now with ⟨-, he⟩ | ⟨-, n, he⟩
    · rw [he]
      exact ⟨rfl, rfl⟩
    · rw [he]
      exact serviced_cfg env c now
  | chanOpen type dir ct =>
    simp only [Call.apply, netchanChanOpen_eq]
    repeat' split
    all_goals exact ⟨rfl, rfl⟩
  | chanClose j =>
    simp only [Call.apply, netchanChanClose]
    repeat' split
    all_goals exact ⟨rfl, rfl⟩
  | write j data =>
    simp only [Call.apply]
    rcases netchanChanWrite_cases c j data with ⟨h, -⟩ | ⟨ch, b, p, -, ⟨-, -, h⟩ | ⟨-, -, h⟩⟩ <;>
      rw [h] <;> exact ⟨rfl, rfl⟩
  | read j buflen =>
    simp only [Call.apply]
    rcases netchanChanRead_cases c j buflen with ⟨h, -⟩ | ⟨ch, -, -, -, h⟩ <;>
      rw [h] <;> exact ⟨rfl, rfl⟩
  | poll =>
    simp only [Call.apply, netchanPoll]
    split <;> exact ⟨rfl, rfl⟩

theorem updatePeer_cfg (c : Conn) (frames : List UInt8) (source : Option Addr) :
    (updatePeer c frames source).cfg = c.cfg ∧
      (updatePeer c frames source).server = c.server := by
  obtain ⟨a, h⟩ := updatePeer_eq c frames source
  rw [h]
  exact ⟨rfl, rfl⟩

theorem step_cfg (c : Conn) (st : Step) (h : ∀ cfg, st ≠ .config cfg) :
    (st.apply c).cfg = c.cfg := by
  cases st with
  | config cfg => exact absurd rfl (h cfg)
  | call k => exact (call_cfg c k).1
  | sendNext env buflen => exact (sendNext_cfg env c buflen).1
  | header env pkt source => exact (updatePeer_cfg c _ source).1
  | frame env f => exact (stepFrame_fixed env c f).2.1

end Netchan
