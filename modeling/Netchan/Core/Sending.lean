import Netchan.Core.Spec

/-!
# `netchan_send_next`, frame by frame

`Emit now c f c'`: sending the frame `f` takes the connection from `c` to `c'`; it is an
acknowledgement, a window update or the next fragment of a message. `netchanSendNext_cases`: the
packet `netchan_send_next` builds is a header, as much of the control queue as fits and then whole
frames, each of them an `Emit`.
-/

namespace Netchan

open Lib

/-- The DATA frame of the next fragment of a slot. -/
def nextData (p : Pool) (fp : Nat) (id : ChanId) (o : Outgoing) : Frame :=
  .data id o.seq o.fragSent o.fragTotal (p.read o.buf (o.fragSent * fp) (fragLen fp o))

theorem dataFrame_eq (p : Pool) (fp : Nat) (id : ChanId) (o : Outgoing) :
    dataFrame p fp id o = (nextData p fp id o).encode := by
  simp [dataFrame, nextData, Frame.encode, Pool.read]

inductive Emit (now : UInt32) (c : Conn) : Frame → Conn → Prop
  | ack {id : ChanId} {ch : Chan} (hc : c.channels id = some ch) (hn : ch.rcv.needAck = true) :
      Emit now c (.ack ch.id ch.rcv.ackSeq)
        (c.setChan id { ch with rcv := { ch.rcv with needAck := false } })
  | window {id : ChanId} {ch : Chan} (hc : c.channels id = some ch)
      (hn : ch.rcv.needWindowUpdate = true) :
      Emit now c (.windowUpdate ch.id (advertised ch.rcv))
        (c.setChan id { ch with rcv := { ch.rcv with needWindowUpdate := false } })
  | data {id : ChanId} {ch : Chan} {k : Fin ncOutgoingSlots} (hc : c.channels id = some ch)
      (hs : chanSendSlot ch = some k) :
      Emit now c (nextData c.pool (maxFragPayload c) ch.id (ch.snd.outgoing k))
        ({ c with pool := (chanSent now c.pool ch k).1 }.setChan id (chanSent now c.pool ch k).2)

/-- A sequence of frames sent. -/
inductive Emits (now : UInt32) : Conn → List Frame → Conn → Prop
  | nil (c : Conn) : Emits now c [] c
  | cons {c c' c'' : Conn} {f : Frame} {fs : List Frame} (h : Emit now c f c')
      (hs : Emits now c' fs c'') : Emits now c (f :: fs) c''

namespace Emits

variable {now : UInt32} {c c' c'' : Conn} {fs gs : List Frame}

theorem single {f : Frame} (h : Emit now c f c') : Emits now c [f] c' := .cons h (.nil c')

theorem append (h1 : Emits now c fs c') (h2 : Emits now c' gs c'') :
    Emits now c (fs ++ gs) c'' := by
  induction h1 with
  | nil => exact h2
  | cons h _ ih => exact .cons h (ih h2)

/-- **What every sent frame keeps, the whole packet keeps.** -/
theorem invariant {I : Conn → Prop} (hstep : ∀ c f c', I c → Emit now c f c' → I c')
    (h : Emits now c fs c') : I c → I c' := by
  induction h with
  | nil => exact id
  | cons h _ ih => exact fun hi => ih (hstep _ _ _ hi h)

end Emits

theorem flushAck_emits (now : UInt32) (mtu : Nat) {c : Conn} {id : ChanId} {ch : Chan}
    (hc : c.channels id = some ch) (out : List UInt8) :
    ∃ fs, (flushAck mtu ch out).2 = out ++ encodeAll fs ∧
      Emits now c fs (c.setChan id (flushAck mtu ch out).1) := by
  unfold flushAck
  split
  · exact ⟨[_], by simp [Frame.encode], .single (.ack hc (by simp_all))⟩
  · refine ⟨[], by simp, ?_⟩
    have : c.setChan id ch = c := by
      simp only [Conn.setChan, Table.set, ← hc, Function.update_eq_self]
    rw [this]
    exact .nil c

theorem flushWindow_emits (now : UInt32) (mtu : Nat) {c : Conn} {i : ChanId} {ch : Chan}
    (hc : c.channels i = some ch) (out : List UInt8) :
    ∃ fs, (flushWindow mtu ch out).2 = out ++ encodeAll fs ∧
      Emits now c fs (c.setChan i (flushWindow mtu ch out).1) := by
  unfold flushWindow
  split
  · exact ⟨[_], by simp [Frame.encode], .single (.window hc (by simp_all))⟩
  · refine ⟨[], by simp, ?_⟩
    have : c.setChan i ch = c := by
      simp only [Conn.setChan, Table.set, ← hc, Function.update_eq_self]
    rw [this]
    exact .nil c

theorem setChan_setChan (c : Conn) (id : ChanId) (ch ch' : Chan) :
    (c.setChan id ch).setChan id ch' = c.setChan id ch' := by
  simp [Conn.setChan, Table.set]

theorem flushAcks_emits (now : UInt32) (mtu : Nat) : ∀ (is : List ChanId) (c : Conn)
    (out : List UInt8), ∃ fs, (flushAcks mtu is c.channels out).2 = out ++ encodeAll fs ∧
      Emits now c fs { c with channels := (flushAcks mtu is c.channels out).1 }
  | [], c, out => ⟨[], by simp [flushAcks], .nil c⟩
  | i :: is, c, out => by
    unfold flushAcks
    split
    · split
      · exact flushAcks_emits now mtu is c out
      · rename_i ch hc
        obtain ⟨fs, ho, hf⟩ := flushAck_emits now mtu hc out
        generalize flushAck mtu ch out = r at ho hf
        obtain ⟨ch1, out1⟩ := r
        obtain ⟨gs, ho', hg⟩ := flushWindow_emits now mtu (c := c.setChan i ch1) (i := i)
          (Table.set_same ..) out1
        generalize hw : flushWindow mtu ch1 out1 = r at ho' hg
        obtain ⟨ch2, out2⟩ := r
        rw [setChan_setChan] at hg
        dsimp only at ho ho' hf hg
        obtain ⟨hs, ho'', hh⟩ := flushAcks_emits now mtu is (c.setChan i ch2) out2
        refine ⟨fs ++ (gs ++ hs), ?_, hf.append (hg.append ?_)⟩
        · simp only [hw]
          show (flushAcks mtu is (Table.set c.channels i ch2) out2).2 = _
          rw [encodeAll_append, encodeAll_append, ← List.append_assoc, ← ho, ← List.append_assoc,
            ← ho']
          exact ho''
        · simp only [hw]
          exact hh
    · exact ⟨[], by simp, .nil c⟩

theorem flushData_emits (now : UInt32) (mtu : Nat) : ∀ (is : List ChanId) (c : Conn)
    (out : List UInt8),
    ∃ fs, (flushData now (maxFragPayload c) mtu is (c.pool, c.channels) out).2 =
        out ++ encodeAll fs ∧
      Emits now c fs { c with
        pool := (flushData now (maxFragPayload c) mtu is (c.pool, c.channels) out).1.1
        channels := (flushData now (maxFragPayload c) mtu is (c.pool, c.channels) out).1.2 }
  | [], c, out => ⟨[], by simp [flushData], .nil c⟩
  | i :: is, c, out => by
    unfold flushData
    split
    · split
      · exact flushData_emits now mtu is c out
      · rename_i ch hc
        split
        · exact flushData_emits now mtu is c out
        · rename_i k hk
          dsimp only
          split
          · exact ⟨[], by simp, .nil c⟩
          split
          · exact ⟨[], by simp, .nil c⟩
          · have he : Emit now c _ _ := .data hc hk
            obtain ⟨fs, ho, hf⟩ := flushData_emits now mtu is
              ({ c with pool := (chanSent now c.pool ch k).1 }.setChan i
                (chanSent now c.pool ch k).2)
              (out ++ dataFrame c.pool (maxFragPayload c) ch.id (ch.snd.outgoing k))
            refine ⟨_ :: fs, ?_, .cons he hf⟩
            rw [encodeAll_cons, ← List.append_assoc, ← dataFrame_eq]
            exact ho
    · exact ⟨[], by simp, .nil c⟩

/-- The packet header. -/
def headerOf (c : Conn) : List UInt8 := (sendHeader c).2

theorem length_headerOf (c : Conn) : (headerOf c).length = sendHdrSize c := by
  unfold headerOf sendHeader sendHdrSize
  split <;> rfl

/-- The bytes of the control queue that go into a packet. -/
def ctrlSent (c : Conn) (buflen : Nat) : Nat :=
  min c.ctrlBuf.length (sizeSub (sendRoom c buflen) (sendHdrSize c))

/-- The connection once header and control frames are in the packet. -/
def ctrlFlushed (c : Conn) (buflen : Nat) : Conn :=
  { c with nextPktNum := if isInit c then c.nextPktNum else c.nextPktNum + 1
           ctrlBuf := c.ctrlBuf.drop (ctrlSent c buflen) }

/-- There is nothing to send, or no room for the header. -/
theorem netchanSendNext_idle (env : Env) {c : Conn} {buflen : Nat}
    (h : hasData c = true → buflen < sendHdrSize c) : netchanSendNext env c buflen = (c, none) := by
  unfold netchanSendNext
  split
  · rfl
  · rename_i hd
    exact if_pos (h (by simpa using hd))

/-- A packet is a header, control frames and then frame by frame. -/
theorem netchanSendNext_emits (env : Env) {c : Conn} {buflen : Nat} (hd : hasData c = true)
    (hb : ¬ buflen < sendHdrSize c) : ∃ fs c', Emits env.now (ctrlFlushed c buflen) fs c' ∧
      netchanSendNext env c buflen =
        ({ c' with lastSendMs := env.now, pktsSent := c.pktsSent + 1 },
          some (headerOf c ++ c.ctrlBuf.take (ctrlSent c buflen) ++ encodeAll fs, c.peerAddr)) := by
  have hh : (sendHeader c).1 =
      { c with nextPktNum := if isInit c then c.nextPktNum else c.nextPktNum + 1 } := by
    unfold sendHeader
    split <;> rfl
  have hf : flushCtrl (sendRoom c buflen) (sendHeader c).1 (sendHeader c).2 =
      (ctrlFlushed c buflen, headerOf c ++ c.ctrlBuf.take (ctrlSent c buflen)) := by
    have hl := length_headerOf c
    unfold headerOf at hl
    simp only [flushCtrl, ctrlFlushed, hh, hl, ctrlSent, headerOf]
  obtain ⟨fs, ho, h1⟩ := flushAcks_emits env.now (sendRoom c buflen) allIds (ctrlFlushed c buflen)
    (headerOf c ++ c.ctrlBuf.take (ctrlSent c buflen))
  generalize hr1 : flushAcks (sendRoom c buflen) allIds (ctrlFlushed c buflen).channels
    (headerOf c ++ c.ctrlBuf.take (ctrlSent c buflen)) = r1 at ho h1
  obtain ⟨t, out⟩ := r1
  obtain ⟨gs, ho', h2⟩ := flushData_emits env.now (sendRoom c buflen) allIds
    { ctrlFlushed c buflen with channels := t } out
  refine ⟨fs ++ gs, _, h1.append h2, ?_⟩
  dsimp only at ho
  rw [netchanSendNext, if_neg (by simp [hd]), if_neg hb]
  simp only [hf, hr1]
  rw [encodeAll_append, ← List.append_assoc, ← ho, ← ho']
  rfl

/-- **What `netchan_send_next` does**: nothing, or a header, control frames and then frame by
frame. -/
theorem netchanSendNext_cases (env : Env) (c : Conn) (buflen : Nat) :
    netchanSendNext env c buflen = (c, none) ∨
    (¬ buflen < sendHdrSize c ∧ ∃ fs c', Emits env.now (ctrlFlushed c buflen) fs c' ∧
      netchanSendNext env c buflen =
        ({ c' with lastSendMs := env.now, pktsSent := c.pktsSent + 1 },
          some (headerOf c ++ c.ctrlBuf.take (ctrlSent c buflen) ++ encodeAll fs, c.peerAddr))) := by
  by_cases h : hasData c = true ∧ ¬ buflen < sendHdrSize c
  · exact .inr ⟨h.2, netchanSendNext_emits env h.1 h.2⟩
  · exact .inl (netchanSendNext_idle env fun hd => by_contra fun hb => h ⟨hd, hb⟩)

end Netchan
