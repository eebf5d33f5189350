import Netchan.Object.Held
import Netchan.Pair.Traffic
import Netchan.Proof.Pool
import Mathlib.Algebra.Order.BigOperators.Group.Finset

/-!
# Draining a connection

`pendingWork` counts what is left to send: the bytes of the control queue, the acknowledgements and
window updates that are due and the fragments that were not sent. Every frame that is sent takes
something away from it (`emit_work`), and `netchan_send_next` finds nothing to send exactly when
there is none (`hasData_work`). `drain_complete`: calling it on an object until it returns 0 takes at
most `pendingWork` calls and leaves nothing behind, as long as no message that reassembly completed
was longer than its buffer. One that was can overwrite `ctrl_len` (`overrun_not_drained`).
-/

namespace Netchan

open Lib

/-! ## The work that is pending -/

/-- The fragments of a message that were not sent. -/
def Outgoing.unsent (o : Outgoing) : Nat := if o.active then o.fragTotal - o.fragSent else 0

/-- The fragments an open sender channel has to send. -/
def Chan.unsent (ch : Chan) : Nat :=
  if ch.role = .sender ∧ ch.state = .opened then ∑ k, (ch.snd.outgoing k).unsent else 0

/-- What a channel has to send. -/
def Chan.pending (ch : Chan) : Nat :=
  ch.rcv.needAck.toNat + ch.rcv.needWindowUpdate.toNat + ch.unsent

def pendingWork (c : Conn) : Nat :=
  c.ctrlBuf.length + ∑ id, (c.channels id).elim 0 Chan.pending

section
variable {c c' : Conn} {id : ChanId} {ch ch' : Chan}

theorem work_set (hc : c.channels id = some ch) (h : ch'.pending < ch.pending) :
    pendingWork (c.setChan id ch') < pendingWork c := by
  refine Nat.add_lt_add_left (Finset.sum_lt_sum (fun j _ => ?_) ⟨id, Finset.mem_univ _, ?_⟩) _
  · by_cases hj : j = id
    · subst hj
      simp only [Conn.setChan, Table.set_same, hc, Option.elim_some]
      exact Nat.le_of_lt h
    · simp only [Conn.setChan, Table.set_of_ne _ hj]
      exact Nat.le_refl _
  · simp only [Conn.setChan, Table.set_same, hc, Option.elim_some]
    exact h

theorem chanSent_pending {t : UInt32} {p : Pool} {k : Fin ncOutgoingSlots}
    (h : chanSendSlot ch = some k) : (chanSent t p ch k).2.pending < ch.pending := by
  obtain ⟨hrole, hstate, hnext⟩ := chanSendSlot_spec h
  obtain ⟨-, hact, hlt⟩ := chanNextSendable_spec hnext
  have hk : (chanSent t p ch k).2.unsent < ch.unsent := by
    have hsame : (chanSent t p ch k).2.role = ch.role ∧
        (chanSent t p ch k).2.state = ch.state := by
      unfold chanSent
      dsimp only
      split <;> exact ⟨rfl, rfl⟩
    rw [Chan.unsent, Chan.unsent, hsame.1, hsame.2, if_pos ⟨hrole, hstate⟩, if_pos ⟨hrole, hstate⟩]
    have hone : (((chanSent t p ch k).2.snd.outgoing k).unsent) < (ch.snd.outgoing k).unsent := by
      unfold Outgoing.unsent
      rw [if_pos hact]
      split
      · rename_i ha
        rw [chanSent_slots ha, if_pos rfl]
        show _ - ((ch.snd.outgoing k).fragSent + 1) < _
        simp only [Outgoing.sent]
        omega
      · omega
    refine Finset.sum_lt_sum (fun i _ => ?_) ⟨k, Finset.mem_univ _, hone⟩
    by_cases hi : i = k
    · subst hi
      exact Nat.le_of_lt hone
    · unfold Outgoing.unsent
      split
      · rename_i ha
        have hsame := chanSent_slots ha
        rw [if_neg hi] at hsame
        rw [hsame] at ha ⊢
        rw [if_pos ha]
      · exact Nat.zero_le _
  have hrcv := (chanSent_rcv t p ch k).2
  unfold Chan.pending
  rw [hrcv]
  omega

theorem work_pool (c : Conn) (p : Pool) : pendingWork { c with pool := p } = pendingWork c := rfl

/-- **Every frame that is sent takes something away.** -/
theorem emit_work {now : UInt32} {f : Frame} (he : Emit now c f c') :
    pendingWork c' < pendingWork c := by
  cases he with
  | @ack id ch hc hn =>
    refine work_set hc ?_
    show 0 + ch.rcv.needWindowUpdate.toNat + ch.unsent < _
    rw [Chan.pending, hn, Bool.toNat_true]
    omega
  | @window id ch hc hn =>
    refine work_set hc ?_
    show ch.rcv.needAck.toNat + 0 + ch.unsent < _
    rw [Chan.pending, hn, Bool.toNat_true]
    omega
  | @data id ch k hc hs =>
    have hlt := chanSent_pending (t := now) (p := c.pool) hs
    generalize chanSent now c.pool ch k = r at hlt
    have h := work_set (c := { c with pool := r.1 }) hc hlt
    rwa [work_pool] at h

theorem emits_work {now : UInt32} {fs : List Frame} (he : Emits now c fs c') :
    pendingWork c' + fs.length ≤ pendingWork c := by
  induction he with
  | nil => simp
  | cons h _ ih =>
    have := emit_work h
    rw [List.length_cons]
    omega

end

/-! ## Nothing left to send -/

theorem mem_outWindow {s : Sender} {k : Fin ncOutgoingSlots} (h : Between s.outHead s.outTail k) :
    k ∈ outWindow s := by
  refine List.mem_map.2 ⟨(k - s.outHead).val, List.mem_range.2 h, ?_⟩
  apply Fin.ext
  have h1 := k.isLt
  have h2 := s.outHead.isLt
  simp only [ncOutgoingSlots] at h1 h2
  simp only [fin_add_val, fin_sub_val, Fin.ofNat, ncOutgoingSlots]
  split <;> split <;> omega

/-- The scan finds a message with a fragment to send if there is one. -/
theorem unsent_of_next {s : Sender} (hs : SndSlots s) (h : chanNextSendable s = none)
    (k : Fin ncOutgoingSlots) : (s.outgoing k).unsent = 0 := by
  unfold Outgoing.unsent
  split
  · rename_i ha
    have hk := List.find?_eq_none.1 h k (mem_outWindow (hs.window k ha))
    simp only [ha, Bool.true_and, decide_eq_true_eq] at hk
    omega
  · rfl

theorem chanPending_work {ch : Chan} (hs : SndSlots ch.snd) (h : chanPending ch = false) :
    ch.pending = 0 := by
  simp only [chanPending, Bool.or_eq_false_iff] at h
  obtain ⟨⟨h1, h2⟩, h3⟩ := h
  have hu : ch.unsent = 0 := by
    unfold Chan.unsent
    split
    · rename_i hg
      simp only [hg.1, hg.2, decide_true, Bool.true_and, Option.isSome_eq_false_iff,
        Option.isNone_iff_eq_none] at h1
      exact Finset.sum_eq_zero fun k _ => unsent_of_next hs h1 k
    · rfl
  simp [Chan.pending, h2, h3, hu]

/-- **Nothing is pending when there is nothing to send.** -/
theorem hasData_work {c : Conn} (hp : PoolOk c) (h : hasData c = false) : pendingWork c = 0 := by
  simp only [hasData, Bool.or_eq_false_iff, Bool.not_eq_false', List.isEmpty_iff] at h
  obtain ⟨h1, h2⟩ := h
  have hsum : ∑ id, (c.channels id).elim 0 Chan.pending = 0 := by
    refine Finset.sum_eq_zero fun id _ => ?_
    cases hc : c.channels id with
    | none => rfl
    | some ch =>
      have h3 := List.any_eq_false.1 h2 id (List.mem_finRange id)
      rw [hc, Option.any_some, Bool.not_eq_true] at h3
      exact chanPending_work (hp.snd id ch hc) h3
  rw [pendingWork, h1, hsum]
  rfl

/-- The control queue is empty, no acknowledgement and no window update is due, and no open sender
channel has a fragment to send. -/
structure Drained (c : Conn) : Prop where
  ctrl : c.ctrlBuf = []
  flags : ∀ id, ∀ ch ∈ c.channels id, ch.rcv.needAck = false ∧ ch.rcv.needWindowUpdate = false
  sent : ∀ id, ∀ ch ∈ c.channels id, ch.role = .sender → ch.state = .opened →
    ∀ k, (ch.snd.outgoing k).active = true →
      (ch.snd.outgoing k).fragTotal ≤ (ch.snd.outgoing k).fragSent

theorem drained_of_work {c : Conn} (h : pendingWork c = 0) : Drained c := by
  obtain ⟨h1, h2⟩ := Nat.add_eq_zero_iff.1 h
  have hch : ∀ id, ∀ ch ∈ c.channels id, ch.pending = 0 := by
    intro id ch hc
    have := Finset.sum_eq_zero_iff.1 h2 id (Finset.mem_univ _)
    rwa [hc, Option.elim_some] at this
  refine ⟨List.length_eq_zero_iff.1 h1, fun id ch hc => ?_, fun id ch hc hr hs k ha => ?_⟩
  · have := hch id ch hc
    simp only [Chan.pending, Nat.add_eq_zero_iff, Bool.toNat_eq_zero] at this
    exact this.1
  · have := hch id ch hc
    simp only [Chan.pending, Nat.add_eq_zero_iff, Chan.unsent, if_pos (And.intro hr hs)] at this
    have hk := Finset.sum_eq_zero_iff.1 this.2 k (Finset.mem_univ _)
    rw [Outgoing.unsent, if_pos ha] at hk
    omega

/-! ## One call -/

section
variable {mtu : Nat} {ch : Chan} {out : List UInt8}

theorem flushAck_length (h : out.length ≤ mtu) : (flushAck mtu ch out).2.length ≤ mtu := by
  unfold flushAck
  split
  · simp
    omega
  · exact h

theorem flushWindow_length (h : out.length ≤ mtu) : (flushWindow mtu ch out).2.length ≤ mtu := by
  unfold flushWindow
  split
  · simp
    omega
  · exact h

/-- The channel and the packet after a round of the loop over what is due. -/
def flushFlags (mtu : Nat) (ch : Chan) (out : List UInt8) : Chan × List UInt8 :=
  flushWindow mtu (flushAck mtu ch out).1 (flushAck mtu ch out).2

theorem flushFlags_length (h : out.length ≤ mtu) : (flushFlags mtu ch out).2.length ≤ mtu :=
  flushWindow_length (flushAck_length h)

theorem flushFlags_mono : out.length ≤ (flushFlags mtu ch out).2.length := by
  unfold flushFlags flushWindow flushAck
  split <;> split <;> simp

/-- A channel owes an acknowledgement or a window update. -/
def Chan.Flagged (ch : Chan) : Prop := ch.rcv.needAck = true ∨ ch.rcv.needWindowUpdate = true

theorem flushFlags_grows (hf : ch.Flagged) (hroom : out.length + 6 ≤ mtu) :
    out.length < (flushFlags mtu ch out).2.length := by
  unfold flushFlags
  by_cases ha : ch.rcv.needAck = true
  · have h1 : (flushAck mtu ch out).2.length = out.length + 4 := by
      rw [flushAck, if_pos ⟨ha, by omega⟩]
      simp
    refine Nat.lt_of_lt_of_le (by omega) (show (flushAck mtu ch out).2.length ≤ _ from ?_)
    unfold flushWindow
    split <;> simp
  · have h1 : flushAck mtu ch out = (ch, out) := if_neg fun h => ha h.1
    rw [h1, flushWindow, if_pos ⟨hf.resolve_left ha, hroom⟩]
    simp

theorem flushFlags_idle (hf : ¬ ch.Flagged) : flushFlags mtu ch out = (ch, out) := by
  obtain ⟨h1, h2⟩ := not_or.1 hf
  have ha : flushAck mtu ch out = (ch, out) := if_neg fun h => h1 h.1
  rw [flushFlags, ha]
  exact if_neg fun h => h2 h.1

theorem flushAcks_none {i : ChanId} {is : List ChanId} {t : Table} (hc : t i = none)
    (hroom : out.length + 6 ≤ mtu) : flushAcks mtu (i :: is) t out = flushAcks mtu is t out := by
  rw [flushAcks, if_pos hroom, hc]

theorem flushAcks_some {i : ChanId} {is : List ChanId} {t : Table} (hc : t i = some ch)
    (hroom : out.length + 6 ≤ mtu) : flushAcks mtu (i :: is) t out =
      flushAcks mtu is (Table.set t i (flushFlags mtu ch out).1) (flushFlags mtu ch out).2 := by
  rw [flushAcks, if_pos hroom, hc]
  rfl

theorem flushAcks_full {is : List ChanId} {t : Table} (h : ¬ out.length + 6 ≤ mtu) :
    flushAcks mtu is t out = (t, out) := by
  cases is with
  | nil => rfl
  | cons i is => rw [flushAcks, if_neg h]

theorem flushAcks_length (mtu : Nat) : ∀ (is : List ChanId) (t : Table) (out : List UInt8),
    out.length ≤ mtu → (flushAcks mtu is t out).2.length ≤ mtu
  | [], _, _, h => h
  | i :: is, t, out, h => by
    by_cases hroom : out.length + 6 ≤ mtu
    · cases hc : t i with
      | none =>
        rw [flushAcks_none hc hroom]
        exact flushAcks_length mtu is t out h
      | some ch =>
        rw [flushAcks_some hc hroom]
        exact flushAcks_length mtu is _ _ (flushFlags_length h)
    · rw [flushAcks_full hroom]
      exact h

theorem length_dataFrame (p : Pool) (fp : Nat) (id : ChanId) (o : Outgoing) :
    (dataFrame p fp id o).length = 8 + fragLen fp o := by
  unfold dataFrame
  generalize fragLen fp o = n
  simp only [List.length_append, List.length_cons, List.length_nil, length_wr16, Pool.read,
    Mem.length_read]

/-- No packet is longer than the room there is for it. -/
theorem flushData_length (now : UInt32) (fp mtu : Nat) : ∀ (is : List ChanId) (st : Pool × Table)
    (out : List UInt8), out.length ≤ mtu → (flushData now fp mtu is st out).2.length ≤ mtu
  | [], _, _, h => h
  | i :: is, (p, t), out, h => by
    unfold flushData
    split
    · split
      · exact flushData_length now fp mtu is (p, t) out h
      · split
        · exact flushData_length now fp mtu is (p, t) out h
        · dsimp only
          split
          · exact h
          split
          · exact h
          · rename_i ci hci _ k hk _ hle
            have hlen := length_dataFrame p fp ci.id (ci.snd.outgoing k)
            generalize dataFrame p fp ci.id (ci.snd.outgoing k) = d at hlen ⊢
            generalize fragLen fp (ci.snd.outgoing k) = n at hle hlen
            refine flushData_length now fp mtu is _ _ ?_
            rw [List.length_append, hlen]
            omega
    · exact h

theorem flushAcks_mono (mtu : Nat) : ∀ (is : List ChanId) (t : Table) (out : List UInt8),
    out.length ≤ (flushAcks mtu is t out).2.length
  | [], _, _ => Nat.le_refl _
  | i :: is, t, out => by
    by_cases hroom : out.length + 6 ≤ mtu
    · cases hc : t i with
      | none =>
        rw [flushAcks_none hc hroom]
        exact flushAcks_mono mtu is t out
      | some ch =>
        rw [flushAcks_some hc hroom]
        exact Nat.le_trans flushFlags_mono (flushAcks_mono mtu is _ _)
    · rw [flushAcks_full hroom]

theorem flushAcks_grows (mtu : Nat) : ∀ (is : List ChanId) (t : Table) (out : List UInt8),
    out.length + 6 ≤ mtu → (∃ id ∈ is, ∃ ch, t id = some ch ∧ ch.Flagged) →
    out.length < (flushAcks mtu is t out).2.length
  | [], _, _, _, h => by simp at h
  | i :: is, t, out, hroom, ⟨id, hid, ch, hc, hf⟩ => by
    have hrest : t i = none ∨ (∃ ci, t i = some ci ∧ ¬ ci.Flagged) → id ∈ is := by
      intro h
      rcases List.mem_cons.1 hid with rfl | hid
      · rcases h with h | ⟨ci, hci, hfi⟩
        · rw [hc] at h
          cases h
        · rw [hc] at hci
          cases hci
          exact absurd hf hfi
      · exact hid
    cases hci : t i with
    | none =>
      rw [flushAcks_none hci hroom]
      exact flushAcks_grows mtu is t out hroom ⟨id, hrest (.inl hci), ch, hc, hf⟩
    | some ci =>
      rw [flushAcks_some hci hroom]
      by_cases hfi : ci.Flagged
      · refine Nat.lt_of_lt_of_le ?_ (flushAcks_mono mtu is _ _)
        exact flushFlags_grows hfi hroom
      · rw [flushFlags_idle hfi, Table.set, ← hci, Function.update_eq_self]
        exact flushAcks_grows mtu is t out hroom ⟨id, hrest (.inr ⟨ci, hci, hfi⟩), ch, hc, hf⟩

theorem flushAcks_idle (mtu : Nat) : ∀ (is : List ChanId) (t : Table) (out : List UInt8),
    (∀ id ch, t id = some ch → ¬ ch.Flagged) → flushAcks mtu is t out = (t, out)
  | [], _, _, _ => rfl
  | i :: is, t, out, h => by
    by_cases hroom : out.length + 6 ≤ mtu
    · cases hc : t i with
      | none =>
        rw [flushAcks_none hc hroom]
        exact flushAcks_idle mtu is t out h
      | some ch =>
        rw [flushAcks_some hc hroom, flushFlags_idle (h i ch hc), Table.set, ← hc,
          Function.update_eq_self]
        exact flushAcks_idle mtu is t out h
    · exact flushAcks_full hroom

theorem flushData_mono (now : UInt32) (fp mtu : Nat) : ∀ (is : List ChanId) (st : Pool × Table)
    (out : List UInt8), out.length ≤ (flushData now fp mtu is st out).2.length
  | [], _, _ => Nat.le_refl _
  | i :: is, (p, t), out => by
    unfold flushData
    split
    · split
      · exact flushData_mono now fp mtu is (p, t) out
      · split
        · exact flushData_mono now fp mtu is (p, t) out
        · dsimp only
          split
          · exact Nat.le_refl _
          split
          · exact Nat.le_refl _
          · refine Nat.le_trans ?_ (flushData_mono now fp mtu is _ _)
            simp
    · exact Nat.le_refl _

theorem flushData_grows (now : UInt32) (fp mtu : Nat) : ∀ (is : List ChanId) (p : Pool) (t : Table)
    (out : List UInt8), out.length + 9 ≤ mtu →
    (∀ id ch k, t id = some ch → chanSendSlot ch = some k →
      out.length + 8 + fragLen fp (ch.snd.outgoing k) ≤ mtu) →
    (∃ id ∈ is, ∃ ch, t id = some ch ∧ (chanSendSlot ch).isSome) →
    out.length < (flushData now fp mtu is (p, t) out).2.length
  | [], _, _, _, _, _, h => by simp at h
  | i :: is, p, t, out, hroom, hfit, ⟨id, hid, ch, hc, hs⟩ => by
    unfold flushData
    rw [if_pos hroom]
    split
    · rename_i hn
      refine flushData_grows now fp mtu is p t out hroom hfit ⟨id, ?_, ch, hc, hs⟩
      rcases List.mem_cons.1 hid with rfl | hid
      · rw [hc] at hn
        cases hn
      · exact hid
    · rename_i ci hci
      split
      · rename_i hn
        refine flushData_grows now fp mtu is p t out hroom hfit ⟨id, ?_, ch, hc, hs⟩
        rcases List.mem_cons.1 hid with rfl | hid
        · rw [hc] at hci
          cases hci
          rw [hn] at hs
          cases hs
        · exact hid
      · rename_i k hk
        have hle := hfit i ci k hci hk
        have hlen := length_dataFrame p fp ci.id (ci.snd.outgoing k)
        dsimp only
        generalize dataFrame p fp ci.id (ci.snd.outgoing k) = d at hlen ⊢
        generalize fragLen fp (ci.snd.outgoing k) = n at hle hlen ⊢
        rw [if_neg (by omega), if_neg (by omega)]
        refine Nat.lt_of_lt_of_le ?_ (flushData_mono now fp mtu is _ _)
        rw [List.length_append, hlen]
        omega

end

/-- What the loop over `netchan_send_next` rests on. -/
structure Sending (mtu : UInt32) (c : Conn) : Prop where
  mtu : c.cfg.mtu = mtu
  pool : PoolOk c

/-- The packet with header and control frames. -/
def packetStart (c : Conn) (buflen : Nat) : List UInt8 :=
  headerOf c ++ c.ctrlBuf.take (ctrlSent c buflen)

/-- The packet that is sent when there is something to send. -/
theorem sendNext_bytes {e : Env} {c : Conn} {buflen : Nat} (hd : hasData c = true)
    (hb : ¬ buflen < sendHdrSize c) :
    let r := flushAcks (sendRoom c buflen) allIds c.channels (packetStart c buflen)
    (netchanSendNext e c buflen).2 = some ((flushData e.now (maxFragPayload c)
      (sendRoom c buflen) allIds (c.pool, r.1) r.2).2, c.peerAddr) := by
  have hf : flushCtrl (sendRoom c buflen) (sendHeader c).1 (sendHeader c).2 =
      (ctrlFlushed c buflen, packetStart c buflen) := by
    have hl := length_headerOf c
    have hh : (sendHeader c).1 =
        { c with nextPktNum := if isInit c then c.nextPktNum else c.nextPktNum + 1 } := by
      unfold sendHeader
      split <;> rfl
    unfold headerOf at hl
    simp only [flushCtrl, ctrlFlushed, hh, hl, ctrlSent, headerOf, packetStart]
  intro r
  rw [netchanSendNext, if_neg (by simp [hd]), if_neg hb]
  simp only [hf]
  rfl

section
variable {mtu : UInt32} {c : Conn} {buflen : Nat}

theorem sendRoom_eq (h : Sending mtu c) (hb : mtu.toNat ≤ buflen) : sendRoom c buflen = mtu.toNat := by
  rw [sendRoom, h.mtu]
  omega

theorem sendHdrSize_le (c : Conn) : sendHdrSize c ≤ 7 := by
  unfold sendHdrSize
  split <;> decide

theorem ctrlSent_eq (h : Sending mtu c) (hm : 16 ≤ mtu.toNat) (hb : mtu.toNat ≤ buflen) :
    ctrlSent c buflen = min c.ctrlBuf.length (mtu.toNat - sendHdrSize c) := by
  have h1 := sendHdrSize_le c
  have h2 := mtu.toNat_lt
  rw [ctrlSent, sendRoom_eq h hb, sizeSub]
  omega

theorem packetStart_length (h : Sending mtu c) (hm : 16 ≤ mtu.toNat) (hb : mtu.toNat ≤ buflen) :
    (packetStart c buflen).length = sendHdrSize c + min c.ctrlBuf.length (mtu.toNat - sendHdrSize c) := by
  rw [packetStart, List.length_append, length_headerOf, List.length_take, ctrlSent_eq h hm hb]
  omega

theorem fragLen_le (h : Sending mtu c) (hm : 16 ≤ mtu.toNat) (o : Outgoing) :
    fragLen (maxFragPayload c) o + 15 ≤ mtu.toNat := by
  have hfp : maxFragPayload c = mtu.toNat - 15 := by
    rw [maxFragPayload_eq (by rw [h.mtu]; omega), h.mtu]
  have hle : fragLen (maxFragPayload c) o ≤ maxFragPayload c := Nat.min_le_right _ _
  generalize fragLen (maxFragPayload c) o = n at hle
  omega

/-- **A packet is no longer than `mtu`.** -/
theorem sendNext_length (h : Sending mtu c) (hm : 16 ≤ mtu.toNat) (hb : mtu.toNat ≤ buflen)
    {env : Env} {c' : Conn} {pkt : List UInt8} {addr : Addr}
    (hs : netchanSendNext env c buflen = (c', some (pkt, addr))) : pkt.length ≤ mtu.toNat := by
  have h1 := sendHdrSize_le c
  by_cases hd : hasData c = true
  · have hbytes := sendNext_bytes (e := env) hd (show ¬ buflen < sendHdrSize c by omega)
    rw [hs] at hbytes
    obtain ⟨rfl, -⟩ := Prod.mk.injEq .. ▸ Option.some.inj hbytes
    rw [sendRoom_eq h hb]
    refine flushData_length _ _ _ _ _ _ (flushAcks_length _ _ _ _ ?_)
    rw [packetStart_length h hm hb]
    omega
  · rw [netchanSendNext, if_pos (by simpa using hd)] at hs
    cases hs

/-- A packet with nothing but channel frames has one. -/
theorem sendNext_grows (h : Sending mtu c) (hm : 16 ≤ mtu.toNat) (hb : mtu.toNat ≤ buflen)
    (hd : hasData c = true) (hctrl : c.ctrlBuf = []) {env : Env} {c' : Conn} {pkt : List UInt8}
    {addr : Addr} (hs : netchanSendNext env c buflen = (c', some (pkt, addr))) :
    sendHdrSize c < pkt.length := by
  have h1 := sendHdrSize_le c
  have hbytes := sendNext_bytes (e := env) hd (show ¬ buflen < sendHdrSize c by omega)
  rw [hs] at hbytes
  obtain ⟨rfl, -⟩ := Prod.mk.injEq .. ▸ Option.some.inj hbytes
  have hstart : (packetStart c buflen).length = sendHdrSize c := by
    rw [packetStart_length h hm hb, hctrl]
    rfl
  rw [sendRoom_eq h hb]
  by_cases hflag : ∃ id ch, c.channels id = some ch ∧ ch.Flagged
  · obtain ⟨id, ch, hc, hf⟩ := hflag
    refine Nat.lt_of_lt_of_le ?_ (flushData_mono ..)
    have := flushAcks_grows mtu.toNat allIds c.channels (packetStart c buflen) (by omega)
      ⟨id, List.mem_finRange id, ch, hc, hf⟩
    rwa [hstart] at this
  · have hidle : ∀ id ch, c.channels id = some ch → ¬ ch.Flagged := fun id ch hc hf =>
      hflag ⟨id, ch, hc, hf⟩
    have hsend : ∃ id ∈ allIds, ∃ ch, c.channels id = some ch ∧ (chanSendSlot ch).isSome := by
      rw [hasData, hctrl, List.isEmpty_nil, Bool.not_true, Bool.false_or, List.any_eq_true] at hd
      obtain ⟨id, hid, hany⟩ := hd
      cases hc : c.channels id with
      | none =>
        rw [hc] at hany
        cases hany
      | some ch =>
        rw [hc, Option.any_some] at hany
        obtain ⟨hn1, hn2⟩ := not_or.1 (hidle id ch hc)
        simp only [chanPending, hn1, hn2, Bool.or_false, Bool.and_eq_true, decide_eq_true_eq] at hany
        refine ⟨id, hid, ch, hc, ?_⟩
        rw [chanSendSlot, if_neg (not_or.2 ⟨not_not.2 hany.1.1, not_not.2 hany.1.2⟩)]
        exact hany.2
    rw [flushAcks_idle _ _ _ _ hidle]
    have := flushData_grows env.now (maxFragPayload c) mtu.toNat allIds c.pool c.channels
      (packetStart c buflen) (by omega) (fun id ch k hc hk => by
        have := fragLen_le h hm (ch.snd.outgoing k)
        omega) hsend
    rwa [hstart] at this

/-- **A call that sends something leaves less to do.** -/
theorem sendNext_work (h : Sending mtu c) (hm : 16 ≤ mtu.toNat) (hb : mtu.toNat ≤ buflen) {env : Env}
    {c' : Conn} {pkt : List UInt8} {addr : Addr}
    (hs : netchanSendNext env c buflen = (c', some (pkt, addr))) :
    pendingWork c' < pendingWork c := by
  have hd : hasData c = true := by
    by_contra hd
    rw [netchanSendNext, if_pos (by simpa using hd)] at hs
    cases hs
  rcases netchanSendNext_cases env c buflen with he | ⟨-, fs, c1, hem, he⟩
  · rw [he] at hs
    cases hs
  · rw [he] at hs
    cases hs
    have h1 := emits_work hem
    have h2 := ctrlSent_eq h hm hb
    have h3 := sendHdrSize_le c
    have h4 : pendingWork (ctrlFlushed c buflen) + ctrlSent c buflen = pendingWork c := by
      simp only [pendingWork, ctrlFlushed, List.length_drop]
      omega
    have h5 : pendingWork { c1 with lastSendMs := env.now, pktsSent := c.pktsSent + 1 } =
        pendingWork c1 := rfl
    rw [h5]
    by_cases hn : ctrlSent c buflen = 0
    · have hctrl : c.ctrlBuf = [] := List.length_eq_zero_iff.1 (by omega)
      have h6 := sendNext_grows h hm hb hd hctrl he
      have hfs : fs ≠ [] := by
        rintro rfl
        rw [hctrl] at h6
        simp [length_headerOf] at h6
      have h7 := List.length_pos_iff.2 hfs
      omega
    · omega

end

/-! ## Runs -/

/-- A step that leaves `mtu` as it is. -/
def Step.KeepsMtu (mtu : UInt32) : Step → Prop
  | .config cfg => cfg.mtu = mtu
  | _ => True

instance (mtu : UInt32) : ∀ st : Step, Decidable (st.KeepsMtu mtu)
  | .config cfg => inferInstanceAs (Decidable (cfg.mtu = mtu))
  | .call _ | .sendNext .. | .header .. | .frame .. => inferInstanceAs (Decidable True)

theorem sending_step {mtu : UInt32} {c : Conn} {st : Step} (h : Sending mtu c)
    (hst : st.KeepsMtu mtu) : Sending mtu (st.apply c) := by
  refine ⟨?_, pool_step h.pool st⟩
  cases st with
  | config cfg => exact hst
  | call k => rw [Step.apply, (call_cfg c k).1, h.mtu]
  | frame env f => rw [Step.apply, (stepFrame_fixed env c f).2.1, h.mtu]
  | header env pkt source => rw [Step.apply, (Promise.fedConn_alike env c pkt source).1.cfg, h.mtu]
  | sendNext env buflen => rw [Step.apply, (sendNext_cfg env c buflen).1, h.mtu]

theorem Sending.patch {mtu : UInt32} {c : Conn} (h : Sending mtu c) (m : Mem) :
    Sending mtu (c.patch m) :=
  ⟨h.mtu, h.pool.congr rfl rfl⟩

/-! ## The loop -/

namespace Object

/-- The object after `n` rounds of the loop that calls `netchan_send_next`, with the clock and the
buffer of each round. -/
def sendLoop (L : Layout) (calls : Nat → Env × Nat) (o : Conn) : Nat → Option Conn
  | 0 => some o
  | n + 1 => step L (sendLoop L calls o n) (.sendNext (calls n).1 (calls n).2)

/-- What round `n` of the loop returns. -/
def sendRound (L : Layout) (calls : Nat → Env × Nat) (o : Conn) (n : Nat) :
    Option (Option (List UInt8 × Addr)) :=
  (sendLoop L calls o n).bind fun o =>
    (netchanSendNext L (calls n).1 o (calls n).2).map Prod.snd

/-- Round `i` sends a packet of at most `mtu` bytes and leaves less to do. -/
def Shrinks (L : Layout) (calls : Nat → Env × Nat) (o : Conn) (i : Nat) : Prop :=
  ∃ c c' pkt addr, sendLoop L calls o i = some c ∧ sendLoop L calls o (i + 1) = some c' ∧
    sendRound L calls o i = some (some (pkt, addr)) ∧ pkt.length ≤ o.cfg.mtu.toNat ∧
    pendingWork (loaded L c') < pendingWork (loaded L c)

/-- **Draining ends and is complete**: the loop over `netchan_send_next` with buffers of `mtu` bytes
ends after at most `pendingWork` packets, each of which leaves less to do, and then nothing is left
to be sent and `ctrl_len` is 0. -/
def Drains (L : Layout) (o : Conn) : Prop :=
  ∀ calls : Nat → Env × Nat, (∀ i, o.cfg.mtu.toNat ≤ (calls i).2) →
    ∃ n ≤ pendingWork (loaded L o), (∀ i < n, Shrinks L calls o i) ∧
      sendRound L calls o n = some none ∧
      ∃ c, sendLoop L calls o n = some c ∧ ctrlLen L c.pool.poolStore = 0 ∧ Drained (loaded L c)

section
variable {L : Layout} {mtu : UInt32} {o : Conn} {calls : Nat → Env × Nat}

/-- A round of the loop is a `netchan_send_next` of `Conn`. -/
theorem round_spec {c : Conn} {n : Nat} (hc : sendLoop L calls o n = some c) (hh : Held L c)
    (hs : Sending mtu c) : ∃ m c' r, netchanSendNext L (calls n).1 c (calls n).2 = some (c', r) ∧
      Netchan.netchanSendNext (calls n).1 (c.patch m) (calls n).2 = (c', r) ∧
      sendRound L calls o n = some r ∧ sendLoop L calls o (n + 1) = some c' ∧ Held L c' ∧
      Sending mtu c' := by
  obtain ⟨m, -, hs1, hh1⟩ := sendNext_held hh (calls n).1 (calls n).2
  have hmtu : (Step.sendNext (calls n).1 (calls n).2).KeepsMtu mtu := trivial
  have hs2 := sending_step (hs.patch m) hmtu
  simp only [Step.apply] at hs2
  generalize hr : Netchan.netchanSendNext (calls n).1 (c.patch m) (calls n).2 = r at hs1 hh1 hs2
  refine ⟨m, r.1, r.2, hs1, hr, ?_, ?_, hh1, hs2⟩
  · rw [sendRound, hc, Option.bind_some, hs1]
    rfl
  · rw [sendLoop, hc, step, Option.bind_some, apply, hs1]
    rfl

/-- **The rounds so far took as much away.** -/
theorem rounds_work (hh : Held L o) (hs : Sending mtu o) (hm : 16 ≤ mtu.toNat)
    (hb : ∀ i, mtu.toNat ≤ (calls i).2) (n : Nat) (hn : ∀ i < n, sendRound L calls o i ≠ some none) :
    ∃ c, sendLoop L calls o n = some c ∧ Held L c ∧ Sending mtu c ∧
      pendingWork c + n ≤ pendingWork o ∧ ∀ i < n, Shrinks L calls o i := by
  induction n with
  | zero => exact ⟨o, rfl, hh, hs, by omega, by simp⟩
  | succ n ih =>
    obtain ⟨c, hc, hch, hcs, hw, hall⟩ := ih fun i hi => hn i (by omega)
    obtain ⟨m, c', r, -, h2, h3, h4, h5, h6⟩ := round_spec hc hch hcs
    cases r with
    | none => exact absurd h3 (hn n (by omega))
    | some r =>
      obtain ⟨pkt, addr⟩ := r
      have hlen := sendNext_length (hcs.patch m) hm (hb n) h2
      have hless : pendingWork c' < pendingWork c := sendNext_work (hcs.patch m) hm (hb n) h2
      refine ⟨c', h4, h5, h6, by omega, fun i hi => ?_⟩
      rcases Nat.lt_succ_iff_lt_or_eq.1 hi with hi | rfl
      · exact hall i hi
      · refine ⟨c, c', pkt, addr, hc, h4, h3, ?_, ?_⟩
        · rw [hs.mtu]
          exact hlen
        · rw [loaded_held hch, loaded_held h5]
          exact hless

/-- The loop ends. -/
theorem exists_round_none (hh : Held L o) (hs : Sending mtu o) (hm : 16 ≤ mtu.toNat)
    (hb : ∀ i, mtu.toNat ≤ (calls i).2) : ∃ n, sendRound L calls o n = some none := by
  by_contra hne
  rw [not_exists] at hne
  obtain ⟨c, -, -, -, hle, -⟩ := rounds_work hh hs hm hb (pendingWork o + 1) fun i _ => hne i
  omega

theorem drained_of_none {n : Nat} {c : Conn} (hh : Held L c) (hs : Sending mtu c)
    (hm : 16 ≤ mtu.toNat) (hb : ∀ i, mtu.toNat ≤ (calls i).2) (hc : sendLoop L calls o n = some c)
    (hn : sendRound L calls o n = some none) : Drained c := by
  obtain ⟨m, c', r, -, h2, h3, -⟩ := round_spec hc hh hs
  have hr : r = none := Option.some.inj (h3.symm.trans hn)
  refine drained_of_work (hasData_work hs.pool ?_)
  by_contra hd
  rw [Bool.not_eq_false] at hd
  have h1 := sendHdrSize_le (c.patch m)
  have hle := hb n
  have hbytes := sendNext_bytes (e := (calls n).1) (c := c.patch m) hd
    (show ¬ (calls n).2 < sendHdrSize (c.patch m) by omega)
  rw [h2, hr] at hbytes
  cases hbytes

theorem drains_of_held (hh : Held L o) (hs : Sending mtu o) (hm : 16 ≤ mtu.toNat) : Drains L o := by
  intro calls hb
  rw [hs.mtu] at hb
  have hex := exists_round_none hh hs hm hb
  obtain ⟨c, hc, hch, hcs, hw, hall⟩ := rounds_work hh hs hm hb (Nat.find hex) fun i hi =>
    Nat.find_min hex hi
  have hd := drained_of_none hch hcs hm hb hc (Nat.find_spec hex)
  rw [loaded_held hh]
  refine ⟨Nat.find hex, by omega, hall, Nat.find_spec hex, c, hc, ?_, ?_⟩
  · rw [hch.len, hd.ctrl]
    rfl
  · rwa [loaded_held hch]

end

end Object

/-- **Draining ends and is complete** in every state an object reaches, when its `mtu` is fixed and at
least 16 and every message completed by reassembly fits in a buffer. -/
theorem drain_complete (L : Layout) (server : Bool) (cfg : Cfg) (sts : List Step)
    (hm : 16 ≤ cfg.mtu.toNat)
    (h : Object.Along L (fun c st => FramesFit c st ∧ st.KeepsMtu cfg.mtu) server
      (.config cfg :: sts)) :
    ∃ o, Object.run L server (.config cfg :: sts) = some o ∧ Object.Drains L o := by
  have hopen : Sending cfg.mtu (netchanConfig (netchanOpen server) cfg) :=
    ⟨rfl, pool_step (pool_open server) (.config cfg)⟩
  have hheld : Held L (netchanConfig (netchanOpen server) cfg) := Object.held_open L server
  obtain ⟨o, ho, hh, hs⟩ := Object.run_held (I := Sending cfg.mtu)
    (fun c st m m' hc hst _ => (sending_step (hc.patch m) hst).patch m') hheld hopen h.2
  exact ⟨o, ho, Object.drains_of_held hh hs hm⟩

/-- A client that wants to connect, with the smallest packets. -/
theorem drain_complete_connect :
    ∃ o, Object.run .lp64 false [.config { netchanCfgDefault with mtu := 16 },
        .call (.connect { entropy := 7 } [1])] = some o ∧
      Object.Drains .lp64 o :=
  drain_complete .lp64 false { netchanCfgDefault with mtu := 16 }
    [.call (.connect { entropy := 7 } [1])] (by decide) (by decide +kernel)

/-- A server with packets of 251 bytes and one channel, that is sent a message in two fragments, the
second one first. Once they are moved, the last bytes of the buffer are those of `ctrl_len`; the bytes
before them empty the event ring. -/
def overrunSteps : List Step :=
  let cfg := { netchanCfgDefault with mtu := 251 }
  .config cfg :: listenSteps ++ [.frame {} (.data 0 0 1 2 (List.replicate 1812 0)),
    .frame {} (.data 0 0 0 2 (List.replicate 2040 0 ++ List.replicate 8 0xFF))]

/-- **The overrun of reassembly reaches `ctrl_len`**: it is `SIZE_MAX` then, `netchan_send_next`
moves that many bytes, and the loop does not end. -/
theorem overrun_not_drained :
    (∀ st ∈ overrunSteps, st.KeepsMtu 251) ∧
    ∃ o, Object.run .lp64 true overrunSteps = some o ∧ o.cfg.mtu = 251 ∧
      Object.ctrlLen .lp64 o.pool.poolStore = 2 ^ 64 - 1 ∧
      Object.netchanSendNext .lp64 {} o 251 = none ∧ ¬ Object.Drains .lp64 o := by
  refine ⟨by decide +kernel, ?_⟩
  have hv : (Object.run .lp64 true overrunSteps).map (fun o => (o.cfg.mtu,
      Object.ctrlLen .lp64 o.pool.poolStore, (Object.netchanSendNext .lp64 {} o 251).isNone)) =
        some (251, 2 ^ 64 - 1, true) := by
    decide +kernel
  obtain ⟨o, ho, hv⟩ := Option.map_eq_some_iff.1 hv
  simp only [Prod.mk.injEq, Option.isNone_iff_eq_none] at hv
  obtain ⟨h1, h2, h3⟩ := hv
  refine ⟨o, ho, h1, h2, h3, fun hd => ?_⟩
  have hround : Object.sendRound .lp64 (fun _ => ({}, 251)) o 0 = none := by
    rw [Object.sendRound, Object.sendLoop, Option.bind_some, h3, Option.map_none]
  obtain ⟨n, -, hall, hn, -⟩ := hd (fun _ => ({}, 251)) fun _ => by rw [h1]; decide
  cases n with
  | zero =>
    rw [hround] at hn
    cases hn
  | succ n =>
    obtain ⟨c, c', pkt, addr, -, -, hs, -⟩ := hall 0 (Nat.succ_pos n)
    rw [hround] at hs
    cases hs

end Netchan
