import Netchan.Micro.Step
import Netchan.Micro.GoBackN

/-!
# The transmit side of one connection

`Mc.tx` is what `mc_write`, `mc_send_next`, the acknowledgements and the retransmit timer work on.
`applyIn_tx` says once what a call can do to it, for a build with a window of `win` messages;
`Flight` reads its three sequence numbers as counters that never wrap, and `Flight.step` says how a
call moves them, whatever the datagrams say.
-/

namespace Netchan.Micro

open Lib

/-- A call in a build where `MC_WINDOW` is `win`; `MC_RECVQ` is a tunable of its own. -/
def Step.applyIn (win : Nat) (c : Mc) : Step → Mc
  | .write i data => (mcWrite win c i data).2
  | .sendNext buflen => (mcSendNext win c buflen).1
  | st => st.apply c

theorem applyIn_default (c : Mc) (st : Step) : st.applyIn mcWindow c = st.apply c := by
  cases st <;> rfl

/-- The messages the call has accepted on a reliable channel. -/
def Step.writes (win : Nat) (c : Mc) : Step → Written
  | .write i data =>
    if (c.chan i).type = .reliable ∧ (mcWrite win c i data).1 = .ok data.length then [(i, data)]
    else []
  | _ => []

/-! ## What a call can do -/

/-- The fields of the transmit side. -/
@[ext] structure Tx where
  txw : Nat → TxSlot
  base : UInt16
  next : UInt16
  unsent : UInt16
  attempts : UInt16
  txu : List (UInt8 × List UInt8)

def Mc.tx (c : Mc) : Tx := ⟨c.txw, c.txBase, c.txNext, c.txUnsent, c.txAttempts, c.txu⟩

/-- The transmit side after a call. -/
inductive TxStep (win : Nat) (c : Mc) : Step → Tx → Prop
  | same (st : Step) (h : st.writes win c = []) : TxStep win c st c.tx
  /-- A reliable message takes the slot of `tx_next`. -/
  | wrote (i : ChanId) (data : List UInt8) (h : (Step.write i data).writes win c = [(i, data)])
      (hlen : data.length ≤ mcMaxmsg) (hroom : (c.txNext - c.txBase).toNat < win) :
      TxStep win c (.write i data) { c.tx with
        txw := Function.update c.txw (c.txNext.toNat % win) ⟨c.txNext, idByte i, data⟩
        next := c.txNext + 1 }
  /-- An unreliable message joins the ring, which may have lost its oldest. -/
  | queued (i : ChanId) (data : List UInt8) (txu : List (UInt8 × List UInt8))
      (h : (Step.write i data).writes win c = []) (hlen : data.length ≤ mcMaxmsg)
      (hsuf : txu <:+ c.txu) :
      TxStep win c (.write i data) { c.tx with txu := txu ++ [(idByte i, data)] }
  | acked (pkt : List UInt8) (source : Option Addr) (ack : UInt16) :
      TxStep win c (.feed pkt source) (processAck c ack).tx
  | resent (nowMs : UInt32) (h : c.txBase ≠ c.txNext) :
      TxStep win c (.service nowMs)
        { c.tx with unsent := c.txBase, attempts := c.txAttempts + 1 }
  | gaveUp (nowMs : UInt32) (h : c.txBase ≠ c.txNext) :
      TxStep win c (.service nowMs) { c.tx with attempts := c.txAttempts + 1 }
  | sent (buflen : Nat) : TxStep win c (.sendNext buflen) (sendData win (min buflen mcMtu) c).1.tx

section
variable (win : Nat) (c : Mc)

/-- **What `mc_write` does**: nothing, or the message takes a slot of the window, or it is queued on
the unreliable ring. -/
theorem mcWrite_spec (i : ChanId) (data : List UInt8) :
    (∃ e, mcWrite win c i data = (.error e, c)) ∨
    data.length ≤ mcMaxmsg ∧
      ((c.chan i).type = .reliable ∧ (c.txNext - c.txBase).toNat < win ∧
          mcWrite win c i data = (.ok data.length, { c with
            txw := Function.update c.txw (c.txNext.toNat % win) ⟨c.txNext, idByte i, data⟩
            txNext := c.txNext + 1 }) ∨
        (c.chan i).type ≠ .reliable ∧ ∃ txu, txu <:+ c.txu ∧
          mcWrite win c i data = (.ok data.length, { c with txu := txu ++ [(idByte i, data)] })) := by
  unfold mcWrite
  split
  · exact .inl ⟨_, rfl⟩
  split
  · exact .inl ⟨_, rfl⟩
  split
  · exact .inl ⟨_, rfl⟩
  rename_i hlen
  have hlen' : data.length ≤ mcMaxmsg := Nat.not_lt.1 hlen
  split
  · rename_i ht
    split
    · exact .inl ⟨_, rfl⟩
    · rename_i hroom
      exact .inr ⟨hlen', .inl ⟨ht, Nat.not_le.1 hroom, rfl⟩⟩
  · rename_i ht
    refine .inr ⟨hlen', .inr ⟨ht, _, ?_, rfl⟩⟩
    split
    · exact List.tail_suffix _
    · exact List.suffix_rfl

theorem mcWrite_tx (i : ChanId) (data : List UInt8) :
    TxStep win c (.write i data) (mcWrite win c i data).2.tx := by
  rcases mcWrite_spec win c i data with ⟨e, he⟩ | ⟨hlen, ⟨ht, hroom, he⟩ | ⟨ht, txu, hsuf, he⟩⟩
  · rw [he]
    refine .same _ (if_neg ?_)
    rw [he]
    exact fun h => absurd h.2 (by simp)
  · rw [he]
    refine .wrote i data (if_pos ⟨ht, ?_⟩) hlen hroom
    rw [he]
  · rw [he]
    exact .queued i data txu (if_neg fun h => ht h.1) hlen hsuf

/-! ## Datagrams -/

variable {c} {d : Mc}

theorem processAck_tx (h : d.tx = c.tx) (ack : UInt16) :
    (processAck d ack).tx = (processAck c ack).tx := by
  obtain ⟨h1, h2, h3, h4, h5, h6⟩ := Tx.ext_iff.1 h
  simp only [Mc.tx] at h1 h2 h3 h4 h5 h6
  unfold processAck
  simp only [h2, h3, h4]
  split
  · simp only [Mc.tx, h1, h6]
  · simp only [Mc.tx, h1, h5, h6]

theorem evPush_tx (c : Mc) (e : Event) : (evPush c e).tx = c.tx := by
  rw [evPush_eq]
  rfl

theorem deliver_txs (c : Mc) (chan mt : UInt8) (seq : UInt16) (data : List UInt8) :
    (deliver c chan mt seq data).tx = c.tx := by
  unfold deliver pushData
  simp only [evPush_eq]
  repeat' split
  all_goals rfl

theorem feedRecords_tx : ∀ (fuel : Nat) (c : Mc) (q : List UInt8),
    (feedRecords fuel c q).tx = c.tx
  | 0, _, _ => rfl
  | fuel + 1, c, q => by
    unfold feedRecords
    split
    · rfl
    dsimp only
    split
    · rfl
    · rw [feedRecords_tx fuel, deliver_txs]

section
variable (c : Mc) (pkt : List UInt8) (source : Option Addr)

theorem feedSyn_tx : (feedSyn c pkt source).2.tx = c.tx := by
  unfold feedSyn
  dsimp only
  repeat' split
  all_goals rfl

theorem feedSynack_tx : (feedSynack c pkt source).2.tx = c.tx := by
  unfold feedSynack
  split
  · rfl
  split
  · rfl
  dsimp only
  split
  · simp only [evPush_eq, Mc.tx]
  · simp only [Mc.tx]

theorem feedAck_tx : (feedAck c pkt).2.tx = c.tx := by
  unfold feedAck
  split
  · rfl
  split
  · exact evPush_tx _ _
  · rfl

theorem feedFin_tx : (feedFin c pkt).2.tx = c.tx := by
  unfold feedFin
  split
  · rfl
  split
  · exact evPush_tx _ _
  · rfl

theorem dataUp_tx : (dataUp c).tx = c.tx := by
  unfold dataUp
  split
  · exact evPush_tx _ _
  · rfl

/-- **What a datagram does**: nothing, or it acknowledges. -/
theorem mcFeed_tx : (mcFeed c pkt source).2.tx = c.tx ∨
    ∃ ack, (mcFeed c pkt source).2.tx = (processAck c ack).tx := by
  unfold mcFeed
  split
  · exact .inl rfl
  dsimp only
  have hc : ({ c with lastRecv := c.now } : Mc).tx = c.tx := rfl
  generalize { c with lastRecv := c.now } = d at hc
  split
  · exact .inl ((feedSyn_tx d pkt source).trans hc)
  · exact .inl ((feedSynack_tx d pkt source).trans hc)
  · exact .inl ((feedAck_tx d pkt).trans hc)
  · have hup : (dataUp d).tx = c.tx := (dataUp_tx d).trans hc
    unfold feedData
    split
    · exact .inl hc
    dsimp only
    split
    · exact .inl hup
    · refine .inr ⟨rd16 pkt 6, ?_⟩
      rw [feedRecords_tx, processAck_tx hup]
  · exact .inl ((feedFin_tx d pkt).trans hc)
  · exact .inl hc

end

/-! ## Timers and packets -/

variable (c)

theorem mcService_tx (nowMs : UInt32) : TxStep win c (.service nowMs) (mcService c nowMs).2.tx := by
  unfold mcService
  dsimp only
  split
  · unfold serviceConnecting
    simp only [evPush_eq]
    repeat' split
    all_goals exact .same _ rfl
  split
  · unfold serviceConnected
    simp only [evPush_eq]
    split
    · exact .same _ rfl
    split
    · rename_i h
      split
      · exact .gaveUp nowMs h.1
      · split
        · exact .resent nowMs h.1
        · exact .resent nowMs h.1
    · split
      · exact .same _ rfl
      · exact .same _ rfl
  · exact .same _ rfl

theorem mcSendNext_tx (buflen : Nat) :
    TxStep win c (.sendNext buflen) (mcSendNext win c buflen).1.tx := by
  unfold mcSendNext
  split
  · exact .same _ rfl
  split
  · exact .same _ rfl
  split
  · exact .same _ rfl
  split
  · exact .same _ rfl
  split
  · exact .same _ rfl
  split
  · exact .same _ rfl
  · exact .sent buflen

/-- **What a call does to the transmit side.** -/
theorem applyIn_tx (st : Step) : TxStep win c st (st.applyIn win c).tx := by
  cases st with
  | write i data => exact mcWrite_tx win c i data
  | sendNext buflen => exact mcSendNext_tx win c buflen
  | service nowMs => exact mcService_tx win c nowMs
  | feed pkt source =>
    show TxStep win c _ (mcFeed c pkt source).2.tx
    rcases mcFeed_tx c pkt source with he | ⟨ack, he⟩
    · rw [he]
      exact .same _ rfl
    · rw [he]
      exact .acked pkt source ack
  | chanOpen type =>
    show TxStep win c _ (mcChanOpen c type).2.tx
    unfold mcChanOpen
    split
    · exact .same _ rfl
    · exact .same _ rfl
  | read i buflen =>
    show TxStep win c _ (mcRead c i buflen).2.tx
    unfold mcRead
    split
    · exact .same _ rfl
    split
    · exact .same _ rfl
    · exact .same _ rfl
  | poll =>
    show TxStep win c _ (mcPoll c).2.tx
    unfold mcPoll
    split
    · exact .same _ rfl
    · exact .same _ rfl
  | connect addr => exact .same _ rfl
  | chanClose i => exact .same _ rfl

end

/-! ## Counters that never wrap -/

/-- The transmit side when `L` messages have been written, `B` of them acknowledged and `U` of them
sent. -/
structure Flight (win : Nat) (t : Tx) (L B U : Nat) : Prop where
  base : t.base = UInt16.ofNat B
  next : t.next = UInt16.ofNat L
  unsent : t.unsent = UInt16.ofNat U
  lo : B ≤ U
  mid : U ≤ L
  hi : L ≤ B + win

/-- An acknowledgement, whatever number it carries, moves `tx_base` on by some messages. -/
theorem ackLoop_advances (ack : UInt16) (L : Nat) : ∀ (fuel B : Nat), B + fuel = L →
    ∃ d ≤ fuel, ackLoop ack (UInt16.ofNat L) fuel (UInt16.ofNat B) = UInt16.ofNat (B + d)
  | 0, B, _ => ⟨0, Nat.le_refl _, rfl⟩
  | fuel + 1, B, h => by
    unfold ackLoop
    split
    · obtain ⟨d, hd, he⟩ := ackLoop_advances ack L fuel (B + 1) (by omega)
      refine ⟨d + 1, by omega, ?_⟩
      rw [ofNat_succ, he, Nat.add_right_comm]
      rfl
    · exact ⟨0, Nat.zero_le _, rfl⟩

/-- The record of a slot. -/
def slotRec (s : TxSlot) : Rec := ⟨s.chan, mtRel, s.seq, s.data⟩

/-- The records of the slots of `k` messages from the `U`-th on. -/
def slotRecs (win : Nat) (txw : Nat → TxSlot) (U k : Nat) : List Rec :=
  (List.range k).map fun j => slotRec (txw ((UInt16.ofNat (U + j)).toNat % win))

theorem slotRecs_succ (win : Nat) (txw : Nat → TxSlot) (U k : Nat) :
    slotRecs win txw U (k + 1) =
      slotRec (txw ((UInt16.ofNat U).toNat % win)) :: slotRecs win txw (U + 1) k := by
  have hshift : ∀ j, U + 1 + j = U + (j + 1) := by omega
  simp only [slotRecs, List.range_succ_eq_map, List.map_cons, List.map_map, hshift]
  rfl

section
variable {win : Nat} {c : Mc} {L B U : Nat}

/-- **The loop over the reliable records** puts the next messages of the window into the packet, at
least one if it fits. -/
theorem sendRel_eq (win cap : Nat) (txw : Nat → TxSlot) (L : Nat) : ∀ (fuel U pos : Nat),
    U + fuel = L → ∃ k ≤ fuel, sendRel win cap txw (UInt16.ofNat L) fuel (UInt16.ofNat U) pos =
      (UInt16.ofNat (U + k), encodeRecs (slotRecs win txw U k)) ∧
      (k = 0 → fuel = 0 ∨ UInt16.ofNat U = UInt16.ofNat L ∨
        cap < pos + (mcRec + (txw ((UInt16.ofNat U).toNat % win)).data.length))
  | 0, U, pos, _ => ⟨0, Nat.le_refl _, rfl, fun _ => .inl rfl⟩
  | fuel + 1, U, pos, h => by
    unfold sendRel
    dsimp only
    split
    · rename_i hstop
      exact ⟨0, Nat.zero_le _, rfl, fun _ => .inr hstop⟩
    · obtain ⟨k, hk, he, -⟩ := sendRel_eq win cap txw L fuel (U + 1)
        (pos + (mcRec + (txw ((UInt16.ofNat U).toNat % win)).data.length)) (by omega)
      refine ⟨k + 1, by omega, ?_, fun h0 => by cases h0⟩
      rw [ofNat_succ, he, slotRecs_succ, encodeRecs_cons, Nat.add_right_comm]
      rfl

/-- **A DATA packet**: the next messages of the window, then queued datagrams. -/
theorem sendData_eq (cap : Nat) (h : Flight win c.tx L B U) (hwin : win ≤ 32767) :
    ∃ k l, U + k ≤ L ∧ c.txu = l ++ (sendData win cap c).1.txu ∧
      (sendData win cap c).1.tx = { c.tx with
        unsent := UInt16.ofNat (U + k), txu := (sendData win cap c).1.txu } ∧
      (sendData win cap c).2 =
        header c.remoteId 4 c.rxNext ++ encodeRecs (slotRecs win c.txw U k ++ l.map unrelRec) ∧
      (k = 0 → U < L →
        cap < mcHdr + (mcRec + (c.txw ((UInt16.ofNat U).toNat % win)).data.length)) ∧
      (U = L → l = [] → ∀ m ∈ c.txu.head?, cap < mcHdr + (mcRec + m.2.length)) := by
  have hlo := h.lo
  have hmid := h.mid
  have hhi := h.hi
  have hnext : c.txNext = UInt16.ofNat L := h.next
  have hunsent : c.txUnsent = UInt16.ofNat U := h.unsent
  have hfuel : (c.txNext - c.txUnsent).toNat = L - U := by
    rw [hnext, hunsent, toNat_sub_of_le hmid (by omega)]
  obtain ⟨k, hk, he, hstop⟩ := sendRel_eq win cap c.txw L (L - U) U mcHdr (by omega)
  obtain ⟨l, h1, h2⟩ := sendUnrel_eq cap c.txu (mcHdr + (encodeRecs (slotRecs win c.txw U k)).length)
  have hrel : sendRel win cap c.txw c.txNext (c.txNext - c.txUnsent).toNat c.txUnsent mcHdr =
      (UInt16.ofNat (U + k), encodeRecs (slotRecs win c.txw U k)) := by
    rw [hfuel, hnext, hunsent, he]
  unfold sendData
  rw [hrel]
  dsimp only
  refine ⟨k, l, by omega, h1, rfl, ?_, fun h0 hlt => ?_, fun hUL hl m hm => ?_⟩
  · rw [h2, encodeRecs_append, List.append_assoc]
  · rcases hstop h0 with hz | hz | hz
    · omega
    · have := eq_of_ofNat hz (by omega) (by omega)
      omega
    · exact hz
  · have hk0 : k = 0 := by omega
    rw [hk0, hl] at h1
    exact sendUnrel_stops hm h1.symm

/-- **An acknowledgement** lets go of some messages of the window. -/
theorem processAck_flight (h : Flight win c.tx L B U) (hwin : win ≤ 32767) (ack : UInt16) :
    ∃ B', B ≤ B' ∧ B' ≤ L ∧ Flight win (processAck c ack).tx L B' (max U B') ∧
      (processAck c ack).txw = c.txw ∧ (processAck c ack).txu = c.txu ∧
      (processAck c ack).txAttempts = if B' = B then c.txAttempts else 0 := by
  have hlo := h.lo
  have hmid := h.mid
  have hhi := h.hi
  have hbase : c.txBase = UInt16.ofNat B := h.base
  have hnext : c.txNext = UInt16.ofNat L := h.next
  have hunsent : c.txUnsent = UInt16.ofNat U := h.unsent
  have hfuel : (c.txNext - c.txBase).toNat = L - B := by
    rw [hnext, hbase, toNat_sub_of_le (hlo.trans hmid) (by omega)]
  obtain ⟨d, hd, he⟩ := ackLoop_advances ack L (L - B) B (by omega)
  have hloop : ackLoop ack c.txNext (c.txNext - c.txBase).toNat c.txBase = UInt16.ofNat (B + d) := by
    rw [hfuel, hnext, hbase, he]
  have hmax : (if seqAfter (UInt16.ofNat (B + d)) c.txUnsent then UInt16.ofNat (B + d)
      else c.txUnsent) = UInt16.ofNat (max U (B + d)) := by
    rw [hunsent, seqAfter_ofNat (by omega) (by omega)]
    by_cases hU : U < B + d
    · rw [if_pos (decide_eq_true hU), Nat.max_eq_right (by omega)]
    · rw [if_neg (by simpa using hU), Nat.max_eq_left (by omega)]
  have hmoved : UInt16.ofNat (B + d) = c.txBase ↔ B + d = B := by
    rw [hbase]
    constructor
    · intro heq
      exact eq_of_ofNat heq (by omega) (by omega)
    · intro heq
      rw [heq]
  refine ⟨B + d, by omega, by omega, ?_⟩
  unfold processAck
  dsimp only
  rw [hloop, hmax]
  by_cases hm : B + d = B
  · rw [if_neg (by simpa using hmoved.2 hm), if_pos hm]
    exact ⟨⟨hmoved.2 hm ▸ rfl, hnext, rfl, by omega, by omega, by omega⟩, rfl, rfl, rfl⟩
  · rw [if_pos fun heq => hm (hmoved.1 heq), if_neg hm]
    exact ⟨⟨rfl, hnext, rfl, by omega, by omega, by omega⟩, rfl, rfl, rfl⟩

/-- **How a call moves the counters.** -/
theorem Flight.step (h : Flight win c.tx L B U) (hwin : win ≤ 32767) {st : Step} {t : Tx}
    (ht : TxStep win c st t) :
    ∃ B' U', B ≤ B' ∧ Flight win t (L + (st.writes win c).length) B' U' := by
  have hlo := h.lo
  have hmid := h.mid
  have hhi := h.hi
  cases ht with
  | same st hw =>
    rw [hw]
    exact ⟨B, U, Nat.le_refl _, h⟩
  | wrote i data hw hlen hroom =>
    have hbase : c.txBase = UInt16.ofNat B := h.base
    have hnext : c.txNext = UInt16.ofNat L := h.next
    rw [hbase, hnext, toNat_sub_of_le (hlo.trans hmid) (by omega)] at hroom
    rw [hw]
    refine ⟨B, U, Nat.le_refl _, h.base, ?_, h.unsent, hlo, by omega, ?_⟩
    · show c.txNext + 1 = UInt16.ofNat (L + 1)
      rw [hnext, ofNat_succ]
    · show L + 1 ≤ B + win
      omega
  | queued i data txu hw hlen hsuf =>
    rw [hw]
    exact ⟨B, U, Nat.le_refl _, h.base, h.next, h.unsent, hlo, hmid, hhi⟩
  | acked pkt source ack =>
    obtain ⟨B', h1, -, h2, -⟩ := processAck_flight h hwin ack
    exact ⟨B', _, h1, h2⟩
  | resent nowMs hne => exact ⟨B, B, Nat.le_refl _, h.base, h.next, h.base, Nat.le_refl _,
      hlo.trans hmid, hhi⟩
  | gaveUp nowMs hne => exact ⟨B, U, Nat.le_refl _, h.base, h.next, h.unsent, hlo, hmid, hhi⟩
  | sent buflen =>
    obtain ⟨k, l, hk, -, he, -⟩ := sendData_eq (min buflen mcMtu) h hwin
    rw [he]
    exact ⟨B, U + k, Nat.le_refl _, h.base, h.next, rfl, by omega, hk, hhi⟩

end

end Netchan.Micro
