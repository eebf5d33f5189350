import Netchan.Micro.Slots

/-!
# Draining a connection

`mcDrain` calls `mc_send_next` until it returns 0. Every packet takes something away from what is
left to send (`drain_run`), as a message of full size just fits an empty packet, so the
drain ends; and the records of its DATA packets, which the record loop of `mc_feed` finds again, are
the unsent messages of the window and the datagrams of the ring, each in order. A connection that is
not CONNECTED sends no DATA packet and keeps what it has (`closed_keeps_messages`).
-/

namespace Netchan.Micro

open Lib

/-- Calls `mc_send_next` until it returns 0, at most `fuel` times: the connection then, and the
packets with their destinations. -/
def mcDrain (win buflen : Nat) : Nat → Mc → Option (Mc × List (List UInt8 × Addr))
  | 0, _ => none
  | fuel + 1, c =>
    match mcSendNext win c buflen with
    | (c', none) => some (c', [])
    | (c', some p) => (mcDrain win buflen fuel c').map fun r => (r.1, p :: r.2)

/-- The records that `mc_feed` finds in a DATA packet. -/
def seenRecords (pkt : List UInt8) : List Rec := recordsOf (pkt.length - mcHdr) (pkt.drop mcHdr)

def isData (p : List UInt8 × Addr) : Bool := byte p.1 4 = 4

/-! ## One packet -/

section
variable {win cap buflen : Nat} {c : Mc} {L B U : Nat}

theorem sendRel_length (win cap : Nat) (txw : Nat → TxSlot) (next : UInt16) :
    ∀ (fuel : Nat) (unsent : UInt16) (pos : Nat), pos ≤ cap →
    pos + (sendRel win cap txw next fuel unsent pos).2.length ≤ cap
  | 0, _, _, h => h
  | fuel + 1, unsent, pos, h => by
    unfold sendRel
    dsimp only
    split
    · exact h
    · rename_i hfit
      have ih := sendRel_length win cap txw next fuel (unsent + 1)
        (pos + (mcRec + (txw (unsent.toNat % win)).data.length)) (by omega)
      rw [List.length_append, length_record]
      simp only [mcRec] at ih ⊢
      omega

theorem sendUnrel_length (cap : Nat) : ∀ (txu : List (UInt8 × List UInt8)) (pos : Nat), pos ≤ cap →
    pos + (sendUnrel cap txu pos).2.length ≤ cap
  | [], _, h => h
  | (ch, m) :: txu, pos, h => by
    unfold sendUnrel
    split
    · exact h
    · have ih := sendUnrel_length cap txu (pos + (mcRec + m.length)) (by omega)
      dsimp only
      rw [List.length_append, length_record]
      simp only [mcRec] at ih ⊢
      omega

theorem sendData_length (win : Nat) (c : Mc) (h : mcHdr ≤ cap) :
    (sendData win cap c).2.length ≤ cap := by
  have h1 := sendRel_length win cap c.txw c.txNext (c.txNext - c.txUnsent).toNat c.txUnsent mcHdr h
  have h2 := sendUnrel_length cap c.txu _ h1
  unfold sendData
  dsimp only
  rw [List.append_assoc, length_header, List.length_append]
  simp only [mcHdr] at h2 ⊢
  omega

/-- The control packets that are due. -/
def Mc.control (c : Mc) : Nat := c.sendSynack.toNat + c.sendAck.toNat + c.sendSyn.toNat

/-- What the packets to come do not change. -/
structure SameSession (c c' : Mc) : Prop where
  state : c'.state = c.state
  remoteId : c'.remoteId = c.remoteId
  rxNext : c'.rxNext = c.rxNext
  txw : c'.txw = c.txw

/-- **What `mc_send_next` does**: nothing is left, or it sends a control packet, or a DATA packet. -/
inductive SendCase (win buflen : Nat) (c : Mc) : Mc × Option (List UInt8 × Addr) → Prop
  | quiet (h0 : c.control = 0) (h : c.state = .connected →
      c.txUnsent = c.txNext ∧ c.txu = [] ∧ c.ackPending = false) : SendCase win buflen c (c, none)
  | control (c' : Mc) (pkt : List UInt8) (hdata : byte pkt 4 ≠ 4) (hlen : pkt.length ≤ 12)
      (hless : c'.control < c.control) (htx : c'.tx = c.tx) (hack : c'.ackPending = c.ackPending)
      (hsame : SameSession c c') : SendCase win buflen c (c', some (pkt, c.peer))
  | data (h0 : c.control = 0) (h : c.state = .connected)
      (hwork : ¬ (c.txUnsent = c.txNext ∧ c.txu = [] ∧ c.ackPending = false)) :
      SendCase win buflen c ((sendData win (min buflen mcMtu) c).1,
        some ((sendData win (min buflen mcMtu) c).2, c.peer))

theorem mcSendNext_does (win : Nat) (c : Mc) (h : mcHdr ≤ buflen) :
    SendCase win buflen c (mcSendNext win c buflen) := by
  unfold mcSendNext
  rw [if_neg (by omega)]
  split
  · rename_i hs
    exact .control _ _ (by rw [byte_header]; decide) (by rw [length_header]; simp)
      (by simp [Mc.control, hs]) rfl rfl ⟨rfl, rfl, rfl, rfl⟩
  split
  · rename_i hs
    have htype : byte (header c.remoteId 3 0) 4 = 3 := byte_header c.remoteId 3 0 []
    exact .control _ _ (by rw [htype]; decide) (by simp [header])
      (by simp [Mc.control, hs]) rfl rfl ⟨rfl, rfl, rfl, rfl⟩
  split
  · rename_i hs
    exact .control _ _ (by rw [byte_header]; decide) (by rw [length_header]; simp)
      (by simp [Mc.control, hs]) rfl rfl ⟨rfl, rfl, rfl, rfl⟩
  rename_i h1 h2 h3
  have h0 : c.control = 0 := by simp [Mc.control, h1, h2, h3]
  split
  · rename_i hc
    exact .quiet h0 fun he => absurd he hc
  rename_i hc
  split
  · rename_i hq
    exact .quiet h0 fun _ => ⟨hq.1, hq.2.1, by simpa using hq.2.2⟩
  · rename_i hq
    exact .data h0 (Decidable.not_not.1 hc) fun hw => hq ⟨hw.1, hw.2.1, by simpa using hw.2.2⟩

/-! ## All packets -/

/-- The records the peer finds in the DATA packets among `pkts`. -/
def allSeen (pkts : List (List UInt8 × Addr)) : List Rec :=
  (pkts.filter isData).flatMap fun p => seenRecords p.1

def isRel (r : Rec) : Bool := r.mt = mtRel

/-- A connection whose unsent messages and datagrams are of a size `mc_write` takes. -/
structure Ready (win : Nat) (c : Mc) (L B U : Nat) : Prop where
  flight : Flight win c.tx L B U
  slots : ∀ j < L - U, (c.txw ((UInt16.ofNat (U + j)).toNat % win)).data.length ≤ mcMaxmsg
  ring : ∀ m ∈ c.txu, m.2.length ≤ mcMaxmsg

/-- **What a drain is to send.** -/
structure DrainOk (win : Nat) (c : Mc) (L U : Nat) (pkts : List (List UInt8 × Addr)) : Prop where
  size : ∀ p ∈ pkts, p.1.length ≤ mcMtu
  /-- A DATA packet is made of the records its receiver finds. -/
  data : ∀ p ∈ pkts, isData p = true →
    p.1 = header c.remoteId 4 c.rxNext ++ encodeRecs (seenRecords p.1)
  reliable : c.state = .connected →
    (allSeen pkts).filter isRel = slotRecs win c.txw U (L - U)
  unreliable : c.state = .connected →
    (allSeen pkts).filter (fun r => !isRel r) = c.txu.map unrelRec
  idle : c.state ≠ .connected → pkts.filter isData = []

/-- What is left to send. -/
def toSend (c : Mc) (L U : Nat) : Nat :=
  c.control + (L - U) + c.txu.length + c.ackPending.toNat

theorem slotRecs_add (win : Nat) (txw : Nat → TxSlot) (U k n : Nat) :
    slotRecs win txw U (k + n) = slotRecs win txw U k ++ slotRecs win txw (U + k) n := by
  simp only [slotRecs, List.range_add, List.map_append, List.map_map, Nat.add_assoc]
  rfl

theorem filter_slotRecs (win : Nat) (txw : Nat → TxSlot) (U k : Nat) :
    (slotRecs win txw U k).filter isRel = slotRecs win txw U k ∧
      (slotRecs win txw U k).filter (fun r => !isRel r) = [] := by
  have hrel : ∀ r ∈ slotRecs win txw U k, isRel r = true := by
    intro r hr
    obtain ⟨j, -, rfl⟩ := List.mem_map.1 hr
    rfl
  exact ⟨List.filter_eq_self.2 hrel, List.filter_eq_nil_iff.2 fun r hr => by simp [hrel r hr]⟩

theorem filter_unrelRecs (l : List (UInt8 × List UInt8)) :
    (l.map unrelRec).filter isRel = [] ∧
      (l.map unrelRec).filter (fun r => !isRel r) = l.map unrelRec := by
  have hrel : ∀ r ∈ l.map unrelRec, isRel r = false := by
    intro r hr
    obtain ⟨m, -, rfl⟩ := List.mem_map.1 hr
    rfl
  exact ⟨List.filter_eq_nil_iff.2 fun r hr => by simp [hrel r hr],
    List.filter_eq_self.2 fun r hr => by simp [hrel r hr]⟩

/-- **A control packet** leaves everything else to send. -/
theorem DrainOk.control {c' : Mc} {pkt : List UInt8} {a : Addr} {ps : List (List UInt8 × Addr)}
    (h : DrainOk win c' L U ps) (hdata : byte pkt 4 ≠ 4) (hlen : pkt.length ≤ 12)
    (htx : c'.tx = c.tx) (hs : SameSession c c') : DrainOk win c L U ((pkt, a) :: ps) := by
  have hno : isData (pkt, a) = false := by simpa [isData] using hdata
  have hskip : ((pkt, a) :: ps).filter isData = ps.filter isData :=
    List.filter_cons_of_neg (by simp [hno])
  have hall : allSeen ((pkt, a) :: ps) = allSeen ps := by
    rw [allSeen, allSeen, hskip]
  have htxu : c'.txu = c.txu := congrArg Tx.txu htx
  refine ⟨fun p hp => ?_, fun p hp hd => ?_, fun hc => ?_, fun hc => ?_, fun hc => ?_⟩
  · rcases List.mem_cons.1 hp with rfl | hp
    · exact hlen.trans (by decide)
    · exact h.size p hp
  · rcases List.mem_cons.1 hp with rfl | hp
    · exact absurd (hno.symm.trans hd) (by decide)
    · rw [← hs.remoteId, ← hs.rxNext]
      exact h.data p hp hd
  · rw [hall, h.reliable (hs.state.trans hc), hs.txw]
  · rw [hall, h.unreliable (hs.state.trans hc), htxu]
  · rw [hskip]
    exact h.idle (by rwa [hs.state])

/-- **A DATA packet** carries the next of the records. -/
theorem DrainOk.packet {c' : Mc} {k : Nat} {l : List (UInt8 × List UInt8)} {a : Addr}
    {ps : List (List UInt8 × Addr)} (h : DrainOk win c' L (U + k) ps) (hc : c.state = .connected)
    (hs : SameSession c c') (hk : U + k ≤ L) (hl : c.txu = l ++ c'.txu)
    (hshort : ∀ r ∈ slotRecs win c.txw U k ++ l.map unrelRec, r.data.length < 2 ^ 16)
    {pkt : List UInt8} (hsize : pkt.length ≤ mcMtu) (hpkt : pkt =
      header c.remoteId 4 c.rxNext ++ encodeRecs (slotRecs win c.txw U k ++ l.map unrelRec)) :
    DrainOk win c L U ((pkt, a) :: ps) := by
  have hseen : seenRecords pkt = slotRecs win c.txw U k ++ l.map unrelRec := by
    rw [hpkt, seenRecords, drop_header, length_header]
    exact recordsOf_encode _ _ hshort (by simp only [mcHdr]; omega)
  have hyes : isData (pkt, a) = true := by
    have hb : byte pkt 4 = 4 := by rw [hpkt, byte_header]
    simp [isData, hb]
  have hall : allSeen ((pkt, a) :: ps) =
      slotRecs win c.txw U k ++ l.map unrelRec ++ allSeen ps := by
    rw [allSeen, List.filter_cons_of_pos hyes, List.flatMap_cons, hseen, allSeen]
  have hc' : c'.state = .connected := hs.state.trans hc
  have hadd : L - U = k + (L - (U + k)) := by omega
  refine ⟨fun p hp => ?_, fun p hp hd => ?_, fun _ => ?_, fun _ => ?_, fun hn => absurd hc hn⟩
  · rcases List.mem_cons.1 hp with rfl | hp
    · exact hsize
    · exact h.size p hp
  · rcases List.mem_cons.1 hp with rfl | hp
    · rw [hseen]
      exact hpkt
    · rw [← hs.remoteId, ← hs.rxNext]
      exact h.data p hp hd
  · rw [hall, List.filter_append, List.filter_append, (filter_slotRecs ..).1,
      (filter_unrelRecs l).1, h.reliable hc', hs.txw, hadd, slotRecs_add, List.append_nil]
  · rw [hall, List.filter_append, List.filter_append, (filter_slotRecs ..).2,
      (filter_unrelRecs l).2, h.unreliable hc', hl, List.map_append, List.nil_append]

theorem Ready.short (h : Ready win c L B U) {k : Nat} (hk : U + k ≤ L)
    {l : List (UInt8 × List UInt8)} (hl : ∀ m ∈ l, m ∈ c.txu) :
    ∀ r ∈ slotRecs win c.txw U k ++ l.map unrelRec, r.data.length < 2 ^ 16 := by
  have hmax : mcMaxmsg < 2 ^ 16 := by decide
  intro r hr
  rcases List.mem_append.1 hr with hr | hr
  · obtain ⟨j, hj, rfl⟩ := List.mem_map.1 hr
    have hj' := List.mem_range.1 hj
    exact Nat.lt_of_le_of_lt (h.slots j (by omega)) hmax
  · obtain ⟨m, hm, rfl⟩ := List.mem_map.1 hr
    exact Nat.lt_of_le_of_lt (h.ring m (hl m hm)) hmax

/-- **A DATA packet makes progress**: something was left to send, and a message of full size fits. -/
theorem Ready.progress (h : Ready win c L B U) (hbuf : mcMtu ≤ buflen)
    (h0 : c.control = 0) (hwork : ¬ (c.txUnsent = c.txNext ∧ c.txu = [] ∧ c.ackPending = false))
    {k : Nat} {l txu : List (UInt8 × List UInt8)} (hk : U + k ≤ L) (hl : c.txu = l ++ txu)
    (hrel : k = 0 → U < L → min buflen mcMtu <
      mcHdr + (mcRec + (c.txw ((UInt16.ofNat U).toNat % win)).data.length))
    (hunrel : U = L → l = [] → ∀ m ∈ c.txu.head?,
      min buflen mcMtu < mcHdr + (mcRec + m.2.length)) :
    (L - (U + k)) + txu.length < toSend c L U := by
  have hnext : c.txNext = UInt16.ofNat L := h.flight.next
  have hunsent : c.txUnsent = UInt16.ofNat U := h.flight.unsent
  have hfull : mcHdr + (mcRec + mcMaxmsg) = min buflen mcMtu := by
    rw [Nat.min_eq_right hbuf]
    rfl
  have hlen := congrArg List.length hl
  rw [List.length_append] at hlen
  have hmid := h.flight.mid
  rw [toSend, h0]
  by_cases hUL : U = L
  · by_cases hring : c.txu = []
    · have hack : c.ackPending = true := by
        by_contra hno
        exact hwork ⟨by rw [hunsent, hnext, hUL], hring, by simpa using hno⟩
      rw [hack, Bool.toNat_true]
      omega
    · have hl0 : l ≠ [] := by
        intro hl0
        obtain ⟨m, rest, hm⟩ := List.exists_cons_of_ne_nil hring
        have hfit := h.ring m (by rw [hm]; exact List.mem_cons_self)
        have := hunrel hUL hl0 m (by rw [hm]; rfl)
        omega
      have hpos := List.length_pos_iff.2 hl0
      omega
  · have hk0 : k ≠ 0 := by
      intro hk0
      have hfit := h.slots 0 (by omega)
      rw [Nat.add_zero] at hfit
      have := hrel hk0 (by omega)
      omega
    omega

/-- **The drain ends**, and its packets are what there was to send. -/
theorem drain_run (hwin : win ≤ 32767) (hbuf : mcMtu ≤ buflen) (n : Nat) : ∀ (c : Mc) (U : Nat),
    Ready win c L B U → toSend c L U ≤ n →
    ∃ d pkts, mcDrain win buflen (n + 1) c = some (d, pkts) ∧ DrainOk win c L U pkts := by
  induction n using Nat.strong_induction_on with
  | _ n ih =>
  intro c U hr hn
  have hunsent : c.txUnsent = UInt16.ofNat U := hr.flight.unsent
  have hnext : c.txNext = UInt16.ofNat L := hr.flight.next
  have hlo := hr.flight.lo
  have hmid := hr.flight.mid
  have hhi := hr.flight.hi
  have hhdr : mcHdr ≤ buflen := le_trans (by decide) hbuf
  have hstep := mcSendNext_does win c hhdr
  rw [mcDrain]
  generalize mcSendNext win c buflen = r at hstep ⊢
  cases hstep with
  | quiet h0 hq =>
    refine ⟨c, [], rfl, fun p hp => (by cases hp), fun p hp => (by cases hp), fun hc => ?_,
      fun hc => ?_, fun _ => rfl⟩
    · obtain ⟨he, -, -⟩ := hq hc
      rw [hunsent, hnext] at he
      have hUL : U = L := eq_of_ofNat he (by omega) (by omega)
      rw [hUL, Nat.sub_self]
      rfl
    · rw [(hq hc).2.1]
      rfl
  | control c' pkt hdata hlen hless htx hack hsame =>
    have htxu : c'.txu = c.txu := congrArg Tx.txu htx
    have hless' : toSend c' L U < toSend c L U := by
      rw [toSend, toSend, htxu, hack]
      omega
    obtain ⟨m, rfl⟩ : ∃ m, n = m + 1 := ⟨n - 1, by omega⟩
    have hr' : Ready win c' L B U :=
      ⟨htx ▸ hr.flight, hsame.txw ▸ hr.slots, htxu ▸ hr.ring⟩
    obtain ⟨d, ps, he, hok⟩ := ih m (Nat.lt_succ_self m) c' U hr' (by omega)
    dsimp only
    rw [he]
    exact ⟨d, _, rfl, hok.control hdata hlen htx hsame⟩
  | data h0 hc hwork =>
    obtain ⟨k, l, hk, hl, htx, hpkt, hrel, hunrel⟩ :=
      sendData_eq (min buflen mcMtu) hr.flight hwin
    have hsize : (sendData win (min buflen mcMtu) c).2.length ≤ mcMtu :=
      (sendData_length win c (le_min hhdr (by decide))).trans (Nat.min_le_right ..)
    have hprog := hr.progress hbuf h0 hwork hk hl hrel hunrel
    have hshort := hr.short hk (l := l) fun m hm => by
      rw [hl]
      exact List.mem_append_left _ hm
    generalize hs : sendData win (min buflen mcMtu) c = s at *
    obtain ⟨c', pkt⟩ := s
    have hc' : c'.control = c.control ∧ c'.ackPending = false ∧ SameSession c c' := by
      have he : c' = (sendData win (min buflen mcMtu) c).1 := by rw [hs]
      rw [he]
      exact ⟨rfl, rfl, rfl, rfl, rfl, rfl⟩
    obtain ⟨hctl, hack, hsame⟩ := hc'
    have hr' : Ready win c' L B (U + k) := by
      refine ⟨?_, fun j hj => ?_, fun m hm => ?_⟩
      · rw [htx]
        exact ⟨hr.flight.base, hr.flight.next, rfl, by omega, hk, hhi⟩
      · have := hr.slots (k + j) (by omega)
        rw [hsame.txw, Nat.add_assoc]
        exact this
      · exact hr.ring m (by rw [hl]; exact List.mem_append_right _ hm)
    have hless : toSend c' L (U + k) < toSend c L U := by
      rw [toSend, hctl, h0, hack]
      simpa using hprog
    obtain ⟨m, rfl⟩ : ∃ m, n = m + 1 := ⟨n - 1, by omega⟩
    obtain ⟨d, ps, he, hok⟩ := ih m (Nat.lt_succ_self m) c' (U + k) hr' (by omega)
    dsimp only
    rw [he]
    exact ⟨d, _, rfl, hok.packet hc hsame hk hl hshort hsize hpkt⟩

end

/-! ## Reachable connections -/

section
variable {win : Nat} {a : Audit}

/-- What was accepted is of a size `mc_write` takes. -/
structure Small (a : Audit) : Prop where
  written : ∀ x ∈ a.written, x.2.length ≤ mcMaxmsg
  ring : ∀ m ∈ a.conn.txu, m.2.length ≤ mcMaxmsg

theorem sendData_txu (win cap : Nat) (c : Mc) : ∀ m ∈ (sendData win cap c).1.txu, m ∈ c.txu := by
  intro m hm
  obtain ⟨l, hl, -⟩ := sendUnrel_eq cap c.txu
    (mcHdr + (sendRel win cap c.txw c.txNext (c.txNext - c.txUnsent).toNat c.txUnsent mcHdr).2.length)
  rw [hl]
  exact List.mem_append_right _ hm

theorem processAck_txu (c : Mc) (ack : UInt16) : (processAck c ack).txu = c.txu :=
  (processAck_same c ack).2.2

theorem Small.step (h : Small a) (st : Step) : Small (a.step win st) := by
  have ht := applyIn_tx win a.conn st
  have hkeep : ∀ {t : Tx}, (st.applyIn win a.conn).tx = t → st.writes win a.conn = [] →
      (∀ m ∈ t.txu, m ∈ a.conn.txu) → Small (a.step win st) := by
    intro t he hw hsub
    refine ⟨fun x hx => ?_, fun m hm => ?_⟩
    · rw [Audit.step, hw, List.append_nil] at hx
      exact h.written x hx
    · exact h.ring m (hsub m (he ▸ hm))
  generalize he : (st.applyIn win a.conn).tx = t at ht
  cases ht with
  | same st hw => exact hkeep he hw fun m hm => hm
  | wrote i data hw hlen hroom =>
    refine ⟨fun x hx => ?_, fun m hm => ?_⟩
    · rw [Audit.step, hw] at hx
      rcases List.mem_append.1 hx with hx | hx
      · exact h.written x hx
      · rw [List.mem_singleton.1 hx]
        exact hlen
    · have htxu : (a.step win (.write i data)).conn.txu = a.conn.txu := congrArg Tx.txu he
      rw [htxu] at hm
      exact h.ring m hm
  | queued i data txu hw hlen hsuf =>
    refine ⟨fun x hx => ?_, fun m hm => ?_⟩
    · rw [Audit.step, hw, List.append_nil] at hx
      exact h.written x hx
    · have htxu : (a.step win (.write i data)).conn.txu = txu ++ [(idByte i, data)] :=
        congrArg Tx.txu he
      rw [htxu] at hm
      rcases List.mem_append.1 hm with hm | hm
      · exact h.ring m (hsuf.subset hm)
      · rw [List.mem_singleton.1 hm]
        exact hlen
  | acked pkt source ack =>
    exact hkeep he rfl fun m hm => processAck_txu a.conn ack ▸ hm
  | resent nowMs hne => exact hkeep he rfl fun m hm => hm
  | gaveUp nowMs hne => exact hkeep he rfl fun m hm => hm
  | sent buflen => exact hkeep he rfl fun m hm => sendData_txu win _ a.conn m hm

/-- A window that divides the numbers keeps every run sound. -/
theorem sound_run (h1 : 1 ≤ win) (h2 : win ≤ 32767) (hdvd : win ∣ 2 ^ 16) (isServer : Bool)
    (r : UInt32) (sts : List Step) : Sound win (audit win isServer r sts) := by
  refine run_invariant (A := fun _ _ => True) (fun a st ha _ => ha.step h1 h2 ?_)
    (sound_init isServer r) (along_true sts)
  cases st with
  | write i data => exact fun _ => .inl hdvd
  | _ => trivial

theorem small_run (win : Nat) (isServer : Bool) (r : UInt32) (sts : List Step) :
    Small (audit win isServer r sts) :=
  run_invariant (A := fun _ _ => True) (fun _ st ha _ => ha.step st)
    ⟨fun _ hx => (by cases hx), fun _ hm => (by cases hm)⟩ (along_true sts)

/-- The records of the unsent messages. -/
def unsentRecs (a : Audit) : List Rec :=
  (a.written.drop (a.written.length - (a.conn.txNext - a.conn.txUnsent).toNat)).mapIdx fun j x =>
    ⟨idByte x.1, mtRel, a.conn.txUnsent + UInt16.ofNat j, x.2⟩

/-- **The unsent slots** hold the last messages written, under the numbers from `tx_unsent` on. -/
theorem unsentRecs_eq {B U : Nat} (hwin : win ≤ 32767)
    (hf : Flight win a.conn.tx a.written.length B U) (hs : Holds win a.conn.txw a.written B) :
    slotRecs win a.conn.txw U (a.written.length - U) = unsentRecs a := by
  have hnext : a.conn.txNext = UInt16.ofNat a.written.length := hf.next
  have hunsent : a.conn.txUnsent = UInt16.ofNat U := hf.unsent
  have hlo := hf.lo
  have hmid := hf.mid
  have hhi := hf.hi
  have hidx : a.written.length - (a.conn.txNext - a.conn.txUnsent).toNat = U := by
    rw [hnext, hunsent, toNat_sub_of_le hmid (by omega)]
    omega
  rw [unsentRecs, hidx]
  refine List.ext_getElem (by simp [slotRecs]) fun j h1 h2 => ?_
  have hj : U + j < a.written.length := by
    simp [slotRecs] at h1
    omega
  have hslot := hs (U + j) _ (by omega) (List.getElem?_eq_getElem hj)
  rw [slotOf, UInt16.ofNat_add] at hslot
  simp only [slotRecs, List.getElem_map, List.getElem_range, List.getElem_mapIdx,
    List.getElem_drop, slotRec, hunsent, hslot, UInt16.ofNat_add]

theorem ready_run (win : Nat) (h1 : 1 ≤ win) (h2 : win ≤ 32767) (hdvd : win ∣ 2 ^ 16) (isServer : Bool)
    (r : UInt32) (sts : List Step) :
    ∃ B U, Ready win (audit win isServer r sts).conn (audit win isServer r sts).written.length B U ∧
      slotRecs win (audit win isServer r sts).conn.txw U
        ((audit win isServer r sts).written.length - U) = unsentRecs (audit win isServer r sts) := by
  have hsmall := small_run win isServer r sts
  obtain ⟨B, U, hf, -, hs⟩ := sound_run h1 h2 hdvd isServer r sts
  refine ⟨B, U, ⟨hf, fun j hj => ?_, hsmall.ring⟩, unsentRecs_eq h2 hf hs⟩
  have hget := List.getElem?_eq_getElem (l := (audit win isServer r sts).written) (i := U + j)
    (by omega)
  have hslot := hs (U + j) _ (by have := hf.lo; omega) hget
  rw [slotOf] at hslot
  rw [hslot]
  exact hsmall.written _ (List.getElem_mem _)

end

/-! ## The drain -/

/-- **Draining a connection** takes finitely many calls and gives packets of at most `MC_MTU` bytes.
The records that `mc_feed` finds in a DATA packet are those it was made of; for a CONNECTED
connection they are over the whole drain the unsent messages, with their channels, numbers and
bytes, and the queued datagrams, each in order. In any other state there is no DATA packet. -/
theorem packets_drain (isServer : Bool) (r : UInt32) (sts : List Step) {buflen : Nat}
    (hbuf : mcMtu ≤ buflen) :
    let a := audit mcWindow isServer r sts
    ∃ fuel d pkts, mcDrain mcWindow buflen fuel a.conn = some (d, pkts) ∧
      (∀ p ∈ pkts, p.1.length ≤ mcMtu) ∧
      (∀ p ∈ pkts, isData p = true →
        p.1 = header a.conn.remoteId 4 a.conn.rxNext ++ encodeRecs (seenRecords p.1) ∧
        ∀ peer, feedRecords (p.1.length - mcHdr) peer (p.1.drop mcHdr) =
          (seenRecords p.1).foldl deliverRec peer) ∧
      (a.conn.state = .connected →
        (allSeen pkts).filter isRel = unsentRecs a ∧
          (allSeen pkts).filter (fun r => !isRel r) = a.conn.txu.map unrelRec) ∧
      (a.conn.state ≠ .connected → pkts.filter isData = []) := by
  intro a
  obtain ⟨B, U, hready, hrecs⟩ := ready_run mcWindow (by decide) (by decide) (by decide)
    isServer r sts
  obtain ⟨d, pkts, he, hok⟩ := drain_run (by decide) hbuf _ a.conn U hready (Nat.le_refl _)
  refine ⟨_, d, pkts, he, hok.size, fun p hp hd => ⟨hok.data p hp hd, fun peer => ?_⟩,
    fun hc => ⟨?_, hok.unreliable hc⟩, hok.idle⟩
  · exact feedRecords_eq _ peer _
  · rw [hok.reliable hc]
    exact hrecs

/-- A client comes up and writes two reliable messages, one of full size, and a datagram. -/
def busySteps : List Step :=
  [.chanOpen .reliable, .chanOpen .unreliable, .connect [1], .sendNext 546,
    .feed (header 7 2 0 ++ wr32 11) (some [1]), .write 0 [1], .write 0 (List.replicate 532 2),
    .write 1 [3]]

theorem packets_drain_busy :
    mcMtu ≤ 546 ∧ (∃ fuel d pkts,
      mcDrain mcWindow 546 fuel (audit mcWindow false 7 busySteps).conn = some (d, pkts) ∧
        (allSeen pkts).filter isRel = unsentRecs (audit mcWindow false 7 busySteps)) := by
  obtain ⟨fuel, d, pkts, he, -, -, hc, -⟩ := @packets_drain false 7 busySteps 546 (by decide)
  exact ⟨by decide, fuel, d, pkts, he, (hc (by decide +kernel)).1⟩

/-- A connection that the peer closed keeps its unsent message and sends nothing. -/
theorem closed_keeps_messages :
    let a := audit mcWindow false 7 (busySteps ++ [.sendNext 546, .feed (header 7 5 0) none])
    (mcDrain mcWindow 546 1 a.conn).map (fun r => r.2) = some [] ∧ (unsentRecs a).length = 2 ∧
      a.conn.txu.length = 1 := by
  decide +kernel

end Netchan.Micro
