import Netchan.Micro.World
import Netchan.Micro.Wire

/-!
# Go-Back-N

The transmit window and the expected sequence number are 16-bit forms of counters that never wrap:
`Window` says which messages of all those written the window holds, `Took` what a packet adds to a
receiver. `Inv` joins the two ends and the datagrams between them: the receiver has passed at least
the messages the window has let go (so at most `8` fewer than were written), and a datagram's
records and acknowledgement are dated by its stamp. While datagrams are fresh, 16 bits tell these
counters apart, and the messages pushed on a reliable channel are a prefix of those written
(`pushed_prefix`).
-/

namespace Netchan.Micro

open Lib

abbrev Written := List (ChanId × List UInt8)

/-! ## The transmit window -/

/-- The window of `c` holds the messages of `W` from the `B`-th on, of which those from the `U`-th
on are not yet on the wire. -/
structure Window (c : Mc) (W : Written) (B U : Nat) : Prop where
  base : c.txBase = UInt16.ofNat B
  next : c.txNext = UInt16.ofNat W.length
  unsent : c.txUnsent = UInt16.ofNat U
  lo : B ≤ U
  mid : U ≤ W.length
  hi : W.length ≤ B + 8
  slots : ∀ m x, B ≤ m → W[m]? = some x → c.txw (m % 8) = ⟨UInt16.ofNat m, idByte x.1, x.2⟩

theorem ofNat_mod (m : Nat) : (UInt16.ofNat m).toNat % 8 = m % 8 := by
  rw [UInt16.toNat_ofNat']
  omega

/-- The unsigned 16-bit difference of two counters less than `2 ^ 16` apart. -/
theorem toNat_sub_of_le {m n : Nat} (h1 : n ≤ m) (h2 : m < n + 2 ^ 16) :
    (UInt16.ofNat m - UInt16.ofNat n).toNat = m - n := by
  rw [toNat_ofNat_sub]
  omega

theorem seqAfter_ofNat {m n : Nat} (h1 : m < n + 2 ^ 15) (h2 : n ≤ m + 2 ^ 15) :
    seqAfter (UInt16.ofNat m) (UInt16.ofNat n) = decide (n < m) := by
  rw [seqAfter, int16_sub h1 h2]
  exact decide_eq_decide.2 (by omega)

namespace Window

variable {c c' : Mc} {W : Written} {B U : Nat}

theorem congr (h : Window c W B U) (h1 : c'.txBase = c.txBase) (h2 : c'.txNext = c.txNext)
    (h3 : c'.txUnsent = c.txUnsent) (h4 : c'.txw = c.txw) : Window c' W B U :=
  ⟨h1 ▸ h.base, h2 ▸ h.next, h3 ▸ h.unsent, h.lo, h.mid, h.hi, h4 ▸ h.slots⟩

/-- The window is sent again. -/
theorem rewind (h : Window c W B U) (h1 : c'.txBase = c.txBase) (h2 : c'.txNext = c.txNext)
    (h3 : c'.txUnsent = c.txBase) (h4 : c'.txw = c.txw) : Window c' W B B :=
  ⟨h1 ▸ h.base, h2 ▸ h.next, h3 ▸ h.base, Nat.le_refl _, h.lo.trans h.mid, h.hi, h4 ▸ h.slots⟩

/-- **A message takes the slot at `tx_next`**, which holds none of the window. -/
theorem write (h : Window c W B U) (hroom : (c.txNext - c.txBase).toNat < 8) (i : ChanId)
    (data : List UInt8) :
    Window { c with txw := Function.update c.txw (c.txNext.toNat % 8) ⟨c.txNext, idByte i, data⟩
                    txNext := c.txNext + 1 } (W ++ [(i, data)]) B U := by
  obtain ⟨hb, hn, hu, hlo, hmid, hhi, hs⟩ := h
  rw [hn, hb, toNat_sub_of_le (hlo.trans hmid) (by omega)] at hroom
  refine ⟨hb, ?_, hu, hlo, by simp; omega, by simp; omega, fun m x hm hx => ?_⟩
  · show c.txNext + 1 = _
    rw [hn, ofNat_succ, List.length_append, List.length_singleton]
  · show Function.update c.txw (c.txNext.toNat % 8) ⟨c.txNext, idByte i, data⟩ (m % 8) = _
    rw [hn, ofNat_mod]
    by_cases hm' : m < W.length
    · rw [List.getElem?_append_left hm'] at hx
      rw [Function.update_of_ne (by omega)]
      exact hs m x hm hx
    · have hml : m = W.length := by
        have := (List.getElem?_eq_some_iff.1 hx).1
        simp at this
        omega
      subst hml
      rw [List.getElem?_append_right (Nat.le_refl _)] at hx
      simp only [Nat.sub_self, List.getElem?_cons_zero, Option.some.injEq] at hx
      subst hx
      rw [Function.update_self]

end Window

/-! ## Acknowledgements -/

theorem ackLoop_eq {N L : Nat} (hN : N ≤ L) (hL : L < N + 2 ^ 15) : ∀ (fuel B : Nat),
    B + fuel = L → fuel ≤ 8 →
    ackLoop (UInt16.ofNat N) (UInt16.ofNat L) fuel (UInt16.ofNat B) = UInt16.ofNat (max B N)
  | 0, B, h, _ => by
    rw [ackLoop, Nat.max_eq_left (by omega)]
  | fuel + 1, B, h, hf => by
    have hne : UInt16.ofNat B ≠ UInt16.ofNat L := fun he => by
      have := eq_of_ofNat he (by omega) (by omega)
      omega
    rw [ackLoop, seqAfter_ofNat (by omega) (by omega)]
    by_cases hB : B < N
    · rw [if_pos ⟨hne, decide_eq_true hB⟩, ofNat_succ, ackLoop_eq hN hL fuel (B + 1) (by omega) (by omega)]
      congr 1
      omega
    · rw [if_neg fun h => hB (of_decide_eq_true h.2), Nat.max_eq_left (by omega)]

/-- **An acknowledgement lets go of the messages before it**, and of no other. -/
theorem processAck_window {c : Mc} {W : Written} {B U N : Nat} (h : Window c W B U)
    (hN : N ≤ W.length) (hW : W.length < N + 2 ^ 15) :
    Window (processAck c (UInt16.ofNat N)) W (max B N) (max U N) := by
  obtain ⟨hb, hn, hu, hlo, hmid, hhi, hs⟩ := h
  have hbase : ackLoop (UInt16.ofNat N) c.txNext (c.txNext - c.txBase).toNat c.txBase =
      UInt16.ofNat (max B N) := by
    rw [hn, hb, toNat_sub_of_le (hlo.trans hmid) (by omega)]
    exact ackLoop_eq hN hW _ B (by omega) (by omega)
  have hunsent : (if seqAfter (UInt16.ofNat (max B N)) c.txUnsent then UInt16.ofNat (max B N)
      else c.txUnsent) = UInt16.ofNat (max U N) := by
    rw [hu, seqAfter_ofNat (by omega) (by omega)]
    by_cases hU : U < max B N
    · rw [if_pos (decide_eq_true hU)]
      congr 1
      omega
    · rw [if_neg fun h => hU (of_decide_eq_true h)]
      congr 1
      omega
  have key : ∀ {c' : Mc}, c'.txBase = UInt16.ofNat (max B N) → c'.txNext = c.txNext →
      c'.txUnsent = UInt16.ofNat (max U N) → c'.txw = c.txw → Window c' W (max B N) (max U N) :=
    fun h1 h2 h3 h4 => ⟨h1, h2.trans hn, h3, by omega, by omega, by omega,
      fun m x hm hx => by rw [h4]; exact hs m x (by omega) hx⟩
  unfold processAck
  dsimp only
  rw [hbase, hunsent]
  split
  · exact key rfl rfl rfl rfl
  · rename_i he
    rw [ne_eq, Decidable.not_not] at he
    exact key he.symm rfl rfl rfl

theorem processAck_same (c : Mc) (ack : UInt16) :
    (processAck c ack).rxNext = c.rxNext ∧ (processAck c ack).chan = c.chan ∧
      (processAck c ack).txu = c.txu := by
  unfold processAck
  dsimp only
  split <;> exact ⟨rfl, rfl, rfl⟩

/-! ## The records of a datagram -/

/-- What a channel carries at both ends, by its index; `none` when it is not open. -/
abbrev Kinds := ChanId → Option ChanType

/-- The kind of a channel. -/
def kind (c : Mc) (i : ChanId) : Option ChanType :=
  if (c.chan i).used then some (c.chan i).type else none

theorem kind_congr {c d : Mc} (h : d.chan = c.chan) : kind d = kind c :=
  funext fun i => by simp only [kind, h]

/-- The record of the `m`-th message. -/
def relRec (m : Nat) (x : ChanId × List UInt8) : Rec := ⟨idByte x.1, mtRel, UInt16.ofNat m, x.2⟩

/-- A record a sender that has written `W` may put into a packet: one of its last messages, or a
datagram of an unreliable channel. -/
inductive RecOk (K : Kinds) (W : Written) : Rec → Prop
  | rel {m : Nat} {x : ChanId × List UInt8} (hx : W[m]? = some x) (hm : W.length ≤ m + 8)
      (hk : K x.1 = some .reliable) (hl : x.2.length ≤ mcMaxmsg) : RecOk K W (relRec m x)
  | unrel {i : ChanId} {data : List UInt8} (hk : K i = some .unreliable)
      (hl : data.length ≤ mcMaxmsg) : RecOk K W (unrelRec (idByte i, data))

theorem RecOk.short {K : Kinds} {W : Written} {r : Rec} (h : RecOk K W r) :
    r.data.length < 2 ^ 16 := by
  cases h with
  | rel hx hm hk hl =>
    simp only [relRec, mcMaxmsg, mcMtu, mcHdr, mcRec] at *
    omega
  | unrel hk hl =>
    simp only [unrelRec, mcMaxmsg, mcMtu, mcHdr, mcRec] at *
    omega

/-- The reliable messages written are on reliable channels. -/
def WrittenOk (K : Kinds) (W : Written) : Prop :=
  ∀ x ∈ W, K x.1 = some .reliable ∧ x.2.length ≤ mcMaxmsg

/-- The queued unreliable datagrams are on unreliable channels. -/
def TxuOk (K : Kinds) (txu : List (UInt8 × List UInt8)) : Prop :=
  ∀ m ∈ txu, ∃ i, m.1 = idByte i ∧ K i = some .unreliable ∧ m.2.length ≤ mcMaxmsg

section
variable {K : Kinds} {c : Mc} {W : Written} {B U : Nat}

/-- The reliable records of a packet are messages of the window. -/
theorem sendRel_records (cap : Nat) (h : Window c W B U) (hW : WrittenOk K W) :
    ∀ (fuel V pos : Nat), V + fuel = W.length → B ≤ V →
    ∃ V' rs, sendRel 8 cap c.txw c.txNext fuel (UInt16.ofNat V) pos =
        (UInt16.ofNat V', encodeRecs rs) ∧ V ≤ V' ∧ V' ≤ W.length ∧ ∀ r ∈ rs, RecOk K W r
  | 0, V, pos, hV, _ => ⟨V, [], rfl, Nat.le_refl _, by omega, by simp⟩
  | fuel + 1, V, pos, hV, hB => by
    have hx : W[V]? = some (W.get ⟨V, by omega⟩) := List.getElem?_eq_getElem (by omega)
    have hs := h.slots V _ hB hx
    have hhi := h.hi
    unfold sendRel
    dsimp only
    rw [ofNat_mod, hs]
    split
    · exact ⟨V, [], rfl, Nat.le_refl _, by omega, by simp⟩
    · obtain ⟨V', rs, he, h1, h2, h3⟩ := sendRel_records cap h hW fuel (V + 1)
        (pos + (mcRec + (W.get ⟨V, by omega⟩).2.length)) (by omega) (by omega)
      rw [ofNat_succ, he]
      refine ⟨V', relRec V (W.get ⟨V, by omega⟩) :: rs, rfl, by omega, h2, fun r hr => ?_⟩
      rcases List.mem_cons.1 hr with rfl | hr
      · obtain ⟨hk, hl⟩ := hW _ (List.mem_of_getElem? hx)
        exact .rel hx (by omega) hk hl
      · exact h3 r hr

/-- **A DATA packet** acknowledges what its sender expects, carries messages of the window and
queued datagrams, and leaves the window where it is. -/
theorem sendData_records (cap : Nat) (h : Window c W B U) (hW : WrittenOk K W)
    (hu : TxuOk K c.txu) :
    ∃ V rs, (sendData 8 cap c).2 = header c.remoteId 4 c.rxNext ++ encodeRecs rs ∧
      (∀ r ∈ rs, RecOk K W r) ∧ Window (sendData 8 cap c).1 W B V ∧
      TxuOk K (sendData 8 cap c).1.txu ∧ (sendData 8 cap c).1.rxNext = c.rxNext ∧
      (sendData 8 cap c).1.chan = c.chan := by
  have hlo := h.lo
  have hmid := h.mid
  have hhi := h.hi
  obtain ⟨V, rs, he, h1, h2, h3⟩ := sendRel_records cap h hW (W.length - U) U mcHdr (by omega) hlo
  rw [← h.unsent, ← toNat_sub_of_le hmid (by omega), ← h.next, ← h.unsent] at he
  obtain ⟨l, h4, h5⟩ := sendUnrel_eq cap c.txu (mcHdr + (encodeRecs rs).length)
  unfold sendData
  rw [he]
  dsimp only
  rw [h5]
  refine ⟨V, rs ++ l.map unrelRec, ?_, fun r hr => ?_, ?_, fun m hm => ?_, rfl, rfl⟩
  · rw [encodeRecs_append, List.append_assoc]
  · rcases List.mem_append.1 hr with hr | hr
    · exact h3 r hr
    · obtain ⟨m, hm, rfl⟩ := List.mem_map.1 hr
      obtain ⟨i, h1, hk, hl⟩ := hu m (by rw [h4]; exact List.mem_append_left _ hm)
      have : m = (idByte i, m.2) := by rw [← h1]
      rw [this]
      exact .unrel hk hl
  · exact ⟨h.base, h.next, rfl, by omega, h2, hhi, h.slots⟩
  · exact hu m (by rw [h4]; exact List.mem_append_right _ hm)

end

/-! ## Receiving -/

/-- A receiver went from `c`, having passed `N` messages of `W`, to `c'`, having passed `N'`: the
rings grew, those of reliable channels by the messages in between. -/
structure Took (K : Kinds) (W : Written) (c : Mc) (N : Nat) (c' : Mc) (N' : Nat) : Prop where
  le : N ≤ N'
  bound : N' ≤ W.length
  next : c'.rxNext = UInt16.ofNat N'
  kinds : kind c' = kind c
  rings : ∀ i, ∃ l, (c'.chan i).rxq = (c.chan i).rxq ++ l ∧
    (K i = some .reliable → l = messages ((W.take N').drop N) i)

/-- The fields of the transmit side are the same. -/
structure SameTx (c c' : Mc) : Prop where
  txBase : c'.txBase = c.txBase
  txNext : c'.txNext = c.txNext
  txUnsent : c'.txUnsent = c.txUnsent
  txw : c'.txw = c.txw
  txu : c'.txu = c.txu

namespace SameTx

theorem refl (c : Mc) : SameTx c c := ⟨rfl, rfl, rfl, rfl, rfl⟩

theorem trans {c c' c'' : Mc} (h1 : SameTx c c') (h2 : SameTx c' c'') : SameTx c c'' :=
  ⟨h2.txBase.trans h1.txBase, h2.txNext.trans h1.txNext, h2.txUnsent.trans h1.txUnsent,
    h2.txw.trans h1.txw, h2.txu.trans h1.txu⟩

theorem window {c c' : Mc} {W : Written} {B U : Nat} (h : SameTx c c') (hw : Window c W B U) :
    Window c' W B U :=
  hw.congr h.txBase h.txNext h.txUnsent h.txw

end SameTx

@[simp] theorem messages_nil (i : ChanId) : messages [] i = [] := rfl

theorem messages_append (W W' : Written) (i : ChanId) :
    messages (W ++ W') i = messages W i ++ messages W' i := by
  simp [messages]

theorem messages_single (x : ChanId × List UInt8) (i : ChanId) :
    messages [x] i = if x.1 = i then [x.2] else [] := by
  by_cases h : x.1 = i <;> simp [messages, h]

theorem drop_take_succ {W : Written} {N M : Nat} {x : ChanId × List UInt8} (h : N ≤ M)
    (hx : W[M]? = some x) : (W.take (M + 1)).drop N = (W.take M).drop N ++ [x] := by
  have hlt := (List.getElem?_eq_some_iff.1 hx).1
  rw [List.take_add_one, hx, Option.toList_some, List.drop_append_of_le_length]
  rw [List.length_take]
  omega

theorem kind_pushData (c : Mc) (i : ChanId) (data : List UInt8) : kind (pushData c i data) = kind c := by
  funext j
  simp only [kind, pushData, evPush_eq]
  by_cases h : j = i
  · subst h
    rw [Function.update_self]
    unfold rxqPush
    split <;> rfl
  · rw [Function.update_of_ne h]

theorem rxq_pushData (c : Mc) (i : ChanId) (data : List UInt8) (j : ChanId) :
    ((pushData c i data).chan j).rxq = (c.chan j).rxq ++
      if j = i ∧ rxqFull (c.chan i) = false then [data.take mcMaxmsg] else [] := by
  simp only [pushData, evPush_eq]
  by_cases h : j = i
  · subst h
    rw [Function.update_self]
    unfold rxqPush rxqFull
    by_cases hf : (c.chan j).rxq.length ≥ mcRecvq <;> simp [hf]
  · rw [Function.update_of_ne h]
    simp [h]

theorem chanById_idByte {c : Mc} {i : ChanId} (h : (kind c i).isSome) :
    chanById c (idByte i) = some i := by
  have hu : (c.chan i).used = true := by
    by_contra hn
    simp [kind, hn] at h
  have hi : (idByte i).toNat = i.val := by
    have := i.isLt
    simp only [idByte, UInt8.toNat_ofNat', mcMaxChan] at *
    omega
  unfold chanById
  simp only [hi, i.isLt, ↓reduceDIte, Fin.eta, hu, ↓reduceIte]

section
variable {K : Kinds} {W : Written} {c c' : Mc} {N N' : Nat}

theorem Took.refl (hN : N ≤ W.length) (hn : c.rxNext = UInt16.ofNat N) : Took K W c N c N :=
  ⟨Nat.le_refl _, hN, hn, rfl, fun i => ⟨[], by simp, fun _ => by simp⟩⟩

/-- A step that touches neither the rings nor `rx_next`. -/
theorem Took.skip (h : Took K W c N c' N') {d : Mc} (h1 : d.rxNext = c'.rxNext)
    (h2 : d.chan = c'.chan) : Took K W c N d N' :=
  ⟨h.le, h.bound, h1.trans h.next, (kind_congr h2).trans h.kinds,
    fun i => by rw [h2]; exact h.rings i⟩

theorem Took.unrel (h : Took K W c N c' N') {i : ChanId} (hk : K i = some .unreliable)
    (data : List UInt8) : Took K W c N (pushData c' i data) N' := by
  refine ⟨h.le, h.bound, ?_, (kind_pushData ..).trans h.kinds, fun j => ?_⟩
  · rw [pushData, evPush_eq]
    exact h.next
  · obtain ⟨l, h1, h2⟩ := h.rings j
    refine ⟨_, by rw [rxq_pushData, h1, List.append_assoc], fun hj => ?_⟩
    have hji : j ≠ i := fun he => by rw [he, hk] at hj; cases hj
    rw [if_neg fun hh => hji hh.1, List.append_nil]
    exact h2 hj

/-- **The expected message** goes to the ring of its channel and is passed. -/
theorem Took.next_message (h : Took K W c N c' N') {x : ChanId × List UInt8}
    (hx : W[N']? = some x) (hl : x.2.length ≤ mcMaxmsg) (hf : rxqFull (c'.chan x.1) = false) {d : Mc}
    (hn : d.rxNext = (pushData c' x.1 x.2).rxNext + 1) (hc : d.chan = (pushData c' x.1 x.2).chan) :
    Took K W c N d (N' + 1) := by
  have hlt := (List.getElem?_eq_some_iff.1 hx).1
  refine ⟨by have := h.le; omega, hlt, ?_, ?_, fun j => ?_⟩
  · rw [hn, pushData, evPush_eq]
    show c'.rxNext + 1 = _
    rw [h.next, ofNat_succ]
  · exact (kind_congr hc).trans ((kind_pushData c' x.1 x.2).trans h.kinds)
  · obtain ⟨l, h1, h2⟩ := h.rings j
    refine ⟨_, by rw [hc, rxq_pushData, h1, List.append_assoc], fun hj => ?_⟩
    rw [h2 hj, drop_take_succ h.le hx, messages_append, messages_single,
      List.take_of_length_le hl]
    by_cases hji : j = x.1
    · rw [if_pos ⟨hji, hf⟩, if_pos hji.symm]
    · rw [if_neg fun hh => hji hh.1, if_neg fun hh => hji hh.symm]

theorem pushData_tx (c : Mc) (i : ChanId) (data : List UInt8) : SameTx c (pushData c i data) := by
  rw [pushData, evPush_eq]
  exact ⟨rfl, rfl, rfl, rfl, rfl⟩

theorem deliver_tx (c : Mc) (chan mt : UInt8) (seq : UInt16) (data : List UInt8) :
    SameTx c (deliver c chan mt seq data) := by
  unfold deliver
  repeat' split
  · exact ⟨rfl, rfl, rfl, rfl, rfl⟩
  · exact ⟨rfl, rfl, rfl, rfl, rfl⟩
  · exact (pushData_tx ..).trans ⟨rfl, rfl, rfl, rfl, rfl⟩
  · exact ⟨rfl, rfl, rfl, rfl, rfl⟩
  · exact .refl _
  · exact pushData_tx ..

/-- **A record of a fresh packet**: its message is passed if it is the expected one and its ring has
room, and is dropped if not. -/
theorem deliverRec_took (h : Took K W c N c' N') (hK : kind c = K) (hN : W.length ≤ N + 8)
    {W₀ : Written} (hpre : W₀ <+: W) (hfresh : W.length ≤ W₀.length + 2 ^ 14) {r : Rec}
    (hr : RecOk K W₀ r) : ∃ M, Took K W c N (deliverRec c' r) M := by
  have hkind : ∀ i, kind c' i = K i := fun i => by rw [h.kinds, hK]
  cases hr with
  | rel hx hm hk hl =>
    rename_i m x
    have hlt := (List.getElem?_eq_some_iff.1 hx).1
    have hle := hpre.length_le
    have hxW : W[m]? = some x := by
      obtain ⟨l, rfl⟩ := hpre
      rw [List.getElem?_append_left hlt]
      exact hx
    have hb := h.bound
    have hN' := h.le
    rw [show deliverRec c' (relRec m x) = deliver c' (idByte x.1) mtRel (UInt16.ofNat m) x.2 from rfl,
      deliver, if_pos rfl]
    by_cases hseq : UInt16.ofNat m = c'.rxNext
    · -- the counters are near each other, so the message is the next one
      have hmN : m = N' := by
        rw [h.next] at hseq
        exact eq_of_ofNat hseq (by omega) (by omega)
      subst hmN
      rw [if_pos hseq, chanById_idByte (by rw [hkind, hk]; rfl)]
      dsimp only
      split
      · exact ⟨m, h.skip rfl rfl⟩
      · rename_i hf
        exact ⟨m + 1, h.next_message hxW hl (by simpa using hf) rfl rfl⟩
    · rw [if_neg hseq]
      exact ⟨N', h.skip rfl rfl⟩
  | unrel hk hl =>
    rename_i i data
    rw [show deliverRec c' (unrelRec (idByte i, data)) = deliver c' (idByte i) mtUnrel 0 data from rfl,
      deliver, if_neg (by decide), chanById_idByte (by rw [hkind, hk]; rfl)]
    exact ⟨N', h.unrel hk data⟩

theorem deliverAll_took (hK : kind c = K) (hN : W.length ≤ N + 8) {W₀ : Written}
    (hpre : W₀ <+: W) (hfresh : W.length ≤ W₀.length + 2 ^ 14) : ∀ {rs : List Rec} {c' : Mc} {N' : Nat},
    (∀ r ∈ rs, RecOk K W₀ r) → Took K W c N c' N' →
    ∃ M, Took K W c N (rs.foldl deliverRec c') M ∧ SameTx c' (rs.foldl deliverRec c')
  | [], _, N', _, h => ⟨N', h, .refl _⟩
  | r :: rs, c', N', hr, h => by
    obtain ⟨M, hM⟩ := deliverRec_took h hK hN hpre hfresh (hr r (.head _))
    obtain ⟨M', hM', ht⟩ := deliverAll_took hK hN hpre hfresh (fun x hx => hr x (.tail _ hx)) hM
    exact ⟨M', hM', (deliver_tx ..).trans ht⟩

end

/-! ## What a call can do -/

/-- The window, the rings and `rx_next` are the same. -/
structure SameFlow (c c' : Mc) : Prop extends SameTx c c' where
  chan : c'.chan = c.chan
  rxNext : c'.rxNext = c.rxNext

namespace SameFlow

theorem refl (c : Mc) : SameFlow c c := ⟨.refl c, rfl, rfl⟩

theorem trans {c c' c'' : Mc} (h1 : SameFlow c c') (h2 : SameFlow c' c'') : SameFlow c c'' :=
  ⟨h1.toSameTx.trans h2.toSameTx, h2.chan.trans h1.chan, h2.rxNext.trans h1.rxNext⟩

end SameFlow

section
variable (c : Mc) (pkt : List UInt8) (source : Option Addr)

theorem feedSyn_same : SameFlow c (feedSyn c pkt source).2 := by
  unfold feedSyn
  dsimp only
  repeat' split
  all_goals exact ⟨⟨rfl, rfl, rfl, rfl, rfl⟩, rfl, rfl⟩

theorem feedSynack_same : SameFlow c (feedSynack c pkt source).2 := by
  unfold feedSynack
  split
  · exact .refl c
  split
  · exact .refl c
  dsimp only
  split
  · rw [evPush_eq]
    exact ⟨⟨rfl, rfl, rfl, rfl, rfl⟩, rfl, rfl⟩
  · exact ⟨⟨rfl, rfl, rfl, rfl, rfl⟩, rfl, rfl⟩

theorem feedAck_same : SameFlow c (feedAck c pkt).2 := by
  unfold feedAck
  split
  · exact .refl c
  split
  · rw [evPush_eq]
    exact ⟨⟨rfl, rfl, rfl, rfl, rfl⟩, rfl, rfl⟩
  · exact .refl c

theorem feedFin_same : SameFlow c (feedFin c pkt).2 := by
  unfold feedFin
  split
  · exact .refl c
  split
  · rw [evPush_eq]
    exact ⟨⟨rfl, rfl, rfl, rfl, rfl⟩, rfl, rfl⟩
  · exact .refl c

theorem dataUp_same : SameFlow c (dataUp c) := by
  unfold dataUp
  split
  · rw [evPush_eq]
    exact ⟨⟨rfl, rfl, rfl, rfl, rfl⟩, rfl, rfl⟩
  · exact .refl c

/-- **What a datagram can do**: only an accepted DATA packet touches the window or the rings. -/
theorem mcFeed_cases : SameFlow c (mcFeed c pkt source).2 ∨
    (8 ≤ pkt.length ∧ byte pkt 4 = 4 ∧ ∃ d, SameFlow c d ∧ (mcFeed c pkt source).2 =
      feedRecords (pkt.length - mcHdr) (processAck d (rd16 pkt 6)) (pkt.drop mcHdr)) := by
  have hc : SameFlow c { c with lastRecv := c.now } := ⟨⟨rfl, rfl, rfl, rfl, rfl⟩, rfl, rfl⟩
  unfold mcFeed
  split
  · exact .inl (.refl c)
  rename_i hlen
  dsimp only
  generalize { c with lastRecv := c.now } = d at hc
  split
  · exact .inl (hc.trans (feedSyn_same d pkt source))
  · exact .inl (hc.trans (feedSynack_same d pkt source))
  · exact .inl (hc.trans (feedAck_same d pkt))
  · rename_i h4
    have hup := hc.trans (dataUp_same d)
    unfold feedData
    split
    · exact .inl hc
    dsimp only
    split
    · exact .inl hup
    · exact .inr ⟨Nat.not_lt.1 hlen, UInt8.toNat_inj.1 h4, _, hup, rfl⟩
  · exact .inl (hc.trans (feedFin_same d pkt))
  · exact .inl hc

end

/-- **What the timers can do**: the window is sent again, or stays. -/
theorem mcService_window {c : Mc} {W : Written} {B U : Nat} (h : Window c W B U) (now : UInt32) :
    (∃ V, Window (mcService c now).2 W B V) ∧ (mcService c now).2.txu = c.txu ∧
      (mcService c now).2.chan = c.chan ∧ (mcService c now).2.rxNext = c.rxNext := by
  unfold mcService
  dsimp only
  split
  · unfold serviceConnecting
    dsimp only
    split
    · split
      · rw [evPush_eq]
        exact ⟨⟨U, h.congr rfl rfl rfl rfl⟩, rfl, rfl, rfl⟩
      · split <;> exact ⟨⟨U, h.congr rfl rfl rfl rfl⟩, rfl, rfl, rfl⟩
    · exact ⟨⟨U, h.congr rfl rfl rfl rfl⟩, rfl, rfl, rfl⟩
  split
  · unfold serviceConnected
    dsimp only
    split
    · rw [evPush_eq]
      exact ⟨⟨U, h.congr rfl rfl rfl rfl⟩, rfl, rfl, rfl⟩
    split
    · split
      · rw [evPush_eq]
        exact ⟨⟨U, h.congr rfl rfl rfl rfl⟩, rfl, rfl, rfl⟩
      · split <;> exact ⟨⟨B, h.rewind rfl rfl rfl rfl⟩, rfl, rfl, rfl⟩
    · split <;> exact ⟨⟨U, h.congr rfl rfl rfl rfl⟩, rfl, rfl, rfl⟩
  · exact ⟨⟨U, h.congr rfl rfl rfl rfl⟩, rfl, rfl, rfl⟩

/-! ## The invariant -/

/-- A datagram on its way to end `t`: its stamp is part of the log, at its stamp the peer had passed
all but the last `8` messages, and a DATA packet holds what its sender had to say then. -/
structure PacketOk (K : Kinds) (l : Log) (t : Side) (p : Packet) : Prop where
  written : ∀ u, p.stamp.written u <+: l.written u
  passed : ∀ u, p.stamp.passed u ≤ l.passed u
  near : ∀ u : Side, (p.stamp.written u).length ≤ p.stamp.passed u.other + 8
  data : byte p.bytes 4 = 4 → ∃ id rs,
    p.bytes = header id 4 (UInt16.ofNat (p.stamp.passed t.other)) ++ encodeRecs rs ∧
      ∀ r ∈ rs, RecOk K (p.stamp.written t.other) r

theorem PacketOk.mono {K : Kinds} {l l' : Log} {t : Side} {p : Packet} (h : PacketOk K l t p)
    (hw : ∀ u, l.written u <+: l'.written u) (hp : ∀ u, l.passed u ≤ l'.passed u) :
    PacketOk K l' t p :=
  ⟨fun u => (h.written u).trans (hw u), fun u => (h.passed u).trans (hp u), h.near, h.data⟩

/-- **The two ends and the datagrams between them.** -/
structure Inv (K : Kinds) (w : World) : Prop where
  kinds : ∀ s, kind (w.conn s) = K
  txu : ∀ s, TxuOk K (w.conn s).txu
  written : ∀ s, WrittenOk K (w.log.written s)
  window : ∀ s, ∃ B U, Window (w.conn s) (w.log.written s) B U ∧ B ≤ w.log.passed s.other
  next : ∀ s, (w.conn s).rxNext = UInt16.ofNat (w.log.passed s)
  bound : ∀ s, w.log.passed s ≤ (w.log.written s.other).length
  pushed : ∀ s i, K i = some .reliable →
    w.log.pushed s i = messages ((w.log.written s.other).take (w.log.passed s)) i
  net : ∀ s, ∀ p ∈ w.net s, PacketOk K w.log s p

section
variable {K : Kinds} {w : World} {s : Side}

/-- A receiver has passed all but the last `8` messages. -/
theorem Inv.near (h : Inv K w) (s : Side) : (w.log.written s).length ≤ w.log.passed s.other + 8 := by
  obtain ⟨B, U, hw, hB⟩ := h.window s
  have := hw.hi
  omega

theorem update_conn {P : Side → Mc → Prop} {conn : Side → Mc} {c' : Mc} (h : ∀ t, P t (conn t))
    (hc : P s c') (t : Side) : P t (Function.update conn s c' t) := by
  by_cases ht : t = s
  · subst ht
    rwa [Function.update_self]
  · rw [Function.update_of_ne ht]
    exact h t

/-- End `s` changes, and neither its rings' log nor the messages written. -/
theorem Inv.conn (h : Inv K w) {c' : Mc} (hk : kind c' = K) (hu : TxuOk K c'.txu)
    (hw : ∃ B U, Window c' (w.log.written s) B U ∧ B ≤ w.log.passed s.other)
    (hn : c'.rxNext = (w.conn s).rxNext) :
    Inv K { w with conn := Function.update w.conn s c' } where
  kinds := update_conn (P := fun _ c => kind c = K) h.kinds hk
  txu := update_conn (P := fun _ c => TxuOk K c.txu) h.txu hu
  written := h.written
  window := update_conn (P := fun t c => ∃ B U, Window c (w.log.written t) B U ∧
    B ≤ w.log.passed t.other) h.window hw
  next := update_conn (P := fun t c => c.rxNext = UInt16.ofNat (w.log.passed t)) h.next
    (hn.trans (h.next s))
  bound := h.bound
  pushed := h.pushed
  net := h.net

theorem Inv.setNet (h : Inv K w) {q : List Packet} (hp : ∀ p ∈ q, PacketOk K w.log s p) :
    Inv K { w with net := Function.update w.net s q } where
  kinds := h.kinds
  txu := h.txu
  written := h.written
  window := h.window
  next := h.next
  bound := h.bound
  pushed := h.pushed
  net := fun t => by
    by_cases ht : t = s
    · subst ht
      simpa using hp
    · simpa [Function.update_of_ne ht] using h.net t

theorem Inv.same (h : Inv K w) {c' : Mc} (hf : SameFlow (w.conn s) c') :
    Inv K { w with conn := Function.update w.conn s c' } := by
  refine h.conn ((kind_congr hf.chan).trans (h.kinds s)) (by rw [hf.txu]; exact h.txu s) ?_ hf.rxNext
  obtain ⟨B, U, hw, hB⟩ := h.window s
  exact ⟨B, U, hf.toSameTx.window hw, hB⟩

/-! ## Calls -/

/-- **What `mc_write` does**: nothing, or the message takes a slot of the window, or it is queued
on the unreliable ring. -/
theorem mcWrite_cases (c : Mc) (i : ChanId) (data : List UInt8) :
    (mcWrite mcWindow c i data).2 = c ∧ writeAccepted c i data = false ∨
    ((c.chan i).used = true ∧ data.length ≤ mcMaxmsg) ∧
      ((c.chan i).type = .reliable ∧ writeAccepted c i data = true ∧
          (c.txNext - c.txBase).toNat < 8 ∧ (mcWrite mcWindow c i data).2 = { c with
            txw := Function.update c.txw (c.txNext.toNat % 8) ⟨c.txNext, idByte i, data⟩
            txNext := c.txNext + 1 } ∨
        (c.chan i).type ≠ .reliable ∧ ∃ txu, txu <:+ c.txu ∧
          (mcWrite mcWindow c i data).2 = { c with txu := txu ++ [(idByte i, data)] }) := by
  unfold writeAccepted mcWrite
  split
  · exact .inl ⟨rfl, rfl⟩
  rename_i hu
  split
  · exact .inl ⟨rfl, rfl⟩
  split
  · exact .inl ⟨rfl, rfl⟩
  rename_i hl
  split
  · rename_i ht
    split
    · exact .inl ⟨rfl, rfl⟩
    · rename_i hw
      exact .inr ⟨⟨by simpa using hu, Nat.not_lt.1 hl⟩, .inl ⟨ht, rfl, Nat.not_le.1 hw, rfl⟩⟩
  · rename_i ht
    refine .inr ⟨⟨by simpa using hu, Nat.not_lt.1 hl⟩, .inr ⟨ht, _, ?_, rfl⟩⟩
    split
    · exact List.tail_suffix _
    · exact List.suffix_rfl

theorem Inv.write (h : Inv K w) {i : ChanId} {data : List UInt8} (hk : K i = some .reliable)
    (hl : data.length ≤ mcMaxmsg) (hroom : ((w.conn s).txNext - (w.conn s).txBase).toNat < 8) :
    Inv K { w with
      conn := Function.update w.conn s { w.conn s with
        txw := Function.update (w.conn s).txw ((w.conn s).txNext.toNat % 8)
          ⟨(w.conn s).txNext, idByte i, data⟩
        txNext := (w.conn s).txNext + 1 }
      log := { w.log with
        written := Function.update w.log.written s (w.log.written s ++ [(i, data)]) } } := by
  have hgrow : ∀ u, w.log.written u <+:
      Function.update w.log.written s (w.log.written s ++ [(i, data)]) u := fun u => by
    by_cases hu : u = s
    · subst hu
      rw [Function.update_self]
      exact List.prefix_append _ _
    · rw [Function.update_of_ne hu]
  refine ⟨update_conn (P := fun _ c => kind c = K) h.kinds (h.kinds s),
    update_conn (P := fun _ c => TxuOk K c.txu) h.txu (h.txu s), fun t => ?_, fun t => ?_,
    update_conn (P := fun t c => c.rxNext = UInt16.ofNat (w.log.passed t)) h.next (h.next s),
    fun t => (h.bound t).trans (hgrow t.other).length_le, fun t j hj => ?_,
    fun t p hp => (h.net t p hp).mono hgrow fun u => Nat.le_refl _⟩
  · by_cases ht : t = s
    · subst ht
      show WrittenOk K (Function.update w.log.written t _ t)
      rw [Function.update_self]
      intro x hx
      rcases List.mem_append.1 hx with hx | hx
      · exact h.written t x hx
      · rw [List.mem_singleton.1 hx]
        exact ⟨hk, hl⟩
    · show WrittenOk K (Function.update w.log.written s _ t)
      rw [Function.update_of_ne ht]
      exact h.written t
  · obtain ⟨B, U, hw, hB⟩ := h.window t
    refine ⟨B, U, ?_, hB⟩
    by_cases ht : t = s
    · subst ht
      simp only [Function.update_self]
      exact hw.write hroom i data
    · simp only [Function.update_of_ne ht]
      exact hw
  · obtain ⟨l, hl⟩ := hgrow t.other
    show w.log.pushed t j = messages ((Function.update w.log.written s _ t.other).take _) j
    rw [← hl, List.take_append_of_le_length (h.bound t)]
    exact h.pushed t j hj

theorem kind_read (c : Mc) (i : ChanId) (buflen : Nat) : kind (mcRead c i buflen).2 = kind c := by
  unfold mcRead
  split
  · rfl
  split
  · rfl
  funext j
  simp only [kind]
  by_cases hj : j = i
  · subst hj
    rw [Function.update_self]
  · rw [Function.update_of_ne hj]

theorem Inv.call (h : Inv K w) (k : Call) : Inv K (w.step (.call s k)) := by
  obtain ⟨B, U, hwin, hB⟩ := h.window s
  cases k with
  | connect addr => exact h.same ⟨⟨rfl, rfl, rfl, rfl, rfl⟩, rfl, rfl⟩
  | service nowMs =>
    obtain ⟨⟨V, hV⟩, hu, hc, hn⟩ := mcService_window hwin nowMs
    exact h.conn ((kind_congr hc).trans (h.kinds s)) (by rw [Call.apply, hu]; exact h.txu s)
      ⟨B, V, hV, hB⟩ hn
  | write i data =>
    show Inv K { w with
      conn := Function.update w.conn s (mcWrite mcWindow (w.conn s) i data).2
      log := w.log.called s (w.conn s) (.write i data) }
    simp only [Log.called]
    rcases mcWrite_cases (w.conn s) i data with ⟨he, ha⟩ | ⟨⟨hused, hl⟩, hw⟩
    · rw [he, if_neg (by simp [ha])]
      exact h.same (.refl _)
    have hkind : K i = some ((w.conn s).chan i).type := by
      rw [← h.kinds s, kind, if_pos hused]
    rcases hw with ⟨ht, ha, hroom, he⟩ | ⟨ht, txu, hsuf, he⟩
    · rw [he, if_pos ⟨ha, ht⟩]
      exact h.write (hkind.trans (congrArg some ht)) hl hroom
    · rw [he, if_neg fun hh => ht hh.2]
      refine h.conn (h.kinds s) (fun m hm => ?_) ⟨B, U, hwin.congr rfl rfl rfl rfl, hB⟩ rfl
      rcases List.mem_append.1 hm with hm | hm
      · exact h.txu s m (hsuf.subset hm)
      · rw [List.mem_singleton.1 hm]
        refine ⟨i, rfl, hkind.trans ?_, hl⟩
        cases hty : ((w.conn s).chan i).type with
        | reliable => exact absurd hty ht
        | unreliable => rfl
  | read i buflen =>
    refine h.conn ((kind_read ..).trans (h.kinds s)) ?_ ⟨B, U, ?_, hB⟩ ?_ <;>
      simp only [Call.apply, mcRead] <;> repeat' split
    all_goals first | exact h.txu s | exact hwin.congr rfl rfl rfl rfl | rfl
  | poll =>
    refine h.same ?_
    simp only [Call.apply, mcPoll]
    split
    · exact .refl _
    · exact ⟨⟨rfl, rfl, rfl, rfl, rfl⟩, rfl, rfl⟩

/-! ## Datagrams -/

/-- **What `mc_send_next` does**: nothing, or a packet of the handshake leaves, or a DATA packet. -/
theorem mcSendNext_cases (c : Mc) (buflen : Nat) :
    (∃ c', SameFlow c c' ∧ (mcSendNext mcWindow c buflen = (c', none) ∨
      ∃ pkt a, mcSendNext mcWindow c buflen = (c', some (pkt, a)) ∧ byte pkt 4 ≠ 4)) ∨
    ∃ cap a, mcSendNext mcWindow c buflen = ((sendData 8 cap c).1, some ((sendData 8 cap c).2, a)) := by
  unfold mcSendNext
  split
  · exact .inl ⟨c, .refl c, .inl rfl⟩
  split
  · refine .inl ⟨_, ?_, .inr ⟨_, _, rfl, ?_⟩⟩
    · exact ⟨⟨rfl, rfl, rfl, rfl, rfl⟩, rfl, rfl⟩
    rw [byte_header]
    decide
  split
  · refine .inl ⟨_, ?_, .inr ⟨_, _, rfl, ?_⟩⟩
    · exact ⟨⟨rfl, rfl, rfl, rfl, rfl⟩, rfl, rfl⟩
    rw [← List.append_nil (header _ _ _), byte_header]
    decide
  split
  · refine .inl ⟨_, ?_, .inr ⟨_, _, rfl, ?_⟩⟩
    · exact ⟨⟨rfl, rfl, rfl, rfl, rfl⟩, rfl, rfl⟩
    rw [byte_header]
    decide
  split
  · exact .inl ⟨c, .refl c, .inl rfl⟩
  split
  · exact .inl ⟨c, .refl c, .inl rfl⟩
  · exact .inr ⟨min buflen mcMtu, c.peer, rfl⟩

theorem Inv.send (h : Inv K w) (buflen : Nat) : Inv K (w.step (.send s buflen)) := by
  -- a datagram stamped now, with what a DATA packet holds
  have hnew : ∀ {bytes : List UInt8}, (byte bytes 4 = 4 → ∃ id rs,
      bytes = header id 4 (UInt16.ofNat (w.log.passed s)) ++ encodeRecs rs ∧
        ∀ r ∈ rs, RecOk K (w.log.written s) r) →
      ∀ p ∈ w.net s.other ++ [⟨bytes, w.log⟩], PacketOk K w.log s.other p := by
    intro bytes hd p hp
    rcases List.mem_append.1 hp with hp | hp
    · exact h.net _ p hp
    · rw [List.mem_singleton.1 hp]
      refine ⟨fun u => List.prefix_rfl, fun u => Nat.le_refl _, h.near, ?_⟩
      rw [Side.other_other]
      exact hd
  show Inv K (w.transmit s buflen)
  unfold World.transmit
  rcases mcSendNext_cases (w.conn s) buflen with ⟨c', hf, he | ⟨pkt, a, he, h4⟩⟩ | ⟨cap, a, he⟩
  · rw [he]
    exact h.same hf
  · rw [he]
    exact (h.same hf).setNet (hnew fun hh => absurd hh h4)
  · obtain ⟨B, U, hwin, hB⟩ := h.window s
    obtain ⟨V, rs, hp, hr, hw', hu', hn', hc'⟩ :=
      sendData_records cap hwin (h.written s) (h.txu s)
    rw [he]
    refine (h.conn ((kind_congr hc').trans (h.kinds s)) hu' ⟨B, V, hw', hB⟩ hn').setNet
      (hnew fun _ => ⟨(w.conn s).remoteId, rs, ?_, hr⟩)
    rw [hp, h.next s]

theorem Inv.fed (h : Inv K w) {c' : Mc} {N' : Nat}
    (ht : Took K (w.log.written s.other) (w.conn s) (w.log.passed s) c' N')
    (hu : c'.txu = (w.conn s).txu)
    (hw : ∃ B U, Window c' (w.log.written s) B U ∧ B ≤ w.log.passed s.other) :
    Inv K { w with conn := Function.update w.conn s c', log := w.log.fed s (w.conn s) c' } := by
  have hnear := h.near s.other
  rw [Side.other_other] at hnear
  have hb := ht.bound
  have hN : w.log.passed s + (c'.rxNext - (w.conn s).rxNext).toNat = N' := by
    rw [ht.next, h.next s, toNat_sub_of_le ht.le (by omega)]
    have := ht.le
    omega
  have hgrow : ∀ u, w.log.passed u ≤ (w.log.fed s (w.conn s) c').passed u := fun u => by
    simp only [Log.fed, hN]
    by_cases hu : u = s
    · subst hu
      rw [Function.update_self]
      exact ht.le
    · rw [Function.update_of_ne hu]
  refine ⟨update_conn (P := fun _ c => kind c = K) h.kinds (ht.kinds.trans (h.kinds s)),
    update_conn (P := fun _ c => TxuOk K c.txu) h.txu (by rw [hu]; exact h.txu s), h.written,
    update_conn (P := fun t c => ∃ B U, Window c (w.log.written t) B U ∧
      B ≤ (w.log.fed s (w.conn s) c').passed t.other) (fun t => ?_) ?_, fun t => ?_, fun t => ?_,
    fun t i hi => ?_, fun t p hp => (h.net t p hp).mono (fun u => List.prefix_rfl) hgrow⟩
  · obtain ⟨B, U, hw, hB⟩ := h.window t
    exact ⟨B, U, hw, hB.trans (hgrow _)⟩
  · obtain ⟨B, U, hw, hB⟩ := hw
    exact ⟨B, U, hw, hB.trans (hgrow _)⟩
  · simp only [Log.fed, hN]
    by_cases hts : t = s
    · subst hts
      simp only [Function.update_self]
      exact ht.next
    · simp only [Function.update_of_ne hts]
      exact h.next t
  · simp only [Log.fed, hN]
    by_cases hts : t = s
    · subst hts
      rw [Function.update_self]
      exact ht.bound
    · rw [Function.update_of_ne hts]
      exact h.bound t
  · simp only [Log.fed, hN]
    by_cases hts : t = s
    · subst hts
      obtain ⟨l, hl, hm⟩ := ht.rings i
      simp only [Function.update_self]
      rw [hl, List.drop_left, hm hi, h.pushed t i hi, ← messages_append]
      have htake : (w.log.written t.other).take (w.log.passed t) =
          ((w.log.written t.other).take N').take (w.log.passed t) := by
        rw [List.take_take, Nat.min_eq_left ht.le]
      rw [htake, List.take_append_drop]
    · simp only [Function.update_of_ne hts]
      exact h.pushed t i hi

theorem fed_same (l : Log) (s : Side) {c c' : Mc} (h : SameFlow c c') : l.fed s c c' = l := by
  have h1 : ∀ i, (c'.chan i).rxq.drop (c.chan i).rxq.length = [] := fun i => by
    rw [h.chan, List.drop_length]
  have h2 : (c'.rxNext - c.rxNext).toNat = 0 := by
    rw [h.rxNext, UInt16.sub_self]
    rfl
  simp only [Log.fed, h1, h2, List.append_nil, Nat.add_zero, Function.update_eq_self]

/-- **A fresh datagram keeps the invariant.** -/
theorem Inv.receive (h : Inv K w) {p : Packet} (hp : PacketOk K w.log s p)
    (hfresh : ∀ t, (w.log.written t).length ≤ (p.stamp.written t).length + 2 ^ 14)
    (source : Option Addr) : Inv K (w.receive s p source) := by
  unfold World.receive
  dsimp only
  rcases mcFeed_cases (w.conn s) p.bytes source with hf | ⟨hlen, h4, d, hd, he⟩
  · rw [fed_same _ _ hf]
    exact h.same hf
  · obtain ⟨id, rs, hbytes, hrs⟩ := hp.data h4
    obtain ⟨B, U, hwin, hB⟩ := h.window s
    have hbound := h.bound s.other
    have hnear := h.near s.other
    rw [Side.other_other] at hbound hnear
    have hack : p.stamp.passed s.other ≤ w.log.passed s.other := hp.passed _
    have hpn := hp.near s
    have hfs := hfresh s
    -- the acknowledgement is dated by the stamp
    have hwin' := processAck_window (N := p.stamp.passed s.other) (hd.toSameTx.window hwin)
      (by omega) (by omega)
    obtain ⟨a1, a2, a3⟩ := processAck_same d (UInt16.ofNat (p.stamp.passed s.other))
    have hstart : Took K (w.log.written s.other) (w.conn s) (w.log.passed s)
        (processAck d (UInt16.ofNat (p.stamp.passed s.other))) (w.log.passed s) :=
      (Took.refl (h.bound s) (h.next s)).skip (a1.trans hd.rxNext) (a2.trans hd.chan)
    obtain ⟨M, hM, htx⟩ := deliverAll_took (h.kinds s) hnear (hp.written s.other)
      (hfresh s.other) hrs hstart
    have he' : (mcFeed (w.conn s) p.bytes source).2 =
        rs.foldl deliverRec (processAck d (UInt16.ofNat (p.stamp.passed s.other))) := by
      rw [he, hbytes, rd16_header, drop_header, length_header]
      exact feedRecords_encode rs _ _ (fun r hr => (hrs r hr).short) (by simp only [mcHdr]; omega)
    rw [he']
    exact h.fed hM (htx.txu.trans (a3.trans hd.txu)) ⟨_, _, htx.window hwin', by omega⟩

/-- **Every fresh step keeps the invariant.** -/
theorem Inv.step (h : Inv K w) {op : Op} (hfresh : Fresh w op) : Inv K (w.step op) := by
  cases op with
  | call s k => exact h.call k
  | send s buflen => exact h.send buflen
  | deliver s i source =>
    simp only [World.step]
    split
    · exact h
    · rename_i p hp
      have hmem := List.mem_of_getElem? hp
      have h' := h.setNet (s := s) (q := (w.net s).eraseIdx i)
        fun q hq => h.net s q (List.mem_of_mem_eraseIdx hq)
      exact h'.receive (h.net s p hmem) (hfresh p hp) source
  | dup s i =>
    simp only [World.step]
    split
    · exact h
    · rename_i p hp
      refine h.setNet fun q hq => ?_
      rcases List.mem_append.1 hq with hq | hq
      · exact h.net s q hq
      · rw [List.mem_singleton.1 hq]
        exact h.net s p (List.mem_of_getElem? hp)
  | drop s i => exact h.setNet fun q hq => h.net s q (List.mem_of_mem_eraseIdx hq)

end

/-! ## Whole runs -/

theorem mcChanOpen_same (c : Mc) (type : ChanType) :
    SameTx c (mcChanOpen c type).2 ∧ (mcChanOpen c type).2.rxNext = c.rxNext := by
  unfold mcChanOpen
  split
  · exact ⟨.refl c, rfl⟩
  · exact ⟨⟨rfl, rfl, rfl, rfl, rfl⟩, rfl⟩

theorem openAll_same : ∀ (layout : List ChanType) (c : Mc),
    SameTx c (openAll c layout) ∧ (openAll c layout).rxNext = c.rxNext
  | [], c => ⟨.refl c, rfl⟩
  | type :: layout, c => by
    obtain ⟨h1, h2⟩ := mcChanOpen_same c type
    obtain ⟨h3, h4⟩ := openAll_same layout (mcChanOpen c type).2
    exact ⟨h1.trans h3, h4.trans h2⟩

/-- Once all channels are in use no further one is opened. -/
theorem openAll_full : ∀ (layout : List ChanType) {c : Mc}, (∀ i, (c.chan i).used = true) →
    openAll c layout = c
  | [], _, _ => rfl
  | type :: layout, c, h => by
    have hfull : mcChanOpen c type = (none, c) := by
      unfold mcChanOpen
      rw [List.find?_eq_none.2 (by simp [h])]
    show openAll (mcChanOpen c type).2 layout = c
    rw [hfull]
    exact openAll_full layout h

/-- **Both ends carry the layout**: the channel opened `i`-th has index `i`. -/
theorem kind_openAll {c : Mc} (hc : c.chan = fun _ => {}) : ∀ (layout : List ChanType),
    kind (openAll c layout) = fun i => layout[i.val]?
  | [] => by
    funext i
    simp [kind, openAll, hc]
  | [a] => by
    have h1 : mcChanOpen c a = (some 0, { c with
        chan := Function.update c.chan 0 { used := true, type := a } }) := by
      unfold mcChanOpen
      rw [hc]
      rfl
    show kind (mcChanOpen c a).2 = _
    rw [h1]
    refine funext (Fin.forall_fin_two.2 ⟨?_, ?_⟩) <;> simp [kind, hc]
  | a :: b :: rest => by
    have h1 : openAll c [a, b] = { c with
        chan := Function.update (Function.update c.chan 0 { used := true, type := a }) 1
          { used := true, type := b } } := by
      simp only [openAll, List.foldl_cons, List.foldl_nil, mcChanOpen, hc]
      rfl
    have h2 : openAll c (a :: b :: rest) = openAll (openAll c [a, b]) rest := rfl
    rw [h2, openAll_full rest, h1]
    · refine funext (Fin.forall_fin_two.2 ⟨?_, ?_⟩) <;> simp [kind]
    · rw [h1]
      refine Fin.forall_fin_two.2 ⟨?_, ?_⟩ <;> simp

theorem Inv.init (layout : List ChanType) (rand : Side → UInt32) :
    Inv (fun i => layout[i.val]?) (.init layout rand) := by
  have hsame : ∀ s : Side, SameTx (mcOpen s.isServer (rand s)) ((World.init layout rand).conn s) ∧
      ((World.init layout rand).conn s).rxNext = 0 := fun s => openAll_same layout _
  refine ⟨fun s => kind_openAll rfl layout, fun s m hm => ?_, fun s x hx => (by cases hx),
    fun s => ⟨0, 0, ?_, Nat.zero_le _⟩, fun s => (hsame s).2, fun s => Nat.zero_le _,
    fun s i _ => rfl, fun s p hp => (by cases hp)⟩
  · rw [(hsame s).1.txu] at hm
    cases hm
  · exact (hsame s).1.window ⟨rfl, rfl, rfl, Nat.le_refl _, Nat.zero_le _, Nat.zero_le _,
      fun m x _ hx => (by cases hx)⟩

/-- **Go-Back-N delivers exactly once and in order**: while no datagram is too old, the messages
pushed on a reliable channel are at every moment a prefix of those written on it at the other
end. -/
theorem pushed_prefix {layout : List ChanType} {rand : Side → UInt32} {ops : List Op}
    (h : Along World.step Fresh (.init layout rand) ops) (s : Side) {i : ChanId}
    (hi : layout[i.val]? = some .reliable) :
    (World.run layout rand ops).log.pushed s.other i <+:
      messages ((World.run layout rand ops).log.written s) i := by
  have hinv : Inv (fun i => layout[i.val]?) (World.run layout rand ops) :=
    run_invariant (I := Inv fun i => layout[i.val]?) (A := Fresh) (fun _ _ hw hf => Inv.step hw hf)
      (Inv.init layout rand) h
  have hp := hinv.pushed s.other i hi
  rw [Side.other_other] at hp
  rw [hp]
  conv_rhs => rw [← List.take_append_drop ((World.run layout rand ops).log.passed s.other)
    ((World.run layout rand ops).log.written s), messages_append]
  exact List.prefix_append _ _

/-- A handshake, then two reliable messages and an unreliable one, duplicated on the way. -/
def duplicatedOps : List Op :=
  [.call .client (.connect [1]), .send .client 546, .deliver .server 0 (some [2]),
    .send .server 546, .deliver .client 0 (some [1]), .send .client 546,
    .deliver .server 0 (some [2]), .call .client (.write 0 [1]), .call .client (.write 1 [9]),
    .call .client (.write 0 [2]), .send .client 546, .dup .server 0, .deliver .server 1 (some [2]),
    .call .client (.write 0 [3]), .deliver .server 0 (some [2])]

theorem pushed_prefix_duplicated :
    let w := World.run [.reliable, .unreliable] (fun _ => 7) duplicatedOps
    w.log.pushed .server 0 = [[1], [2]] ∧ w.log.pushed .server 0 <+: messages (w.log.written .client) 0 :=
  ⟨by decide +kernel, pushed_prefix (by decide +kernel) .client rfl⟩

end Netchan.Micro
