import Netchan.Proof.Drain

/-!
# Refused writes and small packets

`netchan_chan_write` counts the fragments of a message in 8 bits, after it has taken a buffer and a
sequence number for it, and `netchan_config` stores any `mtu`.

* `refused_write_undone`: a refused write leaves the sender as it was, unless it is the fragment
  count that refuses the message; then its sequence number is lost (`skipped_number`).
* `sizes_safe`: the sizes of a message and of a packet are right exactly when `mtu` leaves room for
  a byte of payload and the fragment count of the message does not come out small in 8 bits.
-/

namespace Netchan

open Lib

/-! ## Refused writes -/

/-- The number of fragments of a message, in 8 bits, is more than a message may have. -/
def TooManyFrags (c : Conn) (data : List UInt8) : Prop :=
  ncMaxFrags < (data.length + (c.cfg.mtu.toNat - 15) - 1) / (c.cfg.mtu.toNat - 15) % 2 ^ 8

instance (c : Conn) (data : List UInt8) : Decidable (TooManyFrags c data) :=
  inferInstanceAs (Decidable (_ < _))

/-- `netchan_chan_write` refuses a message for its fragments only: every other check passes. -/
def RefusedLate (c : Conn) (id : ChanId) (data : List UInt8) : Prop :=
  (∃ ch b p, CanWrite c id data ch b p) ∧ TooManyFrags c data

/-- The sender is as it was: its numbers, its slots in use and the pool; and the next message that
is taken gets the next sequence number. -/
structure WriteUndone (c : Conn) (id : ChanId) (c' : Conn) : Prop where
  pool : c'.pool = c.pool
  absent : c.channels id = none → c'.channels id = none
  kept : ∀ ch, c.channels id = some ch → ∃ ch', c'.channels id = some ch' ∧
    ch'.snd.sendSeq = ch.snd.sendSeq ∧ ch'.snd.outHead = ch.snd.outHead ∧
    ch'.snd.outTail = ch.snd.outTail ∧ ch'.snd.bytesInFlight = ch.snd.bytesInFlight ∧
    ch'.snd.msgsSent = ch.snd.msgsSent ∧
    ∀ k, (ch.snd.outgoing k).active = true ∨ (ch'.snd.outgoing k).active = true →
      ch'.snd.outgoing k = ch.snd.outgoing k
  next : ∀ ch, c.channels id = some ch → ∀ data, writeAccepted c' id data = true →
    (slotsOf (netchanChanWrite c' id data).2 id ch.snd.outTail).seq = ch.snd.sendSeq

section
variable {c : Conn} {id : ChanId} {data : List UInt8}

theorem written_seq {ch : Chan} (hc : c.channels id = some ch)
    (ha : writeAccepted c id data = true) :
    (slotsOf (netchanChanWrite c id data).2 id ch.snd.outTail).seq = ch.snd.sendSeq := by
  rcases netchanChanWrite_cases c id data with ⟨-, hn⟩ | ⟨d, b, p, hw, h⟩
  · rw [hn] at ha
    cases ha
  rcases h with ⟨-, -, he⟩ | ⟨-, hn, -⟩
  · obtain rfl : d = ch := Option.some.inj (hw.chan.symm.trans hc)
    rw [he]
    simp [slotsOf, Conn.setChan, writtenChan]
  · rw [hn] at ha
    cases ha

theorem writeUndone_refl (c : Conn) (id : ChanId) : WriteUndone c id c where
  pool := rfl
  absent h := h
  kept ch hc := ⟨ch, hc, rfl, rfl, rfl, rfl, rfl, fun _ _ => rfl⟩
  next _ hc _ ha := written_seq hc ha

theorem netchanChanWrite_late {ch : Chan} {b : BufIdx} {p : Pool} (hw : CanWrite c id data ch b p)
    (hmany : ¬ fragTotalOf (maxFragPayload c) data.length ≤ ncMaxFrags) :
    netchanChanWrite c id data = (.error .toobig,
      { c with pool := poolPut (p.write (some b) 0 data) (some b) }.setChan id (skippedChan ch)) := by
  unfold netchanChanWrite
  rw [hw.chan]
  dsimp only
  rw [if_neg (by simp [hw.role]), if_neg hw.state, if_neg hw.pos, if_neg (Nat.not_lt.2 hw.small),
    if_neg hw.window, if_neg hw.room, hw.get]
  dsimp only
  rw [if_pos (Nat.lt_of_not_le hmany)]
  rfl

theorem fragTotalOf_many (hm : 16 ≤ c.cfg.mtu.toNat) :
    ¬ fragTotalOf (maxFragPayload c) data.length ≤ ncMaxFrags ↔ TooManyFrags c data := by
  rw [maxFragPayload_eq (by omega)]
  unfold fragTotalOf TooManyFrags
  simp only [ncMaxFrags]
  split <;> omega

end

/-- **A refused write changes nothing, unless it is the number of fragments that refuses it.** -/
theorem refused_write_undone (c : Conn) (id : ChanId) (data : List UInt8)
    (hm : 16 ≤ c.cfg.mtu.toNat) :
    (∀ e, (netchanChanWrite c id data).1 = .error e →
      WriteUndone c id (netchanChanWrite c id data).2) ↔ ¬ RefusedLate c id data := by
  constructor
  · rintro h ⟨⟨ch, b, p, hw⟩, hmany⟩
    have he := netchanChanWrite_late hw ((fragTotalOf_many hm).2 hmany)
    rw [he] at h
    obtain ⟨ch', hc', hseq, -⟩ := (h _ rfl).kept ch hw.chan
    simp only [Conn.setChan, Table.set_same, Option.some.injEq] at hc'
    subst hc'
    -- the sequence number was taken
    have hnat := congrArg UInt16.toNat hseq
    simp only [skippedChan, UInt16.toNat_add] at hnat
    have hlt := ch.snd.sendSeq.toNat_lt
    have h1 : (1 : UInt16).toNat = 1 := rfl
    omega
  · intro hnot e he
    rcases netchanChanWrite_cases c id data with ⟨hc, -⟩ | ⟨ch, b, p, hw, h'⟩
    · rw [hc]
      exact writeUndone_refl c id
    · rcases h' with ⟨hf, ha, -⟩ | ⟨hf, -, -⟩
      · rw [writeAccepted, he] at ha
        cases ha
      · exact absurd ⟨⟨ch, b, p, hw⟩, (fragTotalOf_many hm).1 hf⟩ hnot

/-- A message that the window refuses. -/
theorem refused_write_undone_flow :
    let c := runConn false (openSteps 2 ++ [.config { netchanCfgDefault with mtu := 16 }])
    (netchanChanWrite c 0 [1, 2, 3]).1 = .error .flow ∧
      WriteUndone c 0 (netchanChanWrite c 0 [1, 2, 3]).2 := by
  intro c
  have he : (netchanChanWrite c 0 [1, 2, 3]).1 = .error .flow := by decide +kernel
  have hmany : ¬ TooManyFrags c [1, 2, 3] := by decide +kernel
  exact ⟨he, (refused_write_undone c 0 [1, 2, 3] (by decide +kernel)).2 (fun h => hmany h.2) _ he⟩

/-- **A refused message takes a sequence number with it**: 33 bytes in packets of 16 bytes. -/
theorem skipped_number :
    let c := runConn false (openSteps 65536 ++ [.config { netchanCfgDefault with mtu := 16 }])
    let r := netchanChanWrite c 0 (List.replicate 33 0)
    16 ≤ c.cfg.mtu.toNat ∧ r.1 = .error .toobig ∧
      (c.channels 0).map (·.snd.sendSeq) = some 0 ∧
      (r.2.channels 0).map (·.snd.sendSeq) = some 1 := by
  decide +kernel

/-! ## Sizes -/

/-- The number of fragments a message needs, before it is cut to 8 bits. -/
def fragCount (mtu len : Nat) : Nat := (len + (mtu - 15) - 1) / (mtu - 15)

/-- What the code computes of the sizes of one message and of one packet. -/
structure SizesRight (c : Conn) (id : ChanId) (data : List UInt8) (env : Env) (buflen : Nat) :
    Prop where
  /-- `max_frag_payload` does not wrap. -/
  payload : (maxFragPayload c : Int) = c.cfg.mtu.toNat - ncHdrFullSize - 8
  /-- `netchan_chan_write` divides by the payload once its other checks have passed. -/
  divisor : ∀ ch b p, CanWrite c id data ch b p → maxFragPayload c ≠ 0
  /-- A message that is taken has as many fragments as it needs. -/
  total : ∀ ch, c.channels id = some ch → writeAccepted c id data = true →
    let o := slotsOf (netchanChanWrite c id data).2 id ch.snd.outTail
    (o.fragTotal - 1) * maxFragPayload c < data.length ∧
      data.length ≤ o.fragTotal * maxFragPayload c
  /-- `netchan_send_next` has room for the header before it takes the rest for control frames. -/
  room : hasData c = true → ¬ buflen < sendHdrSize c → c.ctrlBuf ≠ [] →
    sendHdrSize c ≤ sendRoom c buflen
  /-- A packet does not leave the buffer. -/
  inside : ∀ pkt addr, (netchanSendNext env c buflen).2 = some (pkt, addr) → pkt.length ≤ buflen

/-- The fragment count of a message fits 8 bits, or it is refused. -/
def CountFits (mtu len : Nat) : Prop :=
  fragCount mtu len < 2 ^ 8 ∨ ncMaxFrags < fragCount mtu len % 2 ^ 8

instance (mtu len : Nat) : Decidable (CountFits mtu len) := inferInstanceAs (Decidable (_ ∨ _))

theorem fragCount_bounds {mtu len : Nat} (hm : 16 ≤ mtu) (hlen : 1 ≤ len) :
    1 ≤ fragCount mtu len ∧ (fragCount mtu len - 1) * (mtu - 15) < len ∧
      len ≤ fragCount mtu len * (mtu - 15) := by
  unfold fragCount
  generalize hfp : mtu - 15 = fp
  have hpos : 0 < fp := by omega
  generalize hn : (len + fp - 1) / fp = n
  have h1 : n * fp ≤ len + fp - 1 := by
    rw [← hn]
    exact Nat.div_mul_le_self _ _
  have h2 : len + fp - 1 < n * fp + fp := by
    rw [← hn]
    exact Nat.lt_div_mul_add hpos
  have h3 : 1 ≤ n := by
    rw [← hn]
    exact (Nat.one_le_div_iff hpos).2 (by omega)
  have h4 : (n - 1) * fp + fp = n * fp := by
    rw [← Nat.succ_mul, Nat.succ_eq_add_one, Nat.sub_add_cancel h3]
  exact ⟨h3, by omega, by omega⟩

/-- A packet stays in the room there is, if the header does. -/
theorem sendNext_inside {env : Env} {c : Conn} {buflen : Nat} (hd : hasData c = true)
    (hb : ¬ buflen < sendHdrSize c) (hroom : sendHdrSize c ≤ sendRoom c buflen) {pkt : List UInt8}
    {addr : Addr} (hs : (netchanSendNext env c buflen).2 = some (pkt, addr)) :
    pkt.length ≤ sendRoom c buflen := by
  rw [sendNext_bytes hd hb] at hs
  obtain ⟨rfl, -⟩ := Prod.mk.injEq .. ▸ Option.some.inj hs
  refine flushData_length _ _ _ _ _ _ (flushAcks_length _ _ _ _ ?_)
  have hlt : sendRoom c buflen < 2 ^ 32 :=
    Nat.lt_of_le_of_lt (Nat.min_le_left _ _) c.cfg.mtu.toNat_lt
  rw [packetStart, List.length_append, length_headerOf, List.length_take, ctrlSent, sizeSub]
  omega

theorem sizesRight_of {c : Conn} {id : ChanId} {data : List UInt8} {env : Env} {buflen : Nat}
    (hm : 16 ≤ c.cfg.mtu.toNat) (hlen : 1 ≤ data.length)
    (hfits : CountFits c.cfg.mtu.toNat data.length) : SizesRight c id data env buflen := by
  have hfp : maxFragPayload c = c.cfg.mtu.toNat - 15 := maxFragPayload_eq (by omega)
  have hhdr := sendHdrSize_le c
  have hroom : ¬ buflen < sendHdrSize c → sendHdrSize c ≤ sendRoom c buflen := by
    intro hb
    rw [sendRoom]
    omega
  refine ⟨by rw [hfp]; simp only [ncHdrFullSize]; omega, fun _ _ _ _ => by rw [hfp]; omega, ?_,
    fun _ hb _ => hroom hb, fun pkt addr hs => ?_⟩
  · intro ch hc ha o
    obtain ⟨hpos, hlow, hhigh⟩ := fragCount_bounds hm hlen
    rcases netchanChanWrite_cases c id data with ⟨-, hn⟩ | ⟨d, b, p, hw, ⟨hf, -, he⟩ | ⟨-, hn, -⟩⟩
    · rw [hn] at ha
      cases ha
    · obtain rfl : d = ch := Option.some.inj (hw.chan.symm.trans hc)
      have ho : o.fragTotal = fragTotalOf (maxFragPayload c) data.length := by
        simp [o, he, slotsOf, Conn.setChan, writtenChan]
      have hcount : fragTotalOf (maxFragPayload c) data.length =
          fragCount c.cfg.mtu.toNat data.length := by
        rw [hfp] at hf ⊢
        simp only [CountFits, fragCount, ncMaxFrags] at hfits hf hpos ⊢
        unfold fragTotalOf at hf ⊢
        dsimp only at hf ⊢
        generalize (data.length + (c.cfg.mtu.toNat - 15) - 1) / (c.cfg.mtu.toNat - 15) = n at *
        split at hf <;> split <;> omega
      rw [ho, hcount, hfp]
      exact ⟨hlow, hhigh⟩
    · rw [hn] at ha
      cases ha
  · by_cases hd : hasData c = true
    · by_cases hb : buflen < sendHdrSize c
      · rw [netchanSendNext, if_neg (by simp [hd]), if_pos hb] at hs
        cases hs
      · exact (sendNext_inside hd hb (hroom hb) hs).trans (Nat.min_le_right _ _)
    · rw [netchanSendNext, if_pos (by simpa using hd)] at hs
      cases hs

/-- With packets of any size, there is a connection that can write every message. -/
theorem exists_canWrite (mtu : UInt32) (data : List UInt8) (h1 : 1 ≤ data.length)
    (h2 : data.length ≤ ncMaxMsg) :
    ∃ steps ch b p, (runConn false steps).cfg.mtu = mtu ∧
      CanWrite (runConn false steps) 0 data ch b p := by
  have hch : ((runConn false (openSteps 65536)).channels 0).map (fun ch => (ch.role, ch.state,
      ch.snd.bytesInFlight, ch.snd.sendWindow, ch.snd.outTail, ch.snd.outHead)) =
      some (.sender, .opened, 0, 65536, 0, 0) := by
    decide +kernel
  have hpool : (runConn false (openSteps 65536)).pool.poolFree = poolInit.poolFree := by
    decide +kernel
  obtain ⟨ch, hc, he⟩ := Option.map_eq_some_iff.1 hch
  simp only [Prod.mk.injEq] at he
  obtain ⟨hr, hs, hb, hw, ht, hh⟩ := he
  obtain ⟨b, p, hget⟩ : ∃ b p, poolGet (runConn false (openSteps 65536)).pool = (some b, p) := by
    cases hf : (runConn false (openSteps 65536)).pool.poolFree with
    | nil =>
      rw [hpool] at hf
      cases hf
    | cons b fs => exact ⟨b, _, by rw [poolGet, hf]⟩
  have hrun : runConn false (openSteps 65536 ++ [.config { netchanCfgDefault with mtu }]) =
      netchanConfig (runConn false (openSteps 65536)) { netchanCfgDefault with mtu } := run_concat ..
  refine ⟨_, ch, b, p, by rw [hrun]; rfl, ?_⟩
  rw [hrun]
  refine ⟨hc, hr, by rw [hs]; decide, by omega, h2, ?_, by rw [ht, hh]; decide, hget⟩
  rintro ⟨-, -, hbig⟩
  rw [hb, hw] at hbig
  simp only [ncMaxMsg] at h2
  change 0 + data.length > 65536 at hbig
  omega

/-- **The sizes are right exactly when a packet has room for a byte of payload and the number of
fragments fits 8 bits**, in every state a connection with this `mtu` reaches. -/
theorem sizes_safe (mtu : UInt32) (len buflen : Nat) (h1 : 1 ≤ len) (h2 : len ≤ ncMaxMsg) :
    (∀ server steps id data env, (runConn server steps).cfg.mtu = mtu → data.length = len →
      SizesRight (runConn server steps) id data env buflen) ↔
    16 ≤ mtu.toNat ∧ CountFits mtu.toNat len := by
  constructor
  · intro h
    have hdata : (List.replicate len (0 : UInt8)).length = len := List.length_replicate
    generalize List.replicate len (0 : UInt8) = data at hdata
    obtain ⟨steps, ch, b, p, hmtu, hw⟩ := exists_canWrite mtu data (by omega) (by omega)
    have hr := h false steps 0 data {} hmtu hdata
    generalize runConn false steps = c at hmtu hr hw
    have hpay := hr.payload
    simp only [ncHdrFullSize, hmtu] at hpay
    have hdiv := hr.divisor ch b p hw
    have hm : 16 ≤ mtu.toNat := by omega
    refine ⟨hm, ?_⟩
    obtain ⟨hpos, hlow, hhigh⟩ := fragCount_bounds hm h1
    by_contra hfits
    simp only [CountFits, not_or, not_lt, ncMaxFrags] at hfits
    have hfp : maxFragPayload c = mtu.toNat - 15 := by omega
    have hfew : fragTotalOf (maxFragPayload c) data.length ≤ ncMaxFrags := by
      rw [hfp, hdata]
      unfold fragTotalOf
      change (if fragCount mtu.toNat len % 2 ^ 8 = 0 then 1 else fragCount mtu.toNat len % 2 ^ 8) ≤ 32
      split <;> omega
    have he := netchanChanWrite_taken hw hfew
    have ha : writeAccepted c 0 data = true := by
      rw [writeAccepted, he]
      simpa using hw.pos
    obtain ⟨-, hle⟩ := hr.total ch hw.chan ha
    rw [he] at hle
    simp only [slotsOf, Conn.setChan, writtenChan, Table.set_same, Function.update_self, hdata] at hle
    -- 255 fragments and more do not hold what 32 hold
    have hmany : 255 * (mtu.toNat - 15) ≤ (fragCount mtu.toNat len - 1) * (mtu.toNat - 15) :=
      Nat.mul_le_mul_right _ (by omega)
    have hfew' : len ≤ 32 * (mtu.toNat - 15) := by
      rw [hdata] at hfew
      rw [← hfp]
      exact hle.trans (Nat.mul_le_mul_right _ hfew)
    omega
  · rintro ⟨hm, hfits⟩ server steps id data env rfl rfl
    exact sizesRight_of hm h1 hfits

/-- Forty bytes in packets of 17: twenty fragments. -/
theorem sizes_safe_forty :
    let c := runConn false (openSteps 65536 ++ [.config { netchanCfgDefault with mtu := 17 }])
    CountFits 17 40 ∧ SizesRight c 0 (List.replicate 40 0) {} 17 := by
  intro c
  have hmtu : c.cfg.mtu = 17 := by decide +kernel
  have h := (sizes_safe 17 40 17 (by decide) (by decide)).2 ⟨by decide, by decide⟩ false _ 0
    (List.replicate 40 0) {} hmtu List.length_replicate
  exact ⟨by decide, h⟩

/-- **256 fragments are counted as one**: a message of 256 bytes in packets of 16 bytes is taken,
and all but its first byte is never sent. -/
theorem short_count :
    let c := runConn false (openSteps 65536 ++ [.config { netchanCfgDefault with mtu := 16 }])
    let r := netchanChanWrite c 0 (List.replicate 256 0)
    maxFragPayload c = 1 ∧ r.1 = .ok 256 ∧ (slotsOf r.2 0 0).fragTotal = 1 ∧
      ¬ 256 ≤ (slotsOf r.2 0 0).fragTotal * maxFragPayload c := by
  decide +kernel

end Netchan
