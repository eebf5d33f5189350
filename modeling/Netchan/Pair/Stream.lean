import Netchan.Lib.Climb
import Netchan.Pair.Fifo
import Netchan.Pair.Order
import Netchan.Proof.Pieces

/-!
# The sending half of a STREAM channel

A STREAM channel sends every fragment once. Fragments have positions by message and index (`spot`), so
what is sent climbs (`Frame.Advances`), and over a network that keeps the order so do the
acknowledgements on their way back (`Frame.Acks`). `SendHalf`: the slots hold messages under their
numbers, and their fragments from a position `r` on are not sent yet.
-/

namespace Netchan

open Lib

/-! ## Positions -/

/-- The position of fragment `j` of message `n`. -/
def spot (n j : Nat) : Nat := n * 256 + j

/-- The position after fragment `j` of message `n`. -/
def nextSpot (n j total : Nat) : Nat := if j + 1 = total then spot (n + 1) 0 else spot n (j + 1)

section
variable {n m j total : Nat}

theorem spot_lt_nextSpot (hj : j < total) (ht : total ≤ ncMaxFrags) :
    spot n j < nextSpot n j total ∧ nextSpot n j total ≤ spot (n + 1) 0 := by
  simp only [ncMaxFrags] at ht
  unfold nextSpot spot
  split <;> omega

/-- Fragments from the start of message `m` on are of this message or a later one. -/
theorem le_of_spot (hj : j < total) (ht : total ≤ ncMaxFrags) (h : spot m 0 ≤ spot n j) : m ≤ n := by
  simp only [ncMaxFrags] at ht
  unfold spot at h
  omega

theorem spot_mono {k : Nat} (h : m ≤ n) (hk : k ≤ j) : spot m k ≤ spot n j := by
  unfold spot
  omega

end

/-- The fields of a DATA frame are those of fragment `idx` of message `n`. -/
structure PieceOf (fp : Nat) (ms : List (List UInt8)) (n : Nat) (data : List UInt8) (seq : UInt16)
    (idx total : Nat) (payload : List UInt8) : Prop where
  number : seq = UInt16.ofNat n
  msg : ms[n]? = some data
  count : total = pieceCount fp data.length
  few : total ≤ ncMaxFrags
  cut : Cut fp data total
  index : idx < total
  bytes : payload = piece fp data idx

/-- A frame takes the position of what is received on a channel from `a` to `m`. -/
def Frame.Advances (id : ChanId) (fp : Nat) (ms : List (List UInt8)) (a : Nat) (f : Frame) (m : Nat) :
    Prop :=
  match f with
  | .data j seq idx total payload =>
    if j = id then ∃ n data, PieceOf fp ms n data seq idx total payload ∧ a ≤ spot n idx ∧
      m = nextSpot n idx total
    else a ≤ m
  | _ => a ≤ m

/-- A frame takes the number of messages that were acknowledged on a channel from `a` to `m`. -/
def Frame.Acks (id : ChanId) (a : Nat) (f : Frame) (m : Nat) : Prop :=
  match f with
  | .ack j acked => a ≤ m ∧ (j = id → acked = ackFor (UInt16.ofNat m))
  | _ => a ≤ m

section
variable {id : ChanId} {fp : Nat} {ms ms' : List (List UInt8)} {a m : Nat} {f : Frame}

theorem advances_other (h : ∀ seq idx total payload, f ≠ .data id seq idx total payload) :
    f.Advances id fp ms a m ↔ a ≤ m := by
  cases f with
  | data j seq idx total payload =>
    have hj : j ≠ id := by
      rintro rfl
      exact h seq idx total payload rfl
    simp only [Frame.Advances, if_neg hj]
  | _ => rfl

theorem advances_data {seq : UInt16} {idx total : Nat} {payload : List UInt8} :
    (Frame.data id seq idx total payload).Advances id fp ms a m ↔
      ∃ n data, PieceOf fp ms n data seq idx total payload ∧ a ≤ spot n idx ∧
        m = nextSpot n idx total := by
  simp only [Frame.Advances, if_true]

theorem acks_other (h : ∀ acked, f ≠ .ack id acked) : f.Acks id a m ↔ a ≤ m := by
  cases f with
  | ack j acked =>
    have hj : j ≠ id := by
      rintro rfl
      exact h acked rfl
    simp [Frame.Acks, hj]
  | _ => rfl

theorem PieceOf.grow {n idx total : Nat} {data payload : List UInt8} {seq : UInt16}
    (h : PieceOf fp ms n data seq idx total payload) (hm : ms <+: ms') :
    PieceOf fp ms' n data seq idx total payload :=
  { h with msg := getElem?_of_prefix hm h.msg }

theorem Frame.Advances.grow (h : f.Advances id fp ms a m) (hm : ms <+: ms') :
    f.Advances id fp ms' a m := by
  by_cases hf : ∃ seq idx total payload, f = .data id seq idx total payload
  · obtain ⟨seq, idx, total, payload, rfl⟩ := hf
    obtain ⟨n, data, hp, ha, he⟩ := advances_data.1 h
    exact advances_data.2 ⟨n, data, hp.grow hm, ha, he⟩
  · push Not at hf
    exact (advances_other hf).2 ((advances_other hf).1 h)

theorem advances_climbing (id : ChanId) (fp : Nat) (ms : List (List UInt8)) :
    Climbing fun a f m => Frame.Advances id fp ms a f m := by
  refine ⟨fun {a f m} h => ?_, fun {a a' f m} hle h => ?_⟩ <;>
    by_cases hf : ∃ seq idx total payload, f = .data id seq idx total payload
  · obtain ⟨seq, idx, total, payload, rfl⟩ := hf
    obtain ⟨n, data, hp, ha, rfl⟩ := advances_data.1 h
    have := (spot_lt_nextSpot (n := n) hp.index hp.few).1
    omega
  · push Not at hf
    exact (advances_other hf).1 h
  · obtain ⟨seq, idx, total, payload, rfl⟩ := hf
    obtain ⟨n, data, hp, ha, he⟩ := advances_data.1 h
    exact advances_data.2 ⟨n, data, hp, hle.trans ha, he⟩
  · push Not at hf
    exact (advances_other hf).2 (hle.trans ((advances_other hf).1 h))

theorem acks_climbing (id : ChanId) : Climbing fun a f m => Frame.Acks id a f m := by
  refine ⟨fun {a f m} h => ?_, fun {a a' f m} hle h => ?_⟩ <;> cases f with
  | ack j acked => first | exact h.1 | exact ⟨hle.trans h.1, h.2⟩
  | _ => first | exact h | exact Nat.le_trans hle h

end

/-! ## The sending half -/

/-- A slot holds message `n`, and its fragments from position `r` on are not sent yet. -/
structure Outgoing.Streams (o : Outgoing) (p : Pool) (fp : Nat) (ms : List (List UInt8)) (r n : Nat) :
    Prop where
  bytes : ms[n]? = some (p.read o.buf 0 o.len)
  count : o.fragTotal = pieceCount fp o.len
  few : o.fragTotal ≤ ncMaxFrags
  cut : Netchan.Cut fp (p.read o.buf 0 o.len) o.fragTotal
  left : o.fragSent < o.fragTotal → r ≤ spot n o.fragSent

/-- The end that sends on the channel wrote `ms`, of which at least `acked` were acknowledged, and
sent the fragments before `r`. -/
structure SendHalf (c : Conn) (id : ChanId) (ms : List (List UInt8)) (acked r : Nat) : Prop where
  store : StoreOk c
  sends : ∀ ch, c.channels id = some ch →
    ch.snd.Numbered ms.length acked (fun o n => o.Streams c.pool (maxFragPayload c) ms r n)
  mute : c.channels id = none → ms = []
  bound : r ≤ spot ms.length 0

/-- A message on the channel is cut into no more than `NC_MAX_FRAGS` pieces. -/
def Call.Cuts (c : Conn) (id : ChanId) : Call → Prop
  | .write j data => j = id → data.length ≤ ncMaxMsg → 0 < maxFragPayload c ∧
    pieceCount (maxFragPayload c) data.length ≤ ncMaxFrags
  | _ => True

instance (c : Conn) (id : ChanId) : ∀ k : Call, Decidable (k.Cuts c id)
  | .write j data => inferInstanceAs (Decidable (j = id → data.length ≤ ncMaxMsg →
      0 < maxFragPayload c ∧ pieceCount (maxFragPayload c) data.length ≤ ncMaxFrags))
  | .connect .. | .accept | .disconnect | .service .. | .chanOpen .. | .chanClose .. | .read .. | .poll =>
    .isTrue trivial

section
variable {c c' : Conn} {id : ChanId} {ch : Chan} {ms ms' : List (List UInt8)} {acked r : Nat}
  {o : Outgoing} {p p' : Pool} {fp n : Nat}

theorem Outgoing.Streams.read (h : o.Streams p fp ms r n)
    (hp : p'.read o.buf 0 o.len = p.read o.buf 0 o.len) (hm : ms <+: ms') :
    o.Streams p' fp ms' r n := by
  refine ⟨?_, h.count, h.few, ?_, h.left⟩
  · rw [hp]
    exact getElem?_of_prefix hm h.bytes
  · rw [hp]
    exact h.cut

theorem SendHalf.near (h : SendHalf c id ms acked r) : ms.length ≤ acked + ncOutgoingSlots := by
  cases hc : c.channels id with
  | none =>
    rw [h.mute hc]
    exact Nat.zero_le _
  | some ch => exact (h.sends ch hc).near_le

/-- A step of the end: what it does to the channel is related by `Q`. -/
theorem SendHalf.kept {Q : Chan → Chan → Prop} (h : SendHalf c id ms acked r) {acked' r' : Nat}
    (hst : StoreOk c') (hcfg : c'.cfg = c.cfg) (hk : ChanKept c c' id Q)
    (hnone : c.channels id = none → ms' = ms)
    (hq : ∀ ch ch', c.channels id = some ch → Q ch ch' →
      ch'.snd.Numbered ms'.length acked'
        (fun o n => o.Streams c'.pool (maxFragPayload c) ms' r' n))
    (hbound : r' ≤ spot ms'.length 0) : SendHalf c' id ms' acked' r' := by
  refine ⟨hst, fun ch' hc' => ?_, fun hn => ?_, hbound⟩
  · rcases hk.2 ch' hc' with ⟨hn, hnew⟩ | ⟨ch, hc, hr⟩
    · rw [hnone hn, h.mute hn, hnew.snd]
      exact .empty _ _
    · rw [maxFragPayload_congr hcfg]
      exact hq ch ch' hc hr
  · rw [hnone (hk.1 hn), h.mute (hk.1 hn)]

theorem Sender.Numbered.streamed {a a' : Sender}
    (h : a.Numbered ms.length acked (fun o n => o.Streams p fp ms r n))
    (hseq : a'.sendSeq = a.sendSeq) (hh : a'.outHead = a.outHead) (ht : a'.outTail = a.outTail)
    (ho : a'.outgoing = a.outgoing) (hp : ∀ i, (a.outgoing i).active = true →
      p'.read (a.outgoing i).buf 0 (a.outgoing i).len = p.read (a.outgoing i).buf 0 (a.outgoing i).len) :
    a'.Numbered ms.length acked (fun o n => o.Streams p' fp ms r n) :=
  h.same hseq hh ht (fun k => by rw [ho]; exact ⟨rfl, rfl⟩) fun k n hk _ hold => by
    rw [ho]
    exact hold.read (hp k hk) List.prefix_rfl

/-- **A call of the end that sends.** -/
theorem sendHalf_call (h : SendHalf c id ms acked r)
    (hkind : ∀ ch, c.channels id = some ch → ch.type = .stream) {k : Call} (hk : k.Cuts c id)
    (hwrite : ∀ data, k = .write id data → writeAccepted c id data = true → ms' = ms ++ [data])
    (hidle : (∀ data, k = .write id data → writeAccepted c id data = false) → ms' = ms) :
    SendHalf (k.apply c) id ms' acked r := by
  obtain ⟨hst, hch⟩ := store_call h.store k
  have hgrow : ms <+: ms' := by
    rcases call_writes c id k with ⟨data, rfl, ha⟩ | hn
    · rw [hwrite data rfl ha]
      exact List.prefix_append ..
    · rw [hidle hn]
  refine h.kept hst (call_cfg c k).1 (call_effect c k id)
    (fun hn => hidle fun data _ => writeAccepted_idle (by simp [hn]) data)
    (fun ch ch' hc hq => ?_) (h.bound.trans (spot_mono hgrow.length_le (Nat.le_refl 0)))
  have hs := h.sends ch hc
  have hread (i : Fin ncOutgoingSlots) (ha : (ch.snd.outgoing i).active = true) :=
    out_read h.store hch hc ha (out_uncalled k hc hs.window ha)
  rcases call_writes c id k with ⟨data, rfl, ha⟩ | hn
  · obtain ⟨b, p, hcan, hf, rfl, hb⟩ := call_written hc hq ha
    obtain ⟨hfp, hcount⟩ := hk rfl hcan.small
    have htotal : fragTotalOf (maxFragPayload c) data.length =
        pieceCount (maxFragPayload c) data.length :=
      fragTotalOf_eq hfp hcan.pos (Nat.lt_of_le_of_lt hcount (by decide))
    rw [hwrite data rfl ha, List.length_append, List.length_singleton]
    refine hs.written hcan.room
      (fun i n hi hold => hold.read (hread i hi) (List.prefix_append ..)) ?_
    simp only [writtenChan, Function.update_self]
    refine ⟨?_, htotal, hf, ?_, fun _ => h.bound⟩
    · rw [hb]
      simp
    · rw [hb, htotal]
      exact cut_pieceCount hfp hcan.small
  · rw [hidle hn]
    cases hq with
    | @timed _ now hg =>
      have hsame : chanTimed c.cfg now ch = ch := by
        unfold chanTimed
        rw [if_pos (.inr (by simp [hkind ch hc]))]
      rw [hsame]
      exact hs.streamed rfl rfl rfl rfl hread
    | written hcan hf ha =>
      rw [hn _ rfl] at ha
      cases ha
    | skipped hcan hf ha =>
      obtain ⟨hfp, hcount⟩ := hk rfl hcan.small
      refine absurd ?_ hf
      rw [fragTotalOf_eq hfp hcan.pos (Nat.lt_of_le_of_lt hcount (by decide))]
      exact hcount
    | _ => exact hs.streamed rfl rfl rfl rfl hread

/-- **A frame reaches the end that sends.** -/
theorem sendHalf_frame (h : SendHalf c id ms acked r) (env : Env) {f : Frame}
    (hfit : FramesFit c (.frame env f)) {acked' : Nat} (hle : acked ≤ acked')
    (hack : ∀ a, f = .ack id a → ∀ n < ms.length, int16 (UInt16.ofNat n - a) ≤ 0 → n ≤ acked') :
    SendHalf (stepFrame env c f) id ms acked' r := by
  obtain ⟨hst, hch⟩ := store_frame h.store env hfit
  refine h.kept hst (stepFrame_fixed env c f).2.1 (frame_effect env c f id) (fun _ => rfl)
    (fun ch ch' hc hq => ?_) h.bound
  have hs := (h.sends ch hc).mono hle
  by_cases hf : ∃ j a, f = .ack j a
  · obtain ⟨j, a, rfl⟩ := hf
    cases hq with
    | ack hr =>
      exact hs.acked (hack a rfl) c.pool fun k n _ hold =>
        hold.read (ack_read env c id a _ _) List.prefix_rfl
    | other hne => exact hs.streamed rfl rfl rfl rfl fun i _ => ack_read env c j a _ _
    | ignored hne => exact hs.streamed rfl rfl rfl rfl fun i _ => ack_read env c _ a _ _
  · push Not at hf
    have hread (i : Fin ncOutgoingSlots) (ha : (ch.snd.outgoing i).active = true) :=
      out_read h.store hch hc ha (out_untouched env hf i)
    cases hq with
    | ack hr => exact absurd rfl (hf id _)
    | _ => exact hs.streamed rfl rfl rfl rfl hread

/-- The scan of `chan_next_sendable` finds the oldest message that has a fragment to send. -/
theorem chanNextSendable_first {s : Sender} {i k : Fin ncOutgoingSlots}
    (h : chanNextSendable s = some k) (hw : Between s.outHead s.outTail i)
    (ha : (s.outgoing i).active = true) (hs : (s.outgoing i).fragSent < (s.outgoing i).fragTotal) :
    i = k ∨ (s.outTail - i).val < (s.outTail - k).val := by
  rw [chanNextSendable, outWindow, List.find?_map, Option.map_eq_some_iff] at h
  obtain ⟨a, ha', rfl⟩ := h
  obtain ⟨-, hmem, hfirst⟩ := List.find?_range_eq_some.1 ha'
  have hi : i = s.outHead + Fin.ofNat _ (i - s.outHead).val := by
    rw [Fin.ofNat_val_eq_self, add_sub_cancel]
  by_cases hlt : (i - s.outHead).val < a
  · have hno := hfirst _ hlt
    rw [Function.comp_apply, ← hi] at hno
    simp [ha, hs] at hno
  · rw [List.mem_range] at hmem
    by_cases he : (i - s.outHead).val = a
    · subst he
      exact .inl hi
    · have h1 := i.isLt
      have h2 := s.outHead.isLt
      have h3 := s.outTail.isLt
      refine .inr ?_
      simp only [Between, ncOutgoingSlots] at *
      simp only [fin_add_val, fin_sub_val, Fin.ofNat] at *
      split_ifs at * <;> omega

/-- **A frame leaves the end that sends**: the positions of its fragments climb. -/
theorem sendHalf_emit (h : SendHalf c id ms acked r)
    (hkind : ∀ ch, c.channels id = some ch → ch.type = .stream)
    (hids : ∀ j d, c.channels j = some d → d.id = j) {now : UInt32} {f : Frame}
    (he : Emit now c f c') :
    ∃ r', f.Advances id (maxFragPayload c) ms r r' ∧ SendHalf c' id ms acked r' := by
  obtain ⟨hst, hch⟩ := store_emit h.store he
  have hkept := emit_effect he hids id
  have hread (ch : Chan) (hc : c.channels id = some ch) (i : Fin ncOutgoingSlots)
      (ha : (ch.snd.outgoing i).active = true) := out_read h.store hch hc ha (by
    rintro ⟨d, hd, ht, -⟩
    rw [hkind d hd] at ht
    cases ht)
  by_cases hf : ∃ seq idx total payload, f = .data id seq idx total payload
  · obtain ⟨ch, k, hc, hslot, hframe⟩ : ∃ ch k, c.channels id = some ch ∧
        chanSendSlot ch = some k ∧ f = nextData c.pool (maxFragPayload c) id (ch.snd.outgoing k) := by
      obtain ⟨seq, idx, total, payload, hf⟩ := hf
      cases he with
      | @data j ch k hc hslot =>
        obtain rfl : ch.id = id := by
          simp only [nextData, Frame.data.injEq] at hf
          exact hf.1
        rw [hids j ch hc]
        exact ⟨ch, k, hc, hslot, rfl⟩
      | _ => cases hf
    obtain ⟨-, -, hnext⟩ := chanSendSlot_spec hslot
    obtain ⟨-, hact, hlt⟩ := chanNextSendable_spec hnext
    have hs := h.sends ch hc
    obtain ⟨n, hn, hseq, hold⟩ := hs.slots k hact
    have hpos := tail_sub_pos (hs.window k hact)
    have hstep := spot_lt_nextSpot (n := n) hlt hold.few
    refine ⟨nextSpot n (ch.snd.outgoing k).fragSent (ch.snd.outgoing k).fragTotal, ?_, ?_⟩
    · have hpiece := nextData_piece id rfl hold.cut hlt
      rw [hframe, hpiece]
      refine advances_data.2 ⟨n, _, ⟨hseq, hold.bytes, ?_, hold.few, hold.cut, hlt, rfl⟩,
        hold.left hlt, rfl⟩
      simp [Pool.read, hold.count]
    · refine h.kept hst (emit_cfg he).1 hkept (fun _ => rfl) (fun d d' hd hq => ?_)
        (hstep.2.trans (spot_mono (by omega) (Nat.le_refl 0)))
      have hd : d = ch := Option.some.inj (hd.symm.trans hc)
      subst hd
      cases hq with
      | other hne => exact absurd (by rw [hframe]; rfl) hne
      | ack hn => cases hframe
      | window hn => cases hframe
      | @data k' hslot' =>
        obtain rfl : k' = k := Option.some.inj (hslot'.symm.trans hslot)
        rw [chanSent_kept (by simp [hkind d hc])]
        refine hs.same rfl rfl rfl (fun i => ?_) fun i m hi hm holdi => ?_
        · by_cases hik : i = k'
          · subst hik
            simp only [Function.update_self]
            exact ⟨rfl, rfl⟩
          · simp only [Function.update_of_ne hik]
            exact ⟨trivial, trivial⟩
        · have hkeep := holdi.read (hread d hc i hi) List.prefix_rfl
          by_cases hik : i = k'
          · subst hik
            obtain rfl : m = n := by omega
            simp only [Function.update_self]
            refine ⟨hkeep.bytes, hkeep.count, hkeep.few, hkeep.cut, fun hmore => ?_⟩
            simp only [Outgoing.sent] at hmore ⊢
            unfold nextSpot
            rw [if_neg (by omega)]
          · simp only [Function.update_of_ne hik]
            refine ⟨hkeep.bytes, hkeep.count, hkeep.few, hkeep.cut, fun hmore => ?_⟩
            rcases chanNextSendable_first hnext (hs.window i hi) hi hmore with rfl | hlater
            · exact absurd rfl hik
            · exact hstep.2.trans (spot_mono (by omega) (Nat.zero_le _))
  · refine ⟨r, (advances_other (by push Not at hf; exact hf)).2 (Nat.le_refl r),
      h.kept hst (emit_cfg he).1 hkept (fun _ => rfl) (fun ch ch' hc hq => ?_) h.bound⟩
    have hs := h.sends ch hc
    cases hq with
    | data hslot => exact absurd ⟨_, _, _, _, rfl⟩ hf
    | _ => exact hs.streamed rfl rfl rfl rfl (hread ch hc)

end

end Netchan
