import Netchan.Pair.Channels
import Netchan.Pair.Flight

/-!
# Messages by number

The messages of a channel are numbered as they are written. A message that fits one fragment is in an
outgoing slot under its number modulo `2 ^ 16` until it is acknowledged (`Sender.InOrder`), and at the
other end in the reorder table, until `recv_seq` moves past it (`Rx.InOrder`). At most 64 numbers
lie between what was written and what was passed, so the numbers of a datagram are recovered from their
16 bits as long as it is not too old.
-/

namespace Netchan

open Lib

theorem getElem?_of_prefix {α : Type} {l l' : List α} (h : l <+: l') {n : Nat} {a : α}
    (hn : l[n]? = some a) : l'[n]? = some a := by
  obtain ⟨t, rfl⟩ := h
  rw [List.getElem?_append_left (List.getElem?_eq_some_iff.1 hn).1]
  exact hn

/-! ## The sending end -/

/-- The slots hold the last of `count` messages under their numbers, with `Q` of each slot and its
number, except for those that were passed at the other end or are passed next. -/
structure Sender.Numbered (s : Sender) (count passed : Nat) (Q : Outgoing → Nat → Prop) : Prop where
  seq : s.sendSeq = UInt16.ofNat count
  window : ∀ k, (s.outgoing k).active = true → Between s.outHead s.outTail k
  slots : ∀ k, (s.outgoing k).active = true → ∃ n, n + (s.outTail - k).val = count ∧
    (s.outgoing k).seq = UInt16.ofNat n ∧ Q (s.outgoing k) n
  gone : ∀ k, Between s.outHead s.outTail k → (s.outgoing k).active = false →
    count ≤ passed + (s.outTail - k).val
  near : count ≤ passed + 1 + (s.outTail - s.outHead).val

/-- The slot after the tail, counted back from it. -/
theorem tail_succ_sub {h t k : Fin ncOutgoingSlots} (hr : t + 1 ≠ h) (hk : Between h t k) :
    (t + 1 - k).val = (t - k).val + 1 := by
  have h1 := h.isLt
  have h2 := t.isLt
  have h3 := k.isLt
  have hr : (t + 1).val ≠ h.val := fun he => hr (Fin.ext he)
  rw [fin_add_val, fin_one_val (by decide)] at hr
  simp only [Between, fin_sub_val, fin_add_val, fin_one_val (n := ncOutgoingSlots) (by decide)] at hk ⊢
  simp only [ncOutgoingSlots] at *
  repeat' split
  all_goals first | omega | (split at hr <;> split at hk <;> split at hk <;> omega)

/-- A slot in use, counted back from the tail. -/
theorem tail_sub_pos {h t k : Fin ncOutgoingSlots} (hk : Between h t k) : 1 ≤ (t - k).val := by
  have hne : (t - k).val ≠ 0 := by
    intro h0
    have he : t = k := by
      have := congrArg (· + k) (Fin.ext h0 : t - k = 0)
      simpa using this
    subst he
    exact not_between_end hk
  omega

theorem ackSlot_cases (acked : UInt16) (p : Pool) (s : Sender) (i k : Fin ncOutgoingSlots) :
    (ackSlot acked (p, s) i).2.outgoing k = s.outgoing k ∨
      ((ackSlot acked (p, s) i).2.outgoing k).active = false ∧ (s.outgoing k).active = true ∧
        int16 ((s.outgoing k).seq - acked) ≤ 0 := by
  unfold ackSlot
  dsimp only
  split
  · rename_i hg
    by_cases he : k = i
    · subst he
      exact .inr ⟨by simp, hg.1, hg.2⟩
    · exact .inl (Function.update_of_ne he ..)
  · exact .inl rfl

theorem ackScan_cases (acked : UInt16) (k : Fin ncOutgoingSlots) :
    ∀ (l : List (Fin ncOutgoingSlots)) (p : Pool) (s : Sender),
      (l.foldl (ackSlot acked) (p, s)).2.outgoing k = s.outgoing k ∨
        ((l.foldl (ackSlot acked) (p, s)).2.outgoing k).active = false ∧
          (s.outgoing k).active = true ∧ int16 ((s.outgoing k).seq - acked) ≤ 0
  | [], _, _ => .inl rfl
  | i :: l, p, s => by
    have h1 := ackScan_cases acked k l (ackSlot acked (p, s) i).1 (ackSlot acked (p, s) i).2
    rcases ackSlot_cases acked p s i k with he | ⟨hn, ha, hi⟩
    · rw [he] at h1
      exact h1
    · refine .inr ⟨?_, ha, hi⟩
      rcases h1 with h1 | ⟨h1, -⟩
      · exact (congrArg Outgoing.active h1).trans hn
      · exact h1

namespace Sender.Numbered

variable {s s' : Sender} {count passed : Nat} {Q Q' : Outgoing → Nat → Prop}

theorem empty (passed : Nat) (Q : Outgoing → Nat → Prop) : Sender.Numbered {} 0 passed Q :=
  ⟨rfl, fun _ h => (by cases h), fun _ h => (by cases h), fun _ _ _ => Nat.zero_le _, Nat.zero_le _⟩

theorem near_le (h : s.Numbered count passed Q) : count ≤ passed + ncOutgoingSlots := by
  have h1 := h.near
  have h2 := (s.outTail - s.outHead).isLt
  omega

theorem mono (h : s.Numbered count passed Q) {passed' : Nat} (hp : passed ≤ passed') :
    s.Numbered count passed' Q := by
  have h1 := h.near
  refine ⟨h.seq, h.window, h.slots, fun k hk ha => ?_, by omega⟩
  have h2 := h.gone k hk ha
  omega

theorem same (h : s.Numbered count passed Q) (hseq : s'.sendSeq = s.sendSeq)
    (hh : s'.outHead = s.outHead) (ht : s'.outTail = s.outTail)
    (hs : ∀ k, (s'.outgoing k).active = (s.outgoing k).active ∧
      (s'.outgoing k).seq = (s.outgoing k).seq)
    (hq : ∀ k n, (s.outgoing k).active = true → n + (s.outTail - k).val = count →
      Q (s.outgoing k) n → Q' (s'.outgoing k) n) : s'.Numbered count passed Q' := by
  refine ⟨hseq.trans h.seq, fun k hk => ?_, fun k hk => ?_, fun k hk ha => ?_, ?_⟩
  · rw [hh, ht]
    exact h.window k ((hs k).1 ▸ hk)
  · rw [(hs k).1] at hk
    obtain ⟨n, hn, hsq, hold⟩ := h.slots k hk
    exact ⟨n, by rw [ht]; exact hn, (hs k).2.trans hsq, hq k n hk hn hold⟩
  · rw [hh, ht] at hk
    rw [ht]
    exact h.gone k hk ((hs k).1 ▸ ha)
  · rw [hh, ht]
    exact h.near

theorem written {c : Conn} {ch : Chan} {data : List UInt8} {b : BufIdx}
    (h : ch.snd.Numbered count passed Q) (hroom : ch.snd.outTail + 1 ≠ ch.snd.outHead)
    (hold : ∀ k n, (ch.snd.outgoing k).active = true → Q (ch.snd.outgoing k) n →
      Q' (ch.snd.outgoing k) n)
    (hnew : Q' ((writtenChan c ch b data).snd.outgoing ch.snd.outTail) count) :
    (writtenChan c ch b data).snd.Numbered (count + 1) passed Q' := by
  have hne {k : Fin ncOutgoingSlots} (hk : Between ch.snd.outHead ch.snd.outTail k) :
      k ≠ ch.snd.outTail := by
    rintro rfl
    exact not_between_end hk
  refine ⟨?_, fun k hk => ?_, fun k hk => ?_, fun k hk ha => ?_, ?_⟩
  · rw [← ofNat_succ, ← h.seq]
    rfl
  · refine (between_push (by decide) hroom).2 ?_
    by_cases he : k = ch.snd.outTail
    · exact .inr he
    · simp only [writtenChan, Function.update_of_ne he] at hk
      exact .inl (h.window k hk)
  · by_cases he : k = ch.snd.outTail
    · subst he
      refine ⟨count, ?_, ?_, hnew⟩
      · simp [writtenChan, add_sub_cancel_left]
      · simp only [writtenChan, Function.update_self]
        exact h.seq
    · simp only [writtenChan, Function.update_of_ne he] at hk ⊢
      obtain ⟨n, hn, hsq, hq⟩ := h.slots k hk
      refine ⟨n, ?_, hsq, hold k n hk hq⟩
      rw [tail_succ_sub hroom (h.window k hk)]
      omega
  · have hk' : Between ch.snd.outHead ch.snd.outTail k := by
      rcases (between_push (by decide) hroom).1 hk with hk | rfl
      · exact hk
      · simp [writtenChan] at ha
    simp only [writtenChan, Function.update_of_ne (hne hk')] at ha ⊢
    have h1 := h.gone k hk' ha
    rw [tail_succ_sub hroom hk']
    omega
  · have h1 := h.near
    simp only [writtenChan]
    by_cases he : ch.snd.outHead = ch.snd.outTail
    · rw [he, sub_self] at h1
      rw [he, add_sub_cancel_left, fin_one_val (n := ncOutgoingSlots) (by decide)]
      simp only [Fin.val_zero] at h1
      omega
    · have hhead : Between ch.snd.outHead ch.snd.outTail ch.snd.outHead :=
        (between_advance (by decide) he).2 (.inl rfl)
      rw [tail_succ_sub hroom hhead]
      omega

/-- `out_head` moves past messages that are gone. -/
theorem advance (h : s.Numbered count passed Q) (fuel : Nat) :
    (outAdvance fuel s).Numbered count passed Q := by
  induction fuel generalizing s with
  | zero => exact h
  | succ fuel ih =>
    unfold outAdvance
    split
    · rename_i hg
      obtain ⟨hne, hidle⟩ := hg
      have hidle : (s.outgoing s.outHead).active = false := by simpa using hidle
      have hhead : Between s.outHead s.outTail s.outHead :=
        (between_advance (by decide) hne).2 (.inl rfl)
      refine ih ⟨h.seq, fun k hk => ?_, h.slots, fun k hk ha => ?_, ?_⟩
      · rcases (between_advance (by decide) hne).1 (h.window k hk) with rfl | hb
        · rw [hidle] at hk
          cases hk
        · exact hb
      · exact h.gone k ((between_advance (by decide) hne).2 (.inr hk)) ha
      · have h1 := h.gone s.outHead hhead hidle
        have h2 : (s.outTail - (s.outHead + 1)).val + 1 = (s.outTail - s.outHead).val := by
          have h3 := tail_sub_pos hhead
          rw [sub_add_eq_sub_sub, fin_sub_val, fin_one_val (by decide), if_pos h3]
          omega
        dsimp only
        omega
    · exact h

/-- **An acknowledgement that names only messages that were passed, or are passed next.** -/
theorem acked (h : s.Numbered count passed Q) {acked : UInt16}
    (hack : ∀ n < count, int16 (UInt16.ofNat n - acked) ≤ 0 → n ≤ passed) (p : Pool)
    (hq : ∀ k n, ((ackedSnd p s acked).outgoing k).active = true → Q (s.outgoing k) n →
      Q' (s.outgoing k) n) : (ackedSnd p s acked).Numbered count passed Q' := by
  unfold ackedSnd at hq ⊢
  simp only [outAdvance_outgoing] at hq
  obtain ⟨h1, -, h2, h3⟩ := ackScan_fields acked (List.finRange ncOutgoingSlots) p s
  have hcases (k : Fin ncOutgoingSlots) :=
    ackScan_cases acked k (List.finRange ncOutgoingSlots) p s
  have hsame (k : Fin ncOutgoingSlots) :=
    @ackScan_active acked k (List.finRange ncOutgoingSlots) p s
  generalize ((List.finRange ncOutgoingSlots).foldl (ackSlot acked) (p, s)).2 = s' at *
  refine advance ⟨h1.trans h.seq, fun k hk => ?_, fun k hk => ?_, fun k hk ha => ?_, ?_⟩ _
  · rw [h2, h3]
    exact h.window k (hsame k hk ▸ hk)
  · have hq' := hq k
    have he := hsame k hk
    rw [he] at hk hq' ⊢
    obtain ⟨n, hn, hsq, hold⟩ := h.slots k hk
    exact ⟨n, by rw [h3]; exact hn, hsq, hq' n hk hold⟩
  · rw [h2, h3] at hk
    rw [h3]
    rcases hcases k with he | ⟨-, hact, hi⟩
    · exact h.gone k hk (he ▸ ha)
    · obtain ⟨n, hn, hsq, -⟩ := h.slots k hact
      have hpos := tail_sub_pos hk
      rw [hsq] at hi
      have := hack n (by omega) hi
      omega
  · rw [h2, h3]
    exact h.near

end Sender.Numbered

/-! ### Messages in one fragment -/

/-- A slot holds message number `n`, in one fragment. -/
structure Outgoing.Holds (o : Outgoing) (p : Pool) (fp : Nat) (ms : List (List UInt8)) (n : Nat) :
    Prop where
  seq : o.seq = UInt16.ofNat n
  whole : o.fragTotal = 1
  small : o.len ≤ fp
  bytes : ms[n]? = some (p.read o.buf 0 o.len)

/-- The slots hold the last messages of `ms`, except for those that were passed at the other end or
are passed next. -/
structure Sender.InOrder (s : Sender) (p : Pool) (fp : Nat) (ms : List (List UInt8)) (passed : Nat) :
    Prop where
  seq : s.sendSeq = UInt16.ofNat ms.length
  window : ∀ k, (s.outgoing k).active = true → Between s.outHead s.outTail k
  slots : ∀ k, (s.outgoing k).active = true →
    ∃ n, n + (s.outTail - k).val = ms.length ∧ (s.outgoing k).Holds p fp ms n
  gone : ∀ k, Between s.outHead s.outTail k → (s.outgoing k).active = false →
    ms.length ≤ passed + (s.outTail - k).val
  near : ms.length ≤ passed + 1 + (s.outTail - s.outHead).val

/-- The message in a slot is the same. -/
structure Outgoing.Same (o o' : Outgoing) : Prop where
  active : o'.active = o.active
  seq : o'.seq = o.seq
  buf : o'.buf = o.buf
  len : o'.len = o.len
  total : o'.fragTotal = o.fragTotal

theorem Outgoing.Same.refl (o : Outgoing) : o.Same o := ⟨rfl, rfl, rfl, rfl, rfl⟩

section
variable {s : Sender} {p p' : Pool} {fp : Nat} {ms : List (List UInt8)} {passed : Nat}

theorem Sender.inOrder_iff : s.InOrder p fp ms passed ↔
    s.Numbered ms.length passed (fun o n => o.Holds p fp ms n) := by
  refine ⟨fun h => ⟨h.seq, h.window, fun k hk => ?_, h.gone, h.near⟩,
    fun h => ⟨h.seq, h.window, fun k hk => ?_, h.gone, h.near⟩⟩
  · obtain ⟨n, hn, hold⟩ := h.slots k hk
    exact ⟨n, hn, hold.seq, hold⟩
  · obtain ⟨n, hn, -, hold⟩ := h.slots k hk
    exact ⟨n, hn, hold⟩

theorem Sender.InOrder.empty (p : Pool) (fp : Nat) (passed : Nat) :
    Sender.InOrder {} p fp [] passed := inOrder_iff.2 (.empty passed _)

theorem Sender.InOrder.near_le (h : s.InOrder p fp ms passed) :
    ms.length ≤ passed + ncOutgoingSlots := (inOrder_iff.1 h).near_le

theorem Sender.InOrder.mono (h : s.InOrder p fp ms passed) {passed' : Nat} (hp : passed ≤ passed') :
    s.InOrder p fp ms passed' := inOrder_iff.2 ((inOrder_iff.1 h).mono hp)

theorem Sender.InOrder.same {s' : Sender} (h : s.InOrder p fp ms passed)
    (hseq : s'.sendSeq = s.sendSeq) (hh : s'.outHead = s.outHead) (ht : s'.outTail = s.outTail)
    (hs : ∀ k, (s.outgoing k).Same (s'.outgoing k))
    (hp : ∀ k, (s.outgoing k).active = true →
      p'.read (s.outgoing k).buf 0 (s.outgoing k).len = p.read (s.outgoing k).buf 0 (s.outgoing k).len) :
    s'.InOrder p' fp ms passed := by
  refine inOrder_iff.2 ((inOrder_iff.1 h).same hseq hh ht (fun k => ⟨(hs k).active, (hs k).seq⟩)
    fun k n hk _ hold => ⟨(hs k).seq.trans hold.seq, (hs k).total.trans hold.whole, ?_, ?_⟩)
  · rw [(hs k).len]
    exact hold.small
  · rw [(hs k).buf, (hs k).len, hp k hk]
    exact hold.bytes

theorem fragTotalOf_one {len : Nat} (hpos : len ≠ 0) (h : len ≤ fp) : fragTotalOf fp len = 1 := by
  have hdiv : (len + fp - 1) / fp = 1 := by
    rw [Nat.div_eq_iff (by omega)]
    omega
  unfold fragTotalOf
  rw [hdiv]
  rfl

theorem Sender.InOrder.written {c : Conn} {id : ChanId} {ch : Chan} {data : List UInt8} {b : BufIdx}
    {q : Pool} (h : ch.snd.InOrder p (maxFragPayload c) ms passed) (hw : CanWrite c id data ch b q)
    (hlen : data.length ≤ maxFragPayload c)
    (hp : ∀ k, (ch.snd.outgoing k).active = true → p'.read (ch.snd.outgoing k).buf 0
      (ch.snd.outgoing k).len = p.read (ch.snd.outgoing k).buf 0 (ch.snd.outgoing k).len)
    (hb : p'.read (some b) 0 data.length = data) :
    (writtenChan c ch b data).snd.InOrder p' (maxFragPayload c) (ms ++ [data]) passed := by
  have hone := fragTotalOf_one hw.pos hlen
  refine inOrder_iff.2 ?_
  rw [List.length_append, List.length_singleton]
  refine (inOrder_iff.1 h).written hw.room (fun k n hk hold => ⟨hold.seq, hold.whole, hold.small, ?_⟩) ?_
  · rw [hp k hk]
    exact getElem?_of_prefix (List.prefix_append ..) hold.bytes
  · simp only [writtenChan, Function.update_self]
    exact ⟨h.seq, hone, hlen, by rw [hb]; simp⟩

/-- **An acknowledgement that names only messages that were passed, or are passed next.** -/
theorem Sender.InOrder.acked (h : s.InOrder p fp ms passed) {acked : UInt16}
    (hack : ∀ n < ms.length, int16 (UInt16.ofNat n - acked) ≤ 0 → n ≤ passed)
    (hp : ∀ k, ((ackedSnd p s acked).outgoing k).active = true →
      p'.read (s.outgoing k).buf 0 (s.outgoing k).len = p.read (s.outgoing k).buf 0 (s.outgoing k).len) :
    (ackedSnd p s acked).InOrder p' fp ms passed := by
  refine inOrder_iff.2 ((inOrder_iff.1 h).acked hack p fun k n hk hold =>
    ⟨hold.seq, hold.whole, hold.small, ?_⟩)
  rw [hp k hk]
  exact hold.bytes

end

/-! ## The receiving end -/

/-- `recv_seq` counts the messages of `ms` that were passed, what was placed in the queue is some of
them in order, and the reorder table holds later ones under their numbers. -/
structure Rx.InOrder (x : Rx) (ms : List (List UInt8)) (passed : Nat) (placed : List (List UInt8)) :
    Prop where
  seq : x.rcv.recvSeq = UInt16.ofNat passed
  le : passed ≤ ms.length
  slots : ∀ k, (x.rcv.reorder k).valid = true → ∃ n, passed < n ∧ n < passed + ncReorderSlots ∧
    (x.rcv.reorder k).seq = UInt16.ofNat n ∧ k = reorderSlot (UInt16.ofNat n) ∧
    ms[n]? = some (x.slotBytes k)
  placed : placed.Sublist (ms.take passed)
  ack : x.rcv.needAck = true → x.rcv.ackSeq = ackFor (UInt16.ofNat passed)

section
variable {x x' : Rx} {ms : List (List UInt8)} {pass : Nat} {placed : List (List UInt8)}

theorem Rx.InOrder.empty (p : Pool) (ev : Ring Event ncEventQueue) (w : UInt32)
    (ms : List (List UInt8)) : Rx.InOrder ⟨p, ev, { recvWindow := w }⟩ ms 0 [] :=
  ⟨rfl, Nat.zero_le _, fun _ h => (by cases h), List.nil_sublist _, fun h => (by cases h)⟩

theorem Rx.InOrder.grow (h : x.InOrder ms pass placed) {ms' : List (List UInt8)} (hm : ms <+: ms') :
    x.InOrder ms' pass placed := by
  obtain ⟨l, rfl⟩ := hm
  have hle := h.le
  refine ⟨h.seq, by rw [List.length_append]; omega, fun k hk => ?_, ?_, h.ack⟩
  · obtain ⟨n, h1, h2, h3, h4, h5⟩ := h.slots k hk
    exact ⟨n, h1, h2, h3, h4, getElem?_of_prefix (List.prefix_append ..) h5⟩
  · rw [List.take_append_of_le_length hle]
    exact h.placed

theorem Rx.InOrder.same (h : x.InOrder ms pass placed) (hseq : x'.rcv.recvSeq = x.rcv.recvSeq)
    (hr : x'.rcv.reorder = x.rcv.reorder)
    (hb : ∀ k, (x.rcv.reorder k).valid = true → x'.slotBytes k = x.slotBytes k)
    (ha : x'.rcv.needAck = true → x.rcv.needAck = true ∧ x'.rcv.ackSeq = x.rcv.ackSeq) :
    x'.InOrder ms pass placed := by
  refine ⟨hseq.trans h.seq, h.le, fun k hk => ?_, h.placed, fun hn => ?_⟩
  · rw [hr] at hk ⊢
    rw [hb k hk]
    exact h.slots k hk
  · rw [(ha hn).2]
    exact h.ack (ha hn).1

/-- The messages that wait behind the expected one are the next ones. -/
theorem Rx.InOrder.waiting (h : x.InOrder ms pass placed) {j : Nat} (hj : j < x.behind) :
    ms[pass + 1 + j]? = some (x.slotBytes (reorderSlot (x.rcv.recvSeq + 1 + UInt16.ofNat j))) := by
  have hw := waits_of_lt_waiting _ _ _ hj
  have hle := waiting_le x.rcv.reorder ncReorderSlots (x.rcv.recvSeq + 1)
  simp only [Rx.behind] at hj
  simp only [waits, Bool.and_eq_true, beq_iff_eq] at hw
  obtain ⟨n, h1, h2, h3, h4, h5⟩ := h.slots _ hw.1
  have he : n = pass + 1 + j := by
    refine eq_of_ofNat ?_ ?_ ?_
    · rw [← h3, hw.2, h.seq, ofNat_succ, ← UInt16.ofNat_add]
    · simp only [ncReorderSlots] at *
      omega
    · simp only [ncReorderSlots] at *
      omega
  rw [← he]
  exact h5

/-- What is passed with the expected message, by its numbers. -/
theorem Rx.InOrder.passes (h : x.InOrder ms pass placed) {data : List UInt8}
    (hd : ms[pass]? = some data) :
    data :: x.lined (x.rcv.recvSeq + 1) x.behind = (ms.drop pass).take (1 + x.behind) ∧
      pass + 1 + x.behind ≤ ms.length := by
  have hlt := (List.getElem?_eq_some_iff.1 hd).1
  have hlen : pass + 1 + x.behind ≤ ms.length := by
    by_cases h0 : x.behind = 0
    · omega
    · have := (List.getElem?_eq_some_iff.1 (h.waiting (j := x.behind - 1) (by omega))).1
      omega
  refine ⟨List.ext_getElem? fun i => ?_, hlen⟩
  rw [List.getElem?_take]
  cases i with
  | zero =>
    rw [if_pos (by omega), List.getElem?_drop, Nat.add_zero, hd]
    rfl
  | succ i =>
    rw [List.getElem?_cons_succ, Rx.lined, List.getElem?_map]
    by_cases hi : i < x.behind
    · rw [List.getElem?_range hi, if_pos (by omega), List.getElem?_drop, Option.map_some,
        ← h.waiting hi]
      exact congrArg (ms[·]?) (by omega)
    · rw [List.getElem?_eq_none (by simpa using hi), if_neg (by omega)]
      rfl

/-- **A message arrives**: it is the expected one, or it is kept, or it comes too late. -/
theorem Rx.InOrder.arrives {c : Conn} {id : ChanId} {ch : Chan} (h : x.InOrder ms pass placed)
    (hok : x.Ok c id ch) {n : Nat} {data : List UInt8} (hd : ms[n]? = some data)
    (hfar : ms.length ≤ pass + ncOutgoingSlots) (hlate : pass < n + 2 ^ 15) :
    let x' := dataArrived id x (UInt16.ofNat n) data
    ∃ l, x'.queue = x.queue ++ l ∧
      ({ x' with rcv := x'.rcv.ack } : Rx).InOrder ms
        (pass + (x'.rcv.recvSeq - x.rcv.recvSeq).toNat) (placed ++ l) := by
  intro x'
  have hspec := dataArrived_spec (UInt16.ofNat n) data hok
  have hseq := dataArrived_recvSeq id x (UInt16.ofNat n) data
  have hn := (List.getElem?_eq_some_iff.1 hd).1
  obtain ⟨l, hq, hsub, -⟩ := hspec.queue
  refine ⟨l, hq, ?_⟩
  simp only [ncOutgoingSlots] at hfar
  by_cases hexp : UInt16.ofNat n = x.rcv.recvSeq
  · have he : n = pass := by
      rw [h.seq] at hexp
      exact eq_of_ofNat hexp (by omega) (by omega)
    subst he
    obtain ⟨hnext, hlen⟩ := h.passes hd
    have hbehind : x.behind ≤ ncReorderSlots :=
      waiting_le x.rcv.reorder ncReorderSlots (x.rcv.recvSeq + 1)
    simp only [ncReorderSlots] at hbehind
    rw [if_pos hexp] at hseq
    change x'.rcv.recvSeq = x.rcv.recvSeq + 1 + UInt16.ofNat x.behind at hseq
    have hseq' : x'.rcv.recvSeq = UInt16.ofNat (n + 1 + x.behind) := by
      rw [hseq, h.seq, ofNat_succ, ← UInt16.ofNat_add]
    have hcount : (x'.rcv.recvSeq - x.rcv.recvSeq).toNat = 1 + x.behind := by
      rw [hseq', h.seq, toNat_ofNat_sub]
      omega
    rw [hcount]
    have hexit : waits x'.rcv.reorder x'.rcv.recvSeq = false := by
      have he' : x' = chanDeliverReordered id { x.deliver id data with
          rcv := { (x.deliver id data).rcv with recvSeq := (x.deliver id data).rcv.recvSeq + 1 } } :=
        if_pos hexp
      rw [he']
      exact chanDeliverReordered_exit id _
    refine ⟨by rw [← Nat.add_assoc]; exact hseq', by omega, fun k hk => ?_, ?_, fun _ => ?_⟩
    · obtain ⟨hsame, hbytes⟩ : x'.rcv.reorder k = x.rcv.reorder k ∧ x'.slotBytes k = x.slotBytes k := by
        rcases hspec.slots k hk with hs | ⟨d, -, hne, -⟩
        · exact hs
        · exact absurd hexp hne
      obtain ⟨m, h1, h2, h3, h4, h5⟩ := h.slots k (hsame ▸ hk)
      have hkept : n + (1 + x.behind) < m := by
        by_contra hle
        by_cases hm : m = n + 1 + x.behind
        · -- the loop would have gone on
          have hw : waits x'.rcv.reorder x'.rcv.recvSeq = true := by
            simp only [waits, Bool.and_eq_true, beq_iff_eq]
            rw [hseq', ← hm, ← h4, hsame]
            exact ⟨hsame ▸ hk, h3⟩
          rw [hexit] at hw
          cases hw
        · have hclear := hspec.cleared data rfl hexp (m - n - 1) (by omega)
          have hslot : x.rcv.recvSeq + 1 + UInt16.ofNat (m - n - 1) = UInt16.ofNat m := by
            rw [h.seq, ofNat_succ, ← UInt16.ofNat_add]
            exact congrArg UInt16.ofNat (by omega)
          rw [hslot, ← h4] at hclear
          exact absurd (hk.symm.trans hclear) (by decide)
      refine ⟨m, hkept, by omega, ?_, h4, ?_⟩
      · exact (congrArg Reorder.seq hsame).trans h3
      · exact h5.trans (congrArg some hbytes.symm)
    · rw [List.take_add]
      refine h.placed.append ?_
      rw [← hnext]
      simpa [passed, hexp] using hsub
    · change ackFor x'.rcv.recvSeq = _
      rw [hseq', Nat.add_assoc]
  · rw [if_neg hexp] at hseq
    change x'.rcv.recvSeq = x.rcv.recvSeq at hseq
    have hl : l = [] := by
      rw [passed, if_neg hexp] at hsub
      exact List.sublist_nil.1 hsub
    have hcount : (x'.rcv.recvSeq - x.rcv.recvSeq).toNat = 0 := by
      rw [hseq, UInt16.sub_self]
      rfl
    rw [hcount, hl, List.append_nil, Nat.add_zero]
    refine ⟨hseq.trans h.seq, h.le, fun k hk => ?_, h.placed, fun _ => ?_⟩
    · rcases hspec.slots k hk with ⟨hsame, hbytes⟩ | ⟨d, hdd, -, hslot, h1, h2, hkeeps⟩
      · obtain ⟨m, h1, h2, h3, h4, h5⟩ := h.slots k (hsame ▸ hk)
        exact ⟨m, h1, h2, (congrArg Reorder.seq hsame).trans h3, h4,
          h5.trans (congrArg some hbytes.symm)⟩
      · cases hdd
        obtain ⟨⟨hpos, hlt⟩, -⟩ := hkeeps
        rw [h.seq, int16_sub (by omega) (by omega)] at hpos hlt
        exact ⟨n, by omega, by omega, h1, hslot, hd.trans (congrArg some h2.symm)⟩
    · change ackFor x'.rcv.recvSeq = _
      rw [hseq, h.seq]

end

end Netchan
