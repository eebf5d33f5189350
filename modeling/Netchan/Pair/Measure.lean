import Netchan.Pair.Sequence
import Netchan.Proof.Credit

/-!
# What a receiver holds, by length

A receiver and the messages of the other end, measured: no byte is looked at. `Receiver.Measured`
says that what waits in the reorder table, the fragments in the reassembly slots and the bytes
counted in `recv_buffered` are not more than the messages that were written under their numbers.

* `Receiver.InLine.arrives`: a whole message, and those that wait behind it.
* `Receiver.Measured.heard`: a DATA frame.
* `Receiver.Measured.read`: a read, with a buffer of any size.
-/

namespace Netchan

open Lib

/-! ## Parts of a message -/

/-- The length of the first messages of `ms`. -/
def lengthTo (ms : List (List UInt8)) (n : Nat) : Nat := (ms.take n).flatten.length

/-- The longest that part `idx` of a message of `len` bytes can be. -/
def partLen (fp len idx : Nat) : Nat := min (len - idx * fp) fp

/-- The fields of a DATA frame with a payload of `len` bytes are those of a part of message `n`. -/
structure SliceOf (fp : Nat) (ms : List (List UInt8)) (n : Nat) (data : List UInt8) (seq : UInt16)
    (idx total len : Nat) : Prop where
  number : seq = UInt16.ofNat n
  msg : ms[n]? = some data
  count : total = fragTotalOf fp data.length
  part : len ≤ partLen fp data.length idx

/-- A slot has parts of a message of `len` bytes. -/
structure FragAsm.Measured (f : FragAsm) (fp len : Nat) : Prop where
  total : f.total = fragTotalOf fp len
  parts : ∀ j, f.offsets j ≤ partLen fp len j

section
variable {fp len : Nat} {f : FragAsm}

theorem lengthTo_succ {ms : List (List UInt8)} {n : Nat} {data : List UInt8}
    (h : ms[n]? = some data) : lengthTo ms (n + 1) = lengthTo ms n + data.length := by
  rw [lengthTo, List.take_add_one, h]
  simp [lengthTo]

theorem lengthTo_le (ms : List (List UInt8)) (n : Nat) : lengthTo ms n ≤ ms.flatten.length :=
  (List.take_prefix n ms).flatten.length_le

theorem sum_parts (fp len n : Nat) : ((List.range n).map (partLen fp len)).sum ≤ min (n * fp) len := by
  induction n with
  | zero => simp
  | succ n ih =>
    rw [List.range_succ, List.map_append, List.sum_append, Nat.succ_mul]
    simp only [List.map_singleton, List.sum_singleton, partLen]
    omega

namespace FragAsm.Measured

theorem length_le (h : f.Measured fp len) : f.length ≤ len := by
  have hsum : f.length ≤ ((List.range f.total).map (partLen fp len)).sum :=
    List.sum_le_sum fun j _ => h.parts j
  exact hsum.trans ((sum_parts fp len f.total).trans (Nat.min_le_right ..))

theorem add (h : f.Measured fp len) {idx n : Nat} (hn : n ≤ partLen fp len idx) :
    (f.add idx n).Measured fp len := by
  refine ⟨h.total, fun j => ?_⟩
  by_cases hj : j = idx
  · subst hj
    simpa [FragAsm.add] using hn
  · simpa [FragAsm.add, Function.update_of_ne hj] using h.parts j

end FragAsm.Measured

end

/-! ## The receiver -/

/-- The messages in the reorder table are under numbers from `lo` on and below `hi`, and not longer
than those that were written. -/
def Receiver.Waiting (r : Receiver) (ms : List (List UInt8)) (lo hi : Nat) : Prop :=
  ∀ k, (r.reorder k).valid = true → ∃ n data, (lo ≤ n ∧ n < hi) ∧
    (r.reorder k).seq = UInt16.ofNat n ∧ k = reorderSlot (UInt16.ofNat n) ∧ ms[n]? = some data ∧
    (r.reorder k).len ≤ data.length

/-- A slot in use has parts of a message, and the numbers of not too many messages lie between it
and those that were passed. -/
def FragAsm.Gathers (fp : Nat) (ms : List (List UInt8)) (passed : Nat) (f : FragAsm) : Prop :=
  f.active = true → ∃ n data, passed < n + 2 ^ 15 ∧ f.seq = UInt16.ofNat n ∧ ms[n]? = some data ∧
    f.Measured fp data.length

/-- Of the first messages, `taken` bytes were read and the rest is in the queue, or was lost; and
`recv_buffered` counts what was not read. -/
def Receiver.Credits (r : Receiver) (ms : List (List UInt8)) (passed taken : Nat) : Prop :=
  ∃ total ≤ lengthTo ms passed, r.queuedBytes + taken ≤ total ∧
    r.recvBuffered + UInt32.ofNat taken = UInt32.ofNat total

/-- The receiver expects message `passed`, and those that wait have numbers from `lo` on. -/
structure Receiver.InLine (r : Receiver) (ms : List (List UInt8)) (passed lo hi taken : Nat) : Prop where
  seq : r.recvSeq = UInt16.ofNat passed
  le : passed ≤ ms.length
  waiting : r.Waiting ms lo hi
  credits : r.Credits ms passed taken

/-- A receiver that has passed the first messages of `ms`. -/
structure Receiver.Measured (r : Receiver) (fp : Nat) (ms : List (List UInt8)) (passed taken : Nat) :
    Prop where
  line : r.InLine ms passed (passed + 1) (passed + ncReorderSlots) taken
  ack : r.needAck = true → r.ackSeq = ackFor (UInt16.ofNat passed)
  frags : ∀ i, (r.frags i).Gathers fp ms passed

section
variable {r r' : Receiver} {x x' : Rx} {id : ChanId} {fp n passed lo hi taken : Nat}
  {ms ms' : List (List UInt8)} {data payload : List UInt8} {seq : UInt16}

/-! ### Credit -/

theorem Receiver.Credits.aside (h : r.Credits ms passed taken) (ha : r.Aside r') :
    r'.Credits ms passed taken := by
  obtain ⟨total, hle, hq, hc⟩ := h
  refine ⟨total, hle, ?_, ?_⟩
  · rw [queuedBytes, ha.queue]
    exact hq
  · rw [ha.buffered]
    exact hc

/-- **A delivery counts no more than the message that is passed.** -/
theorem Receiver.Credits.deliver (h : x.rcv.Credits ms passed taken) (id : ChanId)
    (hd : ms[passed]? = some data) (hlen : payload.length ≤ data.length) :
    (x.deliver id payload).rcv.Credits ms (passed + 1) taken := by
  obtain ⟨total, hle, hq, hc⟩ := h
  have hsucc := lengthTo_succ hd
  rcases deliver_cases x id payload with ⟨hr, b, fs, -, he⟩ | ⟨-, he⟩
  · rw [he]
    have hlist : (x.enqueued id payload b fs).rcv.recvQueue.toList =
        x.rcv.recvQueue.toList ++ [⟨some b, payload.length⟩] :=
      Ring.toList_push (by decide) hr.queue _
    have hsum : (x.enqueued id payload b fs).rcv.queuedBytes =
        x.rcv.queuedBytes + payload.length := by
      simp [queuedBytes, hlist]
    refine ⟨total + payload.length, by omega, by omega, ?_⟩
    rw [UInt32.ofNat_add, ← hc]
    simp only [Rx.enqueued]
    ac_rfl
  · rw [he]
    exact ⟨total, by omega, hq, hc⟩

/-- **A read takes off what it returns**, and at least that leaves the queue. -/
theorem Receiver.Credits.read (h : r.Credits ms passed taken) (hq : ¬ r.recvQueue.Empty)
    (buflen : Nat) :
    (readRcv r buflen).Credits ms passed (taken + min r.recvQueue.front.len buflen) := by
  obtain ⟨total, hle, hb, hc⟩ := h
  have hpop : r.recvQueue.toList = r.recvQueue.front :: (r.recvQueue.pop {}).toList :=
    Ring.toList_pop (by decide) hq {}
  have hsum : r.queuedBytes = r.recvQueue.front.len + (readRcv r buflen).queuedBytes := by
    simp only [queuedBytes, readRcv]
    rw [hpop, List.map_cons, List.sum_cons]
  refine ⟨total, hle, by omega, ?_⟩
  simp only [readRcv]
  rw [UInt32.ofNat_add, ← hc]
  grind

theorem Receiver.Credits.grow (h : r.Credits ms passed taken) (hle : passed ≤ ms.length)
    (hm : ms <+: ms') : r.Credits ms' passed taken := by
  obtain ⟨total, ht, hq, hc⟩ := h
  obtain ⟨l, rfl⟩ := hm
  refine ⟨total, ?_, hq, hc⟩
  rw [lengthTo, List.take_append_of_le_length hle]
  exact ht

/-! ### The reorder table -/

theorem Receiver.Waiting.mono {lo' hi' : Nat} (h : r.Waiting ms lo hi) (hlo : lo' ≤ lo)
    (hhi : hi ≤ hi') : r.Waiting ms lo' hi' := by
  intro k hk
  obtain ⟨n, data, ⟨h1, h2⟩, hrest⟩ := h k hk
  exact ⟨n, data, ⟨by omega, by omega⟩, hrest⟩

/-- The message that leaves the table was the one with the lowest number. -/
theorem Receiver.Waiting.next (h : r.Waiting ms passed hi)
    (hr : ∀ k, k ≠ reorderSlot (.ofNat passed) → r'.reorder k = r.reorder k)
    (hgone : (r'.reorder (reorderSlot (.ofNat passed))).valid = false) :
    r'.Waiting ms (passed + 1) hi := by
  intro k hk
  have hne : k ≠ reorderSlot (.ofNat passed) := by
    rintro rfl
    rw [hgone] at hk
    cases hk
  rw [hr k hne] at hk ⊢
  obtain ⟨n, data, ⟨h1, h2⟩, hs, hslot, hrest⟩ := h k hk
  refine ⟨n, data, ⟨Nat.lt_of_le_of_ne h1 ?_, h2⟩, hs, hslot, hrest⟩
  rintro rfl
  exact hne hslot

/-! ### Delivery -/

/-- **A round of the delivery loop** passes the expected message. -/
theorem Receiver.InLine.next (h : x.rcv.InLine ms passed passed hi taken)
    (hw : waits x.rcv.reorder x.rcv.recvSeq = true) (hfar : hi ≤ passed + 2 ^ 16) (id : ChanId) :
    (deliverNext id x).rcv.InLine ms (passed + 1) (passed + 1) hi taken ∧ passed < hi := by
  obtain ⟨hseq, hreorder⟩ := deliverNext_seq id x
  simp only [waits, Bool.and_eq_true, beq_iff_eq] at hw
  obtain ⟨n, data, ⟨h1, h2⟩, hs, -, hd, hlen⟩ := h.waiting _ hw.1
  have hn : n = passed := by
    refine eq_of_ofNat ?_ (by omega) (by omega)
    rw [← hs, hw.2, h.seq]
  subst hn
  refine ⟨⟨?_, (List.getElem?_eq_some_iff.1 hd).1, ?_, ?_⟩, h2⟩
  · rw [hseq, h.seq, ofNat_succ]
  · refine h.waiting.next (fun k hk => ?_) ?_
    · rw [hreorder, h.seq]
      exact Function.update_of_ne hk ..
    · rw [hreorder, h.seq]
      simp
  · have hread : (x.pool.read (x.rcv.reorder (reorderSlot x.rcv.recvSeq)).buf 0
        (x.rcv.reorder (reorderSlot x.rcv.recvSeq)).len).length ≤ data.length := by
      simpa [Pool.read] using hlen
    have hcredit := h.credits.deliver id hd hread
    exact hcredit.aside ⟨rfl, rfl, rfl, rfl⟩

/-- **The delivery loop**, by induction on its rounds. -/
theorem Receiver.InLine.deliverLoop (id : ChanId) : ∀ (fuel : Nat) {x : Rx} {passed : Nat},
    x.rcv.InLine ms passed passed hi taken → passed ≤ hi → hi ≤ passed + 2 ^ 16 →
    ∃ passed', passed ≤ passed' ∧ passed' ≤ hi ∧
      (Netchan.deliverLoop id fuel x).rcv.InLine ms passed' passed' hi taken
  | 0, _, passed, h, hle, _ => ⟨passed, Nat.le_refl _, hle, h⟩
  | fuel + 1, x, passed, h, hle, hfar => by
    unfold Netchan.deliverLoop
    split
    · rename_i hw
      obtain ⟨hnext, hlt⟩ := h.next hw hfar id
      obtain ⟨passed', h1, h2, h3⟩ := deliverLoop id fuel hnext hlt (by omega)
      exact ⟨passed', by omega, h2, h3⟩
    · exact ⟨passed, Nat.le_refl _, hle, h⟩

/-- Where the loop ends, no message waits that is expected. -/
theorem Receiver.InLine.exit (h : r.InLine ms passed passed hi taken)
    (hw : waits r.reorder r.recvSeq = false) : r.InLine ms passed (passed + 1) hi taken := by
  refine { h with waiting := fun k hk => ?_ }
  obtain ⟨n, data, ⟨h1, h2⟩, hs, hslot, hrest⟩ := h.waiting k hk
  refine ⟨n, data, ⟨Nat.lt_of_le_of_ne h1 ?_, h2⟩, hs, hslot, hrest⟩
  rintro rfl
  have hyes : waits r.reorder r.recvSeq = true := by
    simp only [waits, Bool.and_eq_true, beq_iff_eq]
    rw [h.seq, ← hslot]
    exact ⟨hk, hs⟩
  rw [hyes] at hw
  cases hw

/-- A message that is ahead is kept, if there is room. -/
theorem Receiver.Waiting.store (h : x.rcv.Waiting ms lo (passed + ncReorderSlots))
    (hseq : x.rcv.recvSeq = UInt16.ofNat passed) (hlo : lo ≤ passed + 1) (hd : ms[n]? = some data)
    (hlen : payload.length ≤ data.length) (hlate : passed < n + 2 ^ 15) (hfar : n < passed + 2 ^ 15) :
    (reorderStore x (UInt16.ofNat n) payload).rcv.Waiting ms lo (passed + ncReorderSlots) := by
  unfold reorderStore
  dsimp only
  split
  · rename_i hdiff
    rw [hseq, int16_sub hfar (by omega)] at hdiff
    split
    · split
      · exact h
      · intro k hk
        by_cases he : k = reorderSlot (.ofNat n)
        · subst he
          simp only [Function.update_self]
          exact ⟨n, data, ⟨by omega, by omega⟩, rfl, rfl, hd, hlen⟩
        · simp only [Function.update_of_ne he] at hk ⊢
          exact h k hk
    · exact h
  · exact h

theorem reorderStore_aside (x : Rx) (seq : UInt16) (data : List UInt8) :
    x.rcv.Aside (reorderStore x seq data).rcv ∧
      (reorderStore x seq data).rcv.recvSeq = x.rcv.recvSeq := by
  unfold reorderStore
  dsimp only
  repeat' split
  all_goals exact ⟨⟨rfl, rfl, rfl, rfl⟩, rfl⟩

/-- **A whole message arrives**: it is the expected one, or it is kept, or it comes too late. -/
theorem Receiver.InLine.arrives
    (h : x.rcv.InLine ms passed (passed + 1) (passed + ncReorderSlots) taken) (id : ChanId)
    (hd : ms[n]? = some data) (hlen : payload.length ≤ data.length) (hlate : passed < n + 2 ^ 15)
    (hfar : n < passed + 2 ^ 15) :
    ∃ passed', passed ≤ passed' ∧ passed' ≤ passed + ncReorderSlots ∧
      (dataArrived id x (UInt16.ofNat n) payload).rcv.InLine ms passed' (passed' + 1)
        (passed' + ncReorderSlots) taken := by
  unfold dataArrived
  split
  · rename_i hexp
    have hn : n = passed := by
      rw [h.seq] at hexp
      exact eq_of_ofNat hexp (by omega) (by omega)
    subst hn
    obtain ⟨hs, hr⟩ := deliver_seq x id payload
    have hnext : Receiver.InLine { (x.deliver id payload).rcv with
        recvSeq := (x.deliver id payload).rcv.recvSeq + 1 } ms (n + 1) (n + 1)
          (n + ncReorderSlots) taken := by
      refine ⟨?_, (List.getElem?_eq_some_iff.1 hd).1, ?_,
        (h.credits.deliver id hd hlen).aside ⟨rfl, rfl, rfl, rfl⟩⟩
      · dsimp only
        rw [hs, h.seq, ofNat_succ]
      · simp only [Receiver.Waiting, hr]
        exact h.waiting
    obtain ⟨passed', h1, h2, h3⟩ := Receiver.InLine.deliverLoop id ncReorderSlots
      (x := { x.deliver id payload with rcv := { (x.deliver id payload).rcv with
        recvSeq := (x.deliver id payload).rcv.recvSeq + 1 } }) hnext
      (by simp only [ncReorderSlots]; omega) (by simp only [ncReorderSlots]; omega)
    have hexit := h3.exit (chanDeliverReordered_exit id _)
    exact ⟨passed', by omega, h2,
      { hexit with waiting := hexit.waiting.mono (Nat.le_refl _) (by omega) }⟩
  · obtain ⟨ha, hs⟩ := reorderStore_aside x (UInt16.ofNat n) payload
    refine ⟨passed, Nat.le_refl _, by omega, hs.trans h.seq, h.le, ?_, h.credits.aside ha⟩
    exact h.waiting.store h.seq (Nat.le_refl _) hd hlen hlate hfar

/-! ### Fragments -/

theorem FragAsm.Gathers.mono {f : FragAsm} {passed' : Nat} (h : f.Gathers fp ms passed)
    (hp : passed' ≤ passed) : f.Gathers fp ms passed' := by
  intro ha
  obtain ⟨n, data, h1, hrest⟩ := h ha
  exact ⟨n, data, by omega, hrest⟩

/-- A slot of the message that a fragment belongs to has parts of that message. -/
theorem FragAsm.Gathers.own {f : FragAsm} (h : f.Gathers fp ms passed) (ha : f.active = true)
    (hseq : f.seq = UInt16.ofNat n) (hd : ms[n]? = some data)
    (hnear : ms.length ≤ passed + ncOutgoingSlots) (hlate : passed < n + 2 ^ 15) :
    f.Measured fp data.length := by
  obtain ⟨m, data', hm, hs, hd', hmeas⟩ := h ha
  have hn := (List.getElem?_eq_some_iff.1 hd).1
  have hm' := (List.getElem?_eq_some_iff.1 hd').1
  simp only [ncOutgoingSlots] at hnear
  obtain rfl : m = n := eq_of_ofNat (hs.symm.trans hseq) (by omega) (by omega)
  rw [hd] at hd'
  cases hd'
  exact hmeas

theorem FragAsm.Measured.empty {total : Nat} {buf : Option BufIdx} {active : Bool}
    (ht : total = fragTotalOf fp data.length) :
    FragAsm.Measured { seq, total, active, buf } fp data.length :=
  ⟨ht, fun _ => Nat.zero_le _⟩

theorem fragStore_aside (fp : Nat) (x : Rx) (seq : UInt16) (idx total : Nat) (payload : List UInt8) :
    let r := (fragStore fp x seq idx total payload).1.rcv
    x.rcv.Aside r ∧ r.recvSeq = x.rcv.recvSeq ∧ r.reorder = x.rcv.reorder := by
  have hslot {i : Fin ncFragSlots} {x' : Rx} (hs : fragSlot x seq total = some (i, x')) :
      x.rcv.Aside x'.rcv ∧ x'.rcv.recvSeq = x.rcv.recvSeq ∧ x'.rcv.reorder = x.rcv.reorder := by
    rcases fragSlot_cases hs with ⟨rfl, -, -⟩ | ⟨b, p, -, -, -, -, rfl⟩
    · exact ⟨⟨rfl, rfl, rfl, rfl⟩, rfl, rfl⟩
    · exact ⟨⟨rfl, rfl, rfl, rfl⟩, rfl, rfl⟩
  rcases fragStore_cases fp x seq idx total payload with ⟨-, he⟩ | ⟨i, x', hs, h'⟩
  · rw [he]
    exact ⟨⟨rfl, rfl, rfl, rfl⟩, rfl, rfl⟩
  · obtain ⟨⟨h1, h2, h3, h4⟩, h5, h6⟩ := hslot hs
    rcases h' with ⟨-, he⟩ | ⟨-, ⟨-, he⟩ | ⟨-, he⟩⟩ <;> rw [he] <;>
      exact ⟨⟨h1, h2, h3, h4⟩, h5, h6⟩

/-- **A completed message** is not longer than the one that was written. -/
theorem fragStore_length (pitch : Nat) {i : Fin ncFragSlots} {pos idx total : Nat}
    (h : ∀ i, (x.rcv.frags i).Gathers fp ms passed)
    (hs : SliceOf fp ms n data seq idx total payload.length)
    (hnear : ms.length ≤ passed + ncOutgoingSlots) (hlate : passed < n + 2 ^ 15)
    (he : (fragStore pitch x seq idx total payload).2 = some (i, pos)) : pos ≤ data.length := by
  rcases fragStore_cases pitch x seq idx total payload with ⟨-, hf⟩ | ⟨j, x', hslot, hcases⟩
  · rw [hf] at he
    cases he
  have hmeas : (x'.rcv.frags j).Measured fp data.length := by
    rcases fragSlot_cases hslot with ⟨rfl, ha, hq⟩ | ⟨b, p, -, -, -, -, rfl⟩
    · exact (h j).own ha (hq.trans hs.number) hs.msg hnear hlate
    · simp only [Function.update_self]
      exact .empty hs.count
  rcases hcases with ⟨-, hf⟩ | ⟨-, ⟨-, hf⟩ | ⟨-, hf⟩⟩ <;> rw [hf] at he
  · cases he
  · cases he
  · obtain ⟨rfl, rfl⟩ := Prod.mk.inj (Option.some.inj he)
    exact (hmeas.add hs.part).length_le

/-- The reassembly slots are not older than the reorder window can tell. -/
def Receiver.FragsRecent (r : Receiver) : Prop :=
  ∀ i, (r.frags i).active = true → -2 ^ 14 ≤ int16 ((r.frags i).seq - r.recvSeq)

instance (r : Receiver) : Decidable r.FragsRecent := inferInstanceAs (Decidable (∀ _, _))

theorem Receiver.Measured.recent (h : r.Measured fp ms passed taken) (hr : r.FragsRecent)
    (hnear : ms.length ≤ passed + ncOutgoingSlots) (i : Fin ncFragSlots) :
    (r.frags i).Gathers fp ms (passed + ncReorderSlots) := by
  intro ha
  obtain ⟨n, data, hlate, hs, hd, hmeas⟩ := h.frags i ha
  have hn := (List.getElem?_eq_some_iff.1 hd).1
  have hage := hr i ha
  simp only [ncOutgoingSlots] at hnear
  rw [hs, h.line.seq, int16_sub (by omega) (by omega)] at hage
  simp only [ncReorderSlots]
  exact ⟨n, data, by omega, hs, hd, hmeas⟩

/-! ### DATA frames -/

theorem Receiver.InLine.slots (h : r.InLine ms passed lo hi taken) (ha : r.Aside r')
    (hs : r'.recvSeq = r.recvSeq) (hr : r'.reorder = r.reorder) :
    r'.InLine ms passed lo hi taken := by
  refine ⟨hs.trans h.seq, h.le, ?_, h.credits.aside ha⟩
  simp only [Receiver.Waiting, hr]
  exact h.waiting

theorem partLen_le (fp len idx : Nat) : partLen fp len idx ≤ len :=
  (Nat.min_le_left ..).trans (Nat.sub_le ..)

/-- **A DATA frame on the channel**, with a part of a message. -/
theorem Receiver.Measured.heard {c : Conn} {ch : Chan} {idx total : Nat}
    (h : ch.rcv.Measured fp ms passed taken) (ht : ch.type ≠ .unreliable)
    (hs : SliceOf fp ms n data seq idx total payload.length)
    (hnear : ms.length ≤ passed + ncOutgoingSlots) (hlate : passed + ncReorderSlots < n + 2 ^ 15)
    (hr : ch.rcv.FragsRecent) :
    ∃ passed', passed ≤ passed' ∧ passed' ≤ passed + ncReorderSlots ∧
      (dataRcv c id ch seq idx total payload).Measured fp ms passed' taken := by
  have hn := (List.getElem?_eq_some_iff.1 hs.msg).1
  have hlate' : passed < n + 2 ^ 15 := by omega
  have hfar : n < passed + 2 ^ 15 := by
    simp only [ncOutgoingSlots] at hnear
    omega
  have hlen : payload.length ≤ data.length := hs.part.trans (partLen_le ..)
  have hfrags := h.recent hr hnear
  have hline : ∃ passed', passed ≤ passed' ∧ passed' ≤ passed + ncReorderSlots ∧
      (dataReliable (maxFragPayload c) id (c.rx ch) seq idx total payload).rcv.InLine ms passed'
        (passed' + 1) (passed' + ncReorderSlots) taken := by
    rw [hs.number]
    unfold dataReliable
    split
    · exact Receiver.InLine.arrives (x := c.rx ch) h.line id hs.msg hlen hlate' hfar
    · obtain ⟨ha, h1, h2⟩ :=
        fragStore_aside (maxFragPayload c) (c.rx ch) (UInt16.ofNat n) idx total payload
      have hpos {i : Fin ncFragSlots} {pos : Nat} (he : (fragStore (maxFragPayload c) (c.rx ch)
          (UInt16.ofNat n) idx total payload).2 = some (i, pos)) : pos ≤ data.length :=
        fragStore_length (maxFragPayload c) h.frags (hs.number ▸ hs) hnear hlate' he
      have hin := h.line.slots ha h1 h2
      split
      · rename_i x' he
        rw [he] at hin
        exact ⟨passed, Nat.le_refl _, Nat.le_add_right .., hin⟩
      · rename_i x' i pos he
        rw [he] at hin hpos
        have hall : (assembled x' i pos).length ≤ data.length := by
          simpa [assembled, Pool.read] using hpos rfl
        obtain ⟨passed', h1, h2, h3⟩ := hin.arrives id hs.msg hall hlate' hfar
        exact ⟨passed', h1, h2, h3.slots ⟨rfl, rfl, rfl, rfl⟩ rfl rfl⟩
  obtain ⟨passed', h1, h2, h3⟩ := hline
  have hrcv : dataRcv c id ch seq idx total payload =
      (dataReliable (maxFragPayload c) id (c.rx ch) seq idx total payload).rcv.ack := if_neg ht
  refine ⟨passed', h1, h2, ?_, fun _ => ?_, fun i => ?_⟩
  · rw [hrcv]
    exact h3.slots ⟨rfl, rfl, rfl, rfl⟩ rfl rfl
  · rw [hrcv]
    change ackFor _ = _
    rw [h3.seq]
  · refine (data_frags (P := FragAsm.Gathers fp ms (passed + ncReorderSlots))
      (fun ha => by cases ha)
      (fun b _ _ _ => ⟨n, data, hlate, hs.number, hs.msg, .empty hs.count⟩)
      (fun f _ hf ha hseq _ _ => ⟨n, data, hlate, hseq.trans hs.number, hs.msg, ?_⟩) hfrags i).mono h2
    exact ((hf.mono (Nat.le_add_right ..)).own ha (hseq.trans hs.number) hs.msg hnear hlate').add hs.part

/-! ### Other steps -/

theorem Receiver.Measured.empty (fp : Nat) (ms : List (List UInt8)) (w : UInt32) :
    Receiver.Measured { recvWindow := w } fp ms 0 0 :=
  ⟨⟨rfl, Nat.zero_le _, nofun, 0, Nat.zero_le _, Nat.le_refl 0, rfl⟩, nofun, nofun⟩

theorem Receiver.Measured.grow (h : r.Measured fp ms passed taken) (hm : ms <+: ms') :
    r.Measured fp ms' passed taken := by
  refine ⟨⟨h.line.seq, h.line.le.trans hm.length_le, fun k hk => ?_, h.line.credits.grow h.line.le hm⟩,
    h.ack, fun i hi => ?_⟩
  · obtain ⟨n, data, h1, h2, h3, h4, h5⟩ := h.line.waiting k hk
    exact ⟨n, data, h1, h2, h3, getElem?_of_prefix hm h4, h5⟩
  · obtain ⟨n, data, h1, h2, h3, h4⟩ := h.frags i hi
    exact ⟨n, data, h1, h2, getElem?_of_prefix hm h3, h4⟩

/-- **A read.** -/
theorem Receiver.Measured.read (h : r.Measured fp ms passed taken) (hq : ¬ r.recvQueue.Empty)
    (buflen : Nat) :
    (readRcv r buflen).Measured fp ms passed (taken + min r.recvQueue.front.len buflen) :=
  ⟨⟨h.line.seq, h.line.le, h.line.waiting, h.line.credits.read hq buflen⟩, h.ack, h.frags⟩

theorem Receiver.Measured.flags (h : r.Measured fp ms passed taken) (hf : r.Flagged r') :
    r'.Measured fp ms passed taken := by
  obtain ⟨a, w, rfl, ha, -⟩ := hf
  exact ⟨⟨h.line.seq, h.line.le, h.line.waiting, h.line.credits⟩, fun hn => h.ack (ha hn), h.frags⟩

/-- **What is buffered**, if not more than a window was written and is not read yet. -/
theorem Receiver.Measured.buffered (h : r.Measured fp ms passed taken) {window : UInt32}
    (hw : ms.flatten.length ≤ taken + window.toNat) : r.recvBuffered ≤ window := by
  obtain ⟨total, hle, hq, hc⟩ := h.line.credits
  have hall := lengthTo_le ms passed
  have hwin := window.toNat_lt
  have hsub : r.recvBuffered = UInt32.ofNat (total - taken) := by
    have hsplit : UInt32.ofNat total = UInt32.ofNat (total - taken) + UInt32.ofNat taken := by
      rw [← UInt32.ofNat_add, Nat.sub_add_cancel (by omega)]
    rw [hsplit] at hc
    exact (UInt32.add_left_inj _).1 hc
  rw [hsub, UInt32.le_iff_toNat_le, UInt32.toNat_ofNat_of_lt' (by simp only [UInt32.size]; omega)]
  omega

end

end Netchan
