import Netchan.Proof.Reassembly

/-!
# Acknowledgements

What the receiver of a channel has heard, and what it acknowledges. `process_data` records
`recv_seq - 1`, but 0 when `recv_seq` is 0: on a channel that has passed no message yet, and again
whenever the sequence number wraps, that acknowledges a message that may not have arrived.
`ack_sound` shows that the acknowledgements are right along every run in which no DATA frame leaves
the next expected sequence number at 0.
-/

namespace Netchan

open Lib

/-! ## The next expected sequence number -/

/-- The messages that wait in the reorder table from `seq` on without a gap, counted up to
`fuel`. -/
def waiting (reorder : Fin ncReorderSlots → Reorder) : Nat → UInt16 → Nat
  | 0, _ => 0
  | fuel + 1, seq => if waits reorder seq then waiting reorder fuel (seq + 1) + 1 else 0

theorem waiting_le (reorder : Fin ncReorderSlots → Reorder) : ∀ (fuel : Nat) (seq : UInt16),
    waiting reorder fuel seq ≤ fuel
  | 0, _ => Nat.le_refl _
  | fuel + 1, seq => by
    unfold waiting
    split
    · have := waiting_le reorder fuel (seq + 1)
      omega
    · omega

/-- The frame is, or completes, the message with its sequence number. -/
def completes (fp : Nat) (x : Rx) (seq : UInt16) (idx total len : Nat) : Bool :=
  total ≤ 1 || (completedLen fp x seq idx total len).isSome

/-- The sequence number a reliable channel expects after a DATA frame. -/
def nextSeq (fp : Nat) (x : Rx) (seq : UInt16) (idx total len : Nat) : UInt16 :=
  if seq = x.rcv.recvSeq ∧ completes fp x seq idx total len then
    x.rcv.recvSeq + 1 +
      UInt16.ofNat (waiting x.rcv.reorder ncReorderSlots (x.rcv.recvSeq + 1))
  else x.rcv.recvSeq

theorem reorderSlot_add (s : UInt16) (j : Nat) :
    reorderSlot (s + UInt16.ofNat j) = Fin.ofNat _ (s.toNat + j) := by
  apply Fin.ext
  simp only [reorderSlot, Fin.ofNat, UInt16.toNat_add, UInt16.toNat_ofNat', ncReorderSlots]
  omega

theorem reorderSlot_ne (s : UInt16) {j : Nat} (h0 : 0 < j) (h1 : j < ncReorderSlots) :
    reorderSlot (s + UInt16.ofNat j) ≠ reorderSlot s := by
  rw [reorderSlot_add, reorderSlot, ne_eq, Fin.ext_iff]
  simp only [Fin.ofNat, ncReorderSlots] at h1 ⊢
  omega

theorem add_one_add_ofNat (s : UInt16) (j : Nat) :
    s + 1 + UInt16.ofNat j = s + UInt16.ofNat (j + 1) := by
  rw [← ofNat_succ, UInt16.add_assoc, UInt16.add_comm 1]

/-- The slot of a passed message does not matter for the ones behind it. -/
theorem waiting_update (reorder : Fin ncReorderSlots → Reorder) (s : UInt16) (e : Reorder) :
    ∀ (fuel j : Nat), 0 < j → j + fuel ≤ ncReorderSlots →
      waiting (Function.update reorder (reorderSlot s) e) fuel (s + UInt16.ofNat j) =
        waiting reorder fuel (s + UInt16.ofNat j)
  | 0, _, _, _ => rfl
  | fuel + 1, j, h0, h1 => by
    have hw : waits (Function.update reorder (reorderSlot s) e) (s + UInt16.ofNat j) =
        waits reorder (s + UInt16.ofNat j) := by
      simp only [waits, Function.update_of_ne (reorderSlot_ne s h0 (by omega))]
    unfold waiting
    rw [hw, UInt16.add_assoc, ofNat_succ, waiting_update reorder s e fuel (j + 1) (by omega) (by omega)]

theorem chanRecvEnqueue_seq (x : Rx) (data : List UInt8) :
    (chanRecvEnqueue x data).2.rcv.recvSeq = x.rcv.recvSeq ∧
      (chanRecvEnqueue x data).2.rcv.reorder = x.rcv.reorder := by
  unfold chanRecvEnqueue
  dsimp only
  repeat' split
  all_goals exact ⟨rfl, rfl⟩

theorem deliver_seq (x : Rx) (id : ChanId) (data : List UInt8) :
    (x.deliver id data).rcv.recvSeq = x.rcv.recvSeq ∧
      (x.deliver id data).rcv.reorder = x.rcv.reorder :=
  chanRecvEnqueue_seq x data

theorem deliverNext_seq (id : ChanId) (x : Rx) :
    (deliverNext id x).rcv.recvSeq = x.rcv.recvSeq + 1 ∧
      (deliverNext id x).rcv.reorder = Function.update x.rcv.reorder (reorderSlot x.rcv.recvSeq)
        { x.rcv.reorder (reorderSlot x.rcv.recvSeq) with buf := none, valid := false } := by
  unfold deliverNext
  dsimp only
  rw [(deliver_seq x id _).1, (deliver_seq x id _).2]
  exact ⟨rfl, rfl⟩

/-- **In-order delivery passes the messages that wait without a gap.** -/
theorem deliverLoop_seq (id : ChanId) : ∀ (fuel : Nat) (x : Rx), fuel ≤ ncReorderSlots →
    (deliverLoop id fuel x).rcv.recvSeq =
      x.rcv.recvSeq + UInt16.ofNat (waiting x.rcv.reorder fuel x.rcv.recvSeq)
  | 0, x, _ => by simp [deliverLoop, waiting]
  | fuel + 1, x, h => by
    unfold deliverLoop waiting
    split
    · rw [deliverLoop_seq id fuel _ (by omega), (deliverNext_seq id x).1, (deliverNext_seq id x).2,
        add_one_add_ofNat]
      have := waiting_update x.rcv.reorder x.rcv.recvSeq
        { x.rcv.reorder (reorderSlot x.rcv.recvSeq) with buf := none, valid := false } fuel 1
        (by omega) (by omega)
      rw [show x.rcv.recvSeq + 1 = x.rcv.recvSeq + UInt16.ofNat 1 from rfl, this]
    · simp

theorem reorderStore_recvSeq (x : Rx) (seq : UInt16) (data : List UInt8) :
    (reorderStore x seq data).rcv.recvSeq = x.rcv.recvSeq := by
  unfold reorderStore
  dsimp only
  repeat' split
  all_goals rfl

theorem dataArrived_recvSeq (id : ChanId) (x : Rx) (seq : UInt16) (data : List UInt8) :
    (dataArrived id x seq data).rcv.recvSeq =
      if seq = x.rcv.recvSeq then
        x.rcv.recvSeq + 1 +
          UInt16.ofNat (waiting x.rcv.reorder ncReorderSlots (x.rcv.recvSeq + 1))
      else x.rcv.recvSeq := by
  unfold dataArrived
  split
  · rw [chanDeliverReordered, deliverLoop_seq id _ _ (Nat.le_refl _)]
    dsimp only
    rw [(deliver_seq x id data).1, (deliver_seq x id data).2]
  · exact reorderStore_recvSeq x seq data

/-- The reassembly block leaves the sequence state alone, and completes a message when
`completedLen` says so. -/
theorem fragStore_seq (fp : Nat) (x : Rx) (seq : UInt16) (idx total : Nat) (payload : List UInt8) :
    (fragStore fp x seq idx total payload).1.rcv.recvSeq = x.rcv.recvSeq ∧
      (fragStore fp x seq idx total payload).1.rcv.reorder = x.rcv.reorder ∧
      (fragStore fp x seq idx total payload).2.map Prod.snd =
        completedLen fp x seq idx total payload.length := by
  unfold completedLen
  rcases fragStore_cases fp x seq idx total payload with ⟨hs, he⟩ | ⟨i, x', hs, h'⟩
  · rw [he, hs]
    exact ⟨rfl, rfl, rfl⟩
  have hx : x'.rcv.recvSeq = x.rcv.recvSeq ∧ x'.rcv.reorder = x.rcv.reorder := by
    rcases fragSlot_cases hs with ⟨rfl, -, -⟩ | ⟨b, p, -, -, -, -, rfl⟩ <;> exact ⟨rfl, rfl⟩
  rw [hs]
  dsimp only
  rcases h' with ⟨ht, he⟩ | ⟨ht, ⟨hg, he⟩ | ⟨hg, he⟩⟩
  · rw [he, if_neg fun h => ht h.1]
    exact ⟨hx.1, hx.2, rfl⟩
  · rw [he, if_neg fun h => hg h.2]
    exact ⟨hx.1, hx.2, rfl⟩
  · rw [he, if_pos ⟨ht, hg⟩]
    exact ⟨hx.1, hx.2, rfl⟩

/-- **The expected sequence number after a DATA frame**, from the state before it. -/
theorem dataReliable_recvSeq (fp : Nat) (id : ChanId) (x : Rx) (seq : UInt16) (idx total : Nat)
    (payload : List UInt8) :
    (dataReliable fp id x seq idx total payload).rcv.recvSeq =
      nextSeq fp x seq idx total payload.length := by
  unfold dataReliable nextSeq completes
  by_cases ht : total ≤ 1
  · rw [if_pos ht, dataArrived_recvSeq]
    simp [ht]
  · rw [if_neg ht]
    obtain ⟨h1, h2, h3⟩ := fragStore_seq fp x seq idx total payload
    split
    · rename_i x' he
      rw [he] at h1 h3
      simpa [ht, ← h3] using h1
    · rename_i x' i pos he
      rw [he] at h1 h2 h3
      show (dataArrived id x' seq _).rcv.recvSeq = _
      rw [dataArrived_recvSeq, h1, h2]
      simp [ht, ← h3]

/-! ## The loop's exit -/

/-- The number of messages in the reorder table. -/
def validCount (reorder : Fin ncReorderSlots → Reorder) : Nat :=
  (List.finRange ncReorderSlots).countP fun k => (reorder k).valid

theorem validCount_update {reorder : Fin ncReorderSlots → Reorder} {k : Fin ncReorderSlots}
    {e : Reorder} (hk : (reorder k).valid = true) (he : e.valid = false) :
    validCount (Function.update reorder k e) + 1 = validCount reorder := by
  have aux : ∀ l : List (Fin ncReorderSlots), l.Nodup →
      l.countP (fun j => (Function.update reorder k e j).valid) + (if k ∈ l then 1 else 0) =
        l.countP fun j => (reorder j).valid := by
    intro l
    induction l with
    | nil => simp
    | cons j l ih =>
      intro hn
      obtain ⟨hj, hn⟩ := List.nodup_cons.1 hn
      have ih := ih hn
      by_cases hkj : k = j
      · subst hkj
        simp [hj] at ih
        simp [hk, he, ih]
      · have hjk : j ≠ k := fun h => hkj h.symm
        simp only [List.countP_cons, Function.update_of_ne hjk, List.mem_cons, hkj, false_or]
        omega
  have := aux _ (List.nodup_finRange ncReorderSlots)
  rwa [if_pos (List.mem_finRange k)] at this

theorem deliverLoop_exit (id : ChanId) : ∀ (fuel : Nat) (x : Rx),
    validCount x.rcv.reorder ≤ fuel →
      waits (deliverLoop id fuel x).rcv.reorder (deliverLoop id fuel x).rcv.recvSeq = false
  | 0, x, h => by
    have h0 := List.countP_eq_zero.1 (Nat.le_zero.1 h) (reorderSlot x.rcv.recvSeq)
      (List.mem_finRange _)
    simp only [Bool.not_eq_true] at h0
    simp [deliverLoop, waits, h0]
  | fuel + 1, x, h => by
    unfold deliverLoop
    split
    · rename_i hw
      refine deliverLoop_exit id fuel _ ?_
      simp only [waits, Bool.and_eq_true] at hw
      have := validCount_update (e := { x.rcv.reorder (reorderSlot x.rcv.recvSeq) with
        buf := none, valid := false }) hw.1 rfl
      rw [(deliverNext_seq id x).2]
      omega
    · rename_i hw
      simpa using hw

/-- **The loop of `chan_deliver_reordered` has reached its exit** after a round for each slot. -/
theorem chanDeliverReordered_exit (id : ChanId) (x : Rx) :
    waits (chanDeliverReordered id x).rcv.reorder (chanDeliverReordered id x).rcv.recvSeq =
      false := by
  refine deliverLoop_exit id _ x ?_
  have := List.countP_le_length (p := fun k => (x.rcv.reorder k).valid)
    (l := List.finRange ncReorderSlots)
  simpa [validCount] using this

/-! ## What has been heard -/

/-- Fragment `j` of message `seq` reached the channel. -/
def FragHeard (sts : List Step) (id : ChanId) (seq : UInt16) (j : Nat) : Prop :=
  ∃ env t payload, 1 < t ∧ Step.frame env (.data id seq j t payload) ∈ sts

/-- Message `seq` reached the channel, whole or in all its fragments. -/
def MsgHeard (sts : List Step) (id : ChanId) (seq : UInt16) : Prop :=
  (∃ env j t payload, t ≤ 1 ∧ Step.frame env (.data id seq j t payload) ∈ sts) ∨
    ∃ total, 1 < total ∧ ∀ j < total, FragHeard sts id seq j

section
variable {sts : List Step} {id : ChanId} {seq : UInt16}

theorem FragHeard.later {j : Nat} (st : Step) (h : FragHeard sts id seq j) :
    FragHeard (sts ++ [st]) id seq j := by
  obtain ⟨env, t, payload, ht, hm⟩ := h
  exact ⟨env, t, payload, ht, List.mem_append_left _ hm⟩

theorem MsgHeard.later (st : Step) (h : MsgHeard sts id seq) : MsgHeard (sts ++ [st]) id seq := by
  rcases h with ⟨env, j, t, payload, ht, hm⟩ | ⟨total, ht, hf⟩
  · exact .inl ⟨env, j, t, payload, ht, List.mem_append_left _ hm⟩
  · exact .inr ⟨total, ht, fun j hj => (hf j hj).later st⟩

end

/-- What a reassembly slot holds was heard. -/
structure SlotHeard (sts : List Step) (id : ChanId) (f : FragAsm) : Prop where
  counts : f.Counts
  total : f.active = true → 1 < f.total
  bits : ∀ j, f.bitmask.testBit j = true → FragHeard sts id f.seq j

theorem SlotHeard.add {sts : List Step} {id : ChanId} {f : FragAsm} {fp idx len : Nat}
    (h : SlotHeard sts id f) (ht : f.Takes fp idx len) (hf : FragHeard sts id f.seq idx) :
    SlotHeard sts id (f.add idx len) := by
  refine ⟨h.counts.add ht, h.total, fun j hj => ?_⟩
  rw [testBit_add] at hj
  rcases Bool.or_eq_true_iff.1 hj with hj | hj
  · exact h.bits j hj
  · exact (of_decide_eq_true hj) ▸ hf

/-- The messages in the reorder table and the last one passed satisfy `P`. -/
structure SeqHeard (P : UInt16 → Prop) (r : Receiver) : Prop where
  waiting : ∀ k, (r.reorder k).valid = true → P (r.reorder k).seq
  passed : r.recvSeq ≠ 0 → P (r.recvSeq - 1)

section
variable {P : UInt16 → Prop}

theorem deliverNext_heard {id : ChanId} {x : Rx} (h : SeqHeard P x.rcv)
    (hw : waits x.rcv.reorder x.rcv.recvSeq = true) : SeqHeard P (deliverNext id x).rcv := by
  obtain ⟨h1, h2⟩ := deliverNext_seq id x
  simp only [waits, Bool.and_eq_true, beq_iff_eq] at hw
  refine ⟨fun k hk => ?_, fun _ => ?_⟩
  · rw [h2] at hk ⊢
    by_cases he : k = reorderSlot x.rcv.recvSeq
    · subst he
      simp at hk
    · rw [Function.update_of_ne he] at hk ⊢
      exact h.waiting k hk
  · rw [h1, UInt16.add_sub_cancel]
    have := h.waiting _ hw.1
    rwa [hw.2] at this

theorem deliverLoop_heard {id : ChanId} : ∀ {fuel : Nat} {x : Rx}, SeqHeard P x.rcv →
    SeqHeard P (deliverLoop id fuel x).rcv
  | 0, _, h => h
  | fuel + 1, x, h => by
    unfold deliverLoop
    split
    · exact deliverLoop_heard (deliverNext_heard h ‹_›)
    · exact h

theorem reorderStore_heard {x : Rx} {seq : UInt16} (data : List UInt8) (h : SeqHeard P x.rcv)
    (hs : P seq) : SeqHeard P (reorderStore x seq data).rcv := by
  unfold reorderStore
  dsimp only
  split
  · split
    · split
      · exact h
      · refine ⟨fun k hk => ?_, h.passed⟩
        by_cases he : k = reorderSlot seq
        · subst he
          simpa using hs
        · simp only [Function.update_of_ne he] at hk ⊢
          exact h.waiting k hk
    · exact h
  · exact h

theorem dataArrived_heard {i : ChanId} {x : Rx} {seq : UInt16} (data : List UInt8)
    (h : SeqHeard P x.rcv) (hs : P seq) : SeqHeard P (dataArrived i x seq data).rcv := by
  unfold dataArrived
  split
  · rename_i he
    obtain ⟨h1, h2⟩ := deliver_seq x i data
    refine deliverLoop_heard ⟨fun k hk => ?_, fun _ => ?_⟩
    · dsimp only at hk ⊢
      rw [h2] at hk ⊢
      exact h.waiting k hk
    · dsimp only
      rw [h1, UInt16.add_sub_cancel, ← he]
      exact hs
  · exact reorderStore_heard data h hs

end

theorem SeqHeard.mono {P Q : UInt16 → Prop} {r : Receiver} (h : SeqHeard P r)
    (hPQ : ∀ s, P s → Q s) : SeqHeard Q r :=
  ⟨fun k hk => hPQ _ (h.waiting k hk), fun hr => hPQ _ (h.passed hr)⟩

/-- **A DATA frame on a reliable channel**: what is passed or kept was heard. -/
theorem dataReliable_heard {sts : List Step} {env : Env} {id : ChanId} {n : Nat} {x : Rx}
    {seq : UInt16} {idx total : Nat} {payload : List UInt8}
    (hst : Step.frame env (.data id seq idx total payload) ∈ sts)
    (hf : ∀ i, SlotHeard sts id (x.rcv.frags i)) (h : SeqHeard (MsgHeard sts id) x.rcv) :
    SeqHeard (MsgHeard sts id) (dataReliable n id x seq idx total payload).rcv := by
  unfold dataReliable
  split
  · rename_i ht
    exact dataArrived_heard payload h (.inl ⟨env, idx, total, payload, ht, hst⟩)
  · rename_i ht
    obtain ⟨h1, h2, -⟩ := fragStore_seq n x seq idx total payload
    have hx : SeqHeard (MsgHeard sts id) (fragStore n x seq idx total payload).1.rcv :=
      ⟨by rw [h2]; exact h.waiting, by rw [h1]; exact h.passed⟩
    split
    · rename_i x' he
      rwa [he] at hx
    · rename_i x' i pos he
      have hx' : SeqHeard (MsgHeard sts id) x'.rcv := by rwa [he] at hx
      suffices hm : MsgHeard sts id seq by
        have := dataArrived_heard (i := id) (assembled x' i pos) hx' hm
        exact ⟨this.waiting, this.passed⟩
      refine .inr ?_
      -- the slot is complete, so each of its fragments was heard
      have hfrag : FragHeard sts id seq idx := ⟨env, total, payload, by omega, hst⟩
      rcases fragStore_cases n x seq idx total payload with ⟨-, he'⟩ | ⟨j, x1, hs, h'⟩
      · rw [he] at he'
        cases he'
      · have hslot : SlotHeard sts id (x1.rcv.frags j) ∧ (x1.rcv.frags j).active = true ∧
            (x1.rcv.frags j).seq = seq := by
          rcases fragSlot_cases hs with ⟨rfl, ha, hq⟩ | ⟨b, p, -, -, -, -, rfl⟩
          · exact ⟨hf j, ha, hq⟩
          · have : 1 < total := by omega
            simp only [Function.update_self]
            exact ⟨⟨.empty, fun _ => this, fun k hk => by simp at hk⟩, trivial, trivial⟩
        rcases h' with ⟨-, he'⟩ | ⟨ht', ⟨-, he'⟩ | ⟨hg, -⟩⟩
        · rw [he] at he'
          cases he'
        · rw [he] at he'
          cases he'
        · have hadd := hslot.1.add ht' (hslot.2.2 ▸ hfrag)
          refine ⟨(x1.rcv.frags j).total, hslot.1.total hslot.2.1, fun k hk => ?_⟩
          exact hslot.2.2 ▸ hadd.bits k (hadd.counts.complete hg hk)

/-! ## Whole runs -/

/-- Every reliable channel's receiver state comes from frames that were heard, and an
acknowledgement to be sent is for the last message passed. -/
def AckInv (sts : List Step) (c : Conn) : Prop :=
  ∀ id ch, c.channels id = some ch → ch.type ≠ .unreliable →
    (∀ i, SlotHeard sts id (ch.rcv.frags i)) ∧ SeqHeard (MsgHeard sts id) ch.rcv ∧
      (ch.rcv.needAck = true → ch.rcv.recvSeq ≠ 0 ∧ ch.rcv.ackSeq = ch.rcv.recvSeq - 1)

/-- No DATA frame leaves a reliable channel expecting sequence number 0. -/
def ExpectsNonzero (c : Conn) : Step → Prop
  | .frame _ (.data id seq idx total payload) =>
    ∀ ch ∈ c.channels id, ch.role = .receiver → ch.type ≠ .unreliable →
      nextSeq (maxFragPayload c) (c.rx ch) seq idx total payload.length ≠ 0
  | _ => True

instance (c : Conn) (st : Step) : Decidable (ExpectsNonzero c st) :=
  match st with
  | .frame _ (.data id seq idx total payload) =>
    inferInstanceAs (Decidable (∀ ch ∈ c.channels id, ch.role = .receiver →
      ch.type ≠ .unreliable →
        nextSeq (maxFragPayload c) (c.rx ch) seq idx total payload.length ≠ 0))
  | .frame _ (.connectInit _) | .frame _ (.connectAccept _ _ _) | .frame _ (.connectRedirect _ _)
  | .frame _ (.disconnect _) | .frame _ (.ping _) | .frame _ (.pong _)
  | .frame _ (.channelOpen _ _ _ _) | .frame _ (.channelClose _ _) | .frame _ (.ack _ _)
  | .frame _ (.windowUpdate _ _) | .config _ | .call _ | .sendNext _ _ | .header _ _ _ =>
    .isTrue trivial

theorem step_ackInv {sts : List Step} {c : Conn} {st : Step} (h : AckInv sts c)
    (hok : ExpectsNonzero c st) : AckInv (sts ++ [st]) (st.apply c) := by
  intro id ch' hc' ht'
  have hch := step_chan c st id
  rw [hc'] at hch
  generalize hc : c.channels id = o at hch
  cases hch with
  | created hid hs hr =>
    rw [hr]
    exact ⟨fun i => ⟨.empty, by simp, by simp⟩, ⟨by simp, by simp⟩, by simp⟩
  | kept hk hr =>
    rename_i ch
    have ht : ch.type ≠ .unreliable := hk.type ▸ ht'
    obtain ⟨h1, h2, h3⟩ := h id ch hc ht
    have h1' : ∀ i, SlotHeard (sts ++ [st]) id (ch.rcv.frags i) := fun i =>
      ⟨(h1 i).counts, (h1 i).total, fun j hj => ((h1 i).bits j hj).later st⟩
    have h2' := h2.mono fun s hs => hs.later st
    generalize ch'.rcv = r' at hr
    cases hr with
    | flags hf =>
      obtain ⟨a, w, rfl, ha, -⟩ := hf
      exact ⟨h1', ⟨h2'.waiting, h2'.passed⟩, fun hn => h3 (ha hn)⟩
    | read buflen _ _ => exact ⟨h1', ⟨h2'.waiting, h2'.passed⟩, h3⟩
    | data env seq idx total payload hrole =>
      have hmem : Step.frame env (.data id seq idx total payload) ∈
          sts ++ [.frame env (.data id seq idx total payload)] := by simp
      refine ⟨data_frags ⟨.empty, by simp, by simp⟩ (fun b hb _ => ⟨.empty, fun _ => hb, by simp⟩)
        (fun f hb hf _ hseq htk => hf.add htk ⟨env, total, payload, hb, hseq ▸ hmem⟩) h1', ?_⟩
      · rw [dataRcv, if_neg ht]
        have hz := hok ch hc hrole ht
        rw [← dataReliable_recvSeq] at hz
        have hd := dataReliable_heard (n := maxFragPayload c) (x := c.rx ch) hmem h1' h2'
        refine ⟨⟨hd.waiting, hd.passed⟩, fun _ => ⟨hz, ?_⟩⟩
        have : 0 < (dataReliable (maxFragPayload c) id (c.rx ch) seq idx total payload).rcv.recvSeq :=
          UInt16.pos_iff_ne_zero.2 hz
        simp only [Receiver.ack, ackFor, if_pos this]

theorem ackScan_keeps (acked : UInt16) {k : Fin ncOutgoingSlots} :
    ∀ (l : List (Fin ncOutgoingSlots)) (p : Pool) (s : Sender),
      ¬ int16 ((s.outgoing k).seq - acked) ≤ 0 →
        (l.foldl (ackSlot acked) (p, s)).2.outgoing k = s.outgoing k
  | [], _, _, _ => rfl
  | i :: l, p, s, h => by
    have hi : (ackSlot acked (p, s) i).2.outgoing k = s.outgoing k := by
      unfold ackSlot
      dsimp only
      split
      · rename_i ha
        have hne : k ≠ i := fun he => h (he ▸ ha.2)
        exact Function.update_of_ne hne _ _
      · rfl
    show (l.foldl (ackSlot acked) (ackSlot acked (p, s) i)).2.outgoing k = _
    rw [← hi] at h
    have := ackScan_keeps acked l (ackSlot acked (p, s) i).1 (ackSlot acked (p, s) i).2 h
    exact this.trans hi

theorem outAdvance_eq : ∀ (fuel : Nat) (s : Sender),
    outAdvance fuel s = { s with outHead := (outAdvance fuel s).outHead }
  | 0, _ => rfl
  | fuel + 1, s => by
    unfold outAdvance
    split
    · exact outAdvance_eq fuel _
    · rfl

theorem outAdvance_fields (fuel : Nat) (s : Sender) :
    (outAdvance fuel s).sendSeq = s.sendSeq ∧ (outAdvance fuel s).sendWindow = s.sendWindow ∧
      (outAdvance fuel s).outTail = s.outTail ∧ (outAdvance fuel s).outgoing = s.outgoing := by
  rw [outAdvance_eq fuel s]
  exact ⟨rfl, rfl, rfl, rfl⟩

theorem outAdvance_outgoing (fuel : Nat) (s : Sender) : (outAdvance fuel s).outgoing = s.outgoing :=
  (outAdvance_fields fuel s).2.2.2

theorem outAdvance_window : ∀ (fuel : Nat) (s : Sender),
    (∀ k, (s.outgoing k).active = true → Between s.outHead s.outTail k) →
      ∀ k, (s.outgoing k).active = true → Between (outAdvance fuel s).outHead s.outTail k
  | 0, _, h => h
  | fuel + 1, s, h => by
    unfold outAdvance
    split
    · rename_i hg
      refine outAdvance_window fuel { s with outHead := s.outHead + 1 } fun k hk => ?_
      refine ((between_advance (by decide) hg.1).1 (h k hk)).resolve_left ?_
      rintro rfl
      exact hg.2 hk
    · exact h

/-- `process_ack` leaves a slot alone that is after the acknowledged sequence number. -/
theorem ackReceived_keeps (c : Conn) (id : ChanId) {acked : UInt16} {k : Fin ncOutgoingSlots}
    (h : ¬ int16 ((slotsOf c id k).seq - acked) ≤ 0) :
    slotsOf (ackReceived c id acked) id k = slotsOf c id k := by
  unfold slotsOf at h
  cases hc : c.channels id with
  | none =>
    have : ackReceived c id acked = c := by rw [ackReceived, hc]
    rw [this]
  | some ch =>
    simp only [hc] at h
    by_cases hr : ch.role = .sender
    · have : (ackReceived c id acked).channels id = some { ch with
          snd := outAdvance ncOutgoingSlots
            ((List.finRange ncOutgoingSlots).foldl (ackSlot acked) (c.pool, ch.snd)).2 } := by
        simp only [ackReceived, hc, if_neg (not_not.2 hr)]
        exact Table.set_same ..
      simp only [slotsOf, this, hc]
      rw [outAdvance_outgoing]
      exact ackScan_keeps acked _ _ _ h
    · have : ackReceived c id acked = c := by simp only [ackReceived, hc, if_pos hr]
      rw [this]

/-- **An acknowledgement is for a message that was received**, along every run in which no DATA
frame leaves a reliable channel expecting sequence number 0: it is the one before the next expected
one, it was heard in whole, and the peer that processes it keeps the slot of every message from the
next expected one on. -/
theorem ack_sound {server : Bool} {sts : List Step}
    (h : Along Step.apply ExpectsNonzero (netchanOpen server) sts) {id : ChanId} {ch : Chan}
    (hch : (runConn server sts).channels id = some ch) (ht : ch.type ≠ .unreliable)
    (hn : ch.rcv.needAck = true) :
    int16 (ch.rcv.ackSeq - ch.rcv.recvSeq) = -1 ∧ MsgHeard sts id ch.rcv.ackSeq ∧
      ∀ (peer : Conn) (k : Fin ncOutgoingSlots),
        0 ≤ int16 ((slotsOf peer id k).seq - ch.rcv.recvSeq) →
        int16 ((slotsOf peer id k).seq - ch.rcv.recvSeq) < 2 ^ 15 - 1 →
        slotsOf (ackReceived peer id ch.rcv.ackSeq) id k = slotsOf peer id k := by
  have hinv : AckInv sts (runConn server sts) :=
    run_history (I := AckInv) (fun id ch h => by simp [netchanOpen] at h)
      (fun as a _ hi ha => step_ackInv hi ha) h
  obtain ⟨-, hs, ha⟩ := hinv id ch hch ht
  obtain ⟨h0, ha⟩ := ha hn
  rw [ha]
  refine ⟨int16_pred_sub _, hs.passed h0, fun peer k hk0 hk1 => ackReceived_keeps peer id ?_⟩
  rw [int16_sub_pred hk0 hk1]
  omega

/-- A channel that has passed its first message and holds the third one. -/
def ackSteps : List Step :=
  listenSteps ++ [.frame {} (.data 0 0 0 1 [1, 2, 3]), .frame {} (.data 0 2 0 1 [4])]

theorem ack_sound_gap :
    ∃ ch, (runConn true ackSteps).channels 0 = some ch ∧ ch.rcv.needAck = true ∧
      ch.rcv.ackSeq = 0 ∧ ch.rcv.recvSeq = 1 ∧ MsgHeard ackSteps 0 ch.rcv.ackSeq := by
  obtain ⟨ch, hch⟩ : ∃ ch, (runConn true ackSteps).channels 0 = some ch :=
    Option.isSome_iff_exists.1 (by decide +kernel)
  have hv : ((runConn true ackSteps).channels 0).map (fun ch =>
      (ch.type, ch.rcv.needAck, ch.rcv.ackSeq, ch.rcv.recvSeq)) =
        some (.reliable, true, 0, 1) := by
    decide +kernel
  simp only [hch, Option.map_some, Option.some_inj, Prod.mk.injEq] at hv
  obtain ⟨ht, hn, ha, hr⟩ := hv
  have hrun : Along Step.apply ExpectsNonzero (netchanOpen true) ackSteps := by decide +kernel
  exact ⟨ch, hch, hn, ha, hr, (ack_sound hrun hch (by simp [ht]) hn).2.1⟩

/-- The client writes two messages, the first datagram is lost, and the server acknowledges the
second. -/
def lostFirstOps : List Op :=
  openOps ++ [.call .client (.write 0 [1, 2, 3]), .send .client { now := 10 } 1200,
    .call .client (.write 0 [4]), .send .client { now := 11 } 1200, .drop .server 0,
    .deliver .server 0 { now := 12 } (some [2]), .send .server { now := 13 } 1200]

/-- **A lost first message is acknowledged**: the receiver still expects it, and the sender releases
its slot. -/
theorem lost_first_acknowledged :
    let w := World.run (fun _ => netchanCfgDefault) lostFirstOps
    let w' := w.step (.deliver .client 0 { now := 14 } (some [1]))
    ((w.conn .server).channels 0).map (fun ch => (ch.rcv.recvSeq, ch.rcv.ackSeq)) = some (0, 0) ∧
      w.log.placed .server 0 = [] ∧
      ((slotsOf (w.conn .client) 0 0).seq, (slotsOf (w.conn .client) 0 0).active) = (0, true) ∧
      (slotsOf (w'.conn .client) 0 0).active = false := by
  decide +kernel

end Netchan
