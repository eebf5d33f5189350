import Netchan.Proof.Ack
import Netchan.Proof.Change

/-!
# The reorder table

A message that comes early waits in the slot of its sequence number modulo `ncReorderSlots`.

* `Receiver.Ahead`: what waits stands in its own slot, within a window ahead of `recv_seq`.
* `deliverLoop_drains`: the loop of `chan_deliver_reordered` leaves it after at most as many rounds
  as the window has places, and then nothing in the table has the number `recv_seq`.
* `Rewritten`: the receiver channels that DATA frames and reads lead to, on any connection.
* `run_ahead`: the window holds on every channel in every run.
-/

namespace Netchan

open Lib

/-- How far a sequence number is ahead of the expected one. -/
def Receiver.lead (r : Receiver) (seq : UInt16) : Nat := (seq - r.recvSeq).toNat

/-- What waits in the reorder table stands in the slot of its sequence number, and is at least `lo`
and less than `hi` ahead. -/
def Receiver.Ahead (r : Receiver) (lo hi : Nat) : Prop :=
  ∀ i, (r.reorder i).valid = true → (r.reorder i).seq.toNat % ncReorderSlots = i ∧
    lo ≤ r.lead (r.reorder i).seq ∧ r.lead (r.reorder i).seq < hi

/-! ## The window -/

section
variable {r r' : Receiver} {x : Rx} {lo hi : Nat} {seq : UInt16} {id : ChanId}

theorem reorderSlot_val (seq : UInt16) : (reorderSlot seq).val = seq.toNat % ncReorderSlots := rfl

theorem Receiver.Ahead.congr (h : r.Ahead lo hi) (hseq : r'.recvSeq = r.recvSeq)
    (htab : r'.reorder = r.reorder) : r'.Ahead lo hi := by
  intro i hi
  unfold Receiver.lead
  rw [htab] at hi ⊢
  rw [hseq]
  exact h i hi

/-- **A taken slot** within the window is taken by the same number. -/
theorem Receiver.Ahead.same (h : r.Ahead lo hi) (hwide : hi ≤ ncReorderSlots)
    (hnear : r.lead seq < ncReorderSlots) (hv : (r.reorder (reorderSlot seq)).valid = true) :
    (r.reorder (reorderSlot seq)).seq = seq := by
  obtain ⟨hslot, -, hlt⟩ := h _ hv
  have h1 := (r.reorder (reorderSlot seq)).seq.toNat_lt
  have h2 := seq.toNat_lt
  have h3 := r.recvSeq.toNat_lt
  rw [reorderSlot_val] at hslot
  unfold Receiver.lead at hnear hlt
  rw [UInt16.toNat_sub] at hnear hlt
  simp only [ncReorderSlots] at hslot hnear hwide
  apply UInt16.toNat_inj.1
  omega

/-- Where the loop stops, nothing has the expected number. -/
theorem Receiver.Ahead.stopped (h : r.Ahead 0 hi) (hw : waits r.reorder r.recvSeq = false) :
    r.Ahead 1 hi := by
  intro i hv
  obtain ⟨hslot, -, hlt⟩ := h i hv
  refine ⟨hslot, Nat.pos_of_ne_zero fun h0 => ?_, hlt⟩
  have h1 := (r.reorder i).seq.toNat_lt
  have h2 := r.recvSeq.toNat_lt
  unfold Receiver.lead at h0
  rw [UInt16.toNat_sub] at h0
  have hseq : (r.reorder i).seq = r.recvSeq := UInt16.toNat_inj.1 (by omega)
  have hi : reorderSlot r.recvSeq = i := Fin.ext (by rw [← hseq, reorderSlot_val, hslot])
  rw [waits, hi, hv, hseq] at hw
  simp at hw

theorem Receiver.Ahead.advance (h : r.Ahead 1 (hi + 1)) (hseq : r'.recvSeq = r.recvSeq + 1)
    (htab : r'.reorder = r.reorder) : r'.Ahead 0 hi := by
  intro i hv
  rw [htab] at hv ⊢
  obtain ⟨hslot, hge, hlt⟩ := h i hv
  refine ⟨hslot, Nat.zero_le _, ?_⟩
  have h1 := (r.reorder i).seq.toNat_lt
  have h2 := r.recvSeq.toNat_lt
  have e1 : (1 : UInt16).toNat = 1 := rfl
  unfold Receiver.lead at hge hlt ⊢
  rw [UInt16.toNat_sub] at hge hlt
  rw [hseq, UInt16.toNat_sub, UInt16.toNat_add, e1]
  omega

/-- **A round of the loop** leaves one place less in the window. -/
theorem Receiver.Ahead.deliverNext (h : x.rcv.Ahead 0 (hi + 1)) (id : ChanId) :
    (Netchan.deliverNext id x).rcv.Ahead 0 hi := by
  obtain ⟨hseq, htab⟩ := deliverNext_seq id x
  -- without the slot of the expected number, what is left is at least one ahead
  have hrest : Receiver.Ahead { x.rcv with reorder := (Netchan.deliverNext id x).rcv.reorder }
      1 (hi + 1) := by
    refine Receiver.Ahead.stopped ?_ ?_
    · intro i hv
      dsimp only at hv ⊢
      rw [htab] at hv ⊢
      by_cases hi : i = reorderSlot x.rcv.recvSeq
      · rw [hi, Function.update_self] at hv
        cases hv
      · rw [Function.update_of_ne hi] at hv ⊢
        exact h i hv
    · dsimp only
      rw [waits, htab, Function.update_self]
      rfl
  exact hrest.advance hseq rfl

theorem Receiver.Ahead.none_waits (h : r.Ahead 0 0) : waits r.reorder r.recvSeq = false := by
  cases hv : (r.reorder (reorderSlot r.recvSeq)).valid with
  | false => rw [waits, hv, Bool.false_and]
  | true => exact absurd (h _ hv).2.2 (Nat.not_lt_zero _)

theorem deliverLoop_stopped (hw : waits x.rcv.reorder x.rcv.recvSeq = false) (fuel : Nat) :
    deliverLoop id fuel x = x := by
  cases fuel with
  | zero => rfl
  | succ fuel =>
    rw [deliverLoop, hw]
    rfl

/-- **The loop ends** after at most `hi` rounds, however many it is given, and leaves nothing with
the expected number. -/
theorem deliverLoop_drains (id : ChanId) : ∀ (hi : Nat) {x : Rx}, x.rcv.Ahead 0 hi →
    ∃ n ≤ hi, ∃ x' : Rx, (∀ fuel, n ≤ fuel → deliverLoop id fuel x = x') ∧
      x'.rcv.recvSeq = x.rcv.recvSeq + UInt16.ofNat n ∧ x'.rcv.Ahead 1 hi
  | 0, x, h =>
    ⟨0, Nat.le_refl _, x, fun fuel _ => deliverLoop_stopped h.none_waits fuel,
      (UInt16.add_zero _).symm, h.stopped h.none_waits⟩
  | hi + 1, x, h => by
    cases hw : waits x.rcv.reorder x.rcv.recvSeq with
    | false =>
      exact ⟨0, Nat.zero_le _, x, fun fuel _ => deliverLoop_stopped hw fuel,
        (UInt16.add_zero _).symm, h.stopped hw⟩
    | true =>
      obtain ⟨n, hn, x', hloop, hseq, hin⟩ := deliverLoop_drains id hi (h.deliverNext id)
      refine ⟨n + 1, Nat.succ_le_succ hn, x', fun fuel hf => ?_, ?_, ?_⟩
      · obtain ⟨fuel, rfl⟩ := Nat.exists_eq_add_of_le' hf
        rw [← Nat.add_assoc, deliverLoop, if_pos hw]
        exact hloop _ (Nat.le_add_left _ _)
      · rw [hseq, (deliverNext_seq id x).1, add_one_add_ofNat]
      · intro i hv
        obtain ⟨h1, h2, h3⟩ := hin i hv
        exact ⟨h1, h2, Nat.lt_succ_of_lt h3⟩

theorem Receiver.Ahead.reorderStore (h : x.rcv.Ahead 1 ncReorderSlots) (seq : UInt16)
    (data : List UInt8) : (Netchan.reorderStore x seq data).rcv.Ahead 1 ncReorderSlots := by
  unfold Netchan.reorderStore
  dsimp only
  split
  · rename_i hdiff
    split
    · split
      · exact h
      · intro i hv
        dsimp only at hv ⊢
        by_cases hi : i = reorderSlot seq
        · rw [hi, Function.update_self]
          refine ⟨rfl, ?_⟩
          have := (seq - x.rcv.recvSeq).toNat_lt
          unfold int16 at hdiff
          simp only [ncReorderSlots] at hdiff ⊢
          unfold Receiver.lead
          dsimp only
          split at hdiff <;> omega
        · rw [Function.update_of_ne hi] at hv ⊢
          exact h i hv
    · exact h
  · exact h

/-- **A whole message** keeps the window. -/
theorem Receiver.Ahead.dataArrived (h : x.rcv.Ahead 1 ncReorderSlots) (id : ChanId) (seq : UInt16)
    (data : List UInt8) : (Netchan.dataArrived id x seq data).rcv.Ahead 1 ncReorderSlots := by
  unfold Netchan.dataArrived
  split
  · obtain ⟨hseq, htab⟩ := deliver_seq x id data
    have hnext : Receiver.Ahead
        { (x.deliver id data).rcv with recvSeq := (x.deliver id data).rcv.recvSeq + 1 } 0 63 := by
      refine Receiver.Ahead.advance h ?_ ?_
      · dsimp only
        rw [hseq]
      · exact htab
    obtain ⟨n, hn, x', hloop, -, hin⟩ := deliverLoop_drains id 63
      (x := { x.deliver id data with
        rcv := { (x.deliver id data).rcv with recvSeq := (x.deliver id data).rcv.recvSeq + 1 } })
      hnext
    rw [chanDeliverReordered, hloop _ (Nat.le_succ_of_le hn)]
    intro i hv
    obtain ⟨h1, h2, h3⟩ := hin i hv
    exact ⟨h1, h2, Nat.lt_succ_of_lt h3⟩
  · exact h.reorderStore seq data

/-- **A DATA frame** keeps the window. -/
theorem Receiver.Ahead.dataRcv {c : Conn} {ch : Chan} (h : ch.rcv.Ahead 1 ncReorderSlots)
    (id : ChanId) (seq : UInt16) (idx total : Nat) (payload : List UInt8) :
    (Netchan.dataRcv c id ch seq idx total payload).Ahead 1 ncReorderSlots := by
  obtain ⟨hseq, htab, -⟩ := fragStore_seq (maxFragPayload c) (c.rx ch) seq idx total payload
  unfold Netchan.dataRcv
  split
  · unfold dataUnreliable
    split
    · exact h.congr (deliver_seq (c.rx ch) id payload).1 (deliver_seq (c.rx ch) id payload).2
    · split
      · rename_i x' he
        rw [he] at hseq htab
        exact h.congr hseq htab
      · rename_i x' i pos he
        rw [he] at hseq htab
        have hd := deliver_seq x' id (assembled x' i pos)
        exact h.congr (hd.1.trans hseq) (hd.2.trans htab)
  · suffices hd : (dataReliable (maxFragPayload c) id (c.rx ch) seq idx total payload).rcv.Ahead 1
        ncReorderSlots from hd.congr rfl rfl
    unfold dataReliable
    split
    · exact Receiver.Ahead.dataArrived (x := c.rx ch) h id seq payload
    · split
      · rename_i x' he
        rw [he] at hseq htab
        exact h.congr hseq htab
      · rename_i x' i pos he
        rw [he] at hseq htab
        have hx' : x'.rcv.Ahead 1 ncReorderSlots := h.congr hseq htab
        exact (hx'.dataArrived id seq _).congr rfl rfl

/-- **A step** keeps the window of a channel. -/
theorem RcvChange.ahead {c : Conn} {ch : Chan} {st : Step} (h : ch.rcv.Ahead 1 ncReorderSlots)
    (hr : RcvChange c id ch st r') : r'.Ahead 1 ncReorderSlots := by
  cases hr with
  | flags hf =>
    obtain ⟨a, w, rfl, -, -⟩ := hf
    exact h.congr rfl rfl
  | read buflen hrole hq => exact h.congr rfl rfl
  | data env seq idx total payload hrole => exact h.dataRcv id seq idx total payload

end

theorem ahead_blank (w : UInt32) : Receiver.Ahead { recvWindow := w } 1 ncReorderSlots :=
  fun _ hv => by cases hv

/-- A channel that a step leaves keeps the window, if the one it found at the id did. -/
theorem step_ahead {c : Conn} {ch' : Chan} (st : Step) {id : ChanId}
    (h : ∀ ch, c.channels id = some ch → ch.rcv.Ahead 1 ncReorderSlots)
    (hc' : (st.apply c).channels id = some ch') : ch'.rcv.Ahead 1 ncReorderSlots := by
  have hstep := step_chan c st id
  rw [hc'] at hstep
  generalize hold : c.channels id = old at hstep
  cases hstep with
  | created hid hs hr =>
    rw [hr]
    exact ahead_blank _
  | kept hk hr => exact hr.ahead (h _ hold)

/-! ## Runs -/

/-- Every receiver state of a connection keeps the window. -/
def Conn.AllAhead (c : Conn) : Prop :=
  ∀ id ch, c.channels id = some ch → ch.rcv.Ahead 1 ncReorderSlots

/-- **In every run** the reorder table of every channel is a window ahead of `recv_seq`, each message
in its own slot. -/
theorem run_ahead (server : Bool) (steps : List Step) : (runConn server steps).AllAhead :=
  run_invariant (A := fun _ _ => True) (I := Conn.AllAhead)
    (fun _ st h _ id _ hc' => step_ahead st (h id) hc') (fun id ch hc => by cases hc)
    (along_true steps)

/-- The states of a receiver channel that DATA frames and reads lead to. Each works on a connection
that has the channel in its table and is arbitrary besides: the pool, the event queue, the
configuration, the other channels. -/
inductive Rewritten : Chan → Prop
  | fresh (c : Conn) (id : ChanId) (type : ChanType) (dir : Dir) (contentType : List UInt8) :
      Rewritten (freshChan c id type dir .receiver contentType)
  | data {ch ch' : Chan} (c : Conn) (id : ChanId) (p : List UInt8) (h : Rewritten ch)
      (hc : c.channels id = some ch) (hc' : (processData c p).2.channels id = some ch') :
      Rewritten ch'
  | read {ch ch' : Chan} (c : Conn) (id : ChanId) (buflen : Nat) (h : Rewritten ch)
      (hc : c.channels id = some ch)
      (hc' : (netchanChanRead c id buflen).2.channels id = some ch') : Rewritten ch'

section
variable {ch : Chan}

/-- A DATA frame is a step of the connection, or is refused. -/
theorem processData_step (c : Conn) (p : List UInt8) :
    (processData c p).2 = c ∨ ∃ st : Step, (processData c p).2 = st.apply c := by
  unfold processData
  split
  · exact .inl rfl
  · dsimp only
    split
    · exact .inl rfl
    · exact .inr ⟨.frame {} (.data (chanIdAt p 1) (rd16 p 2) (byte p 6).toNat (byte p 7).toNat
        ((p.drop 8).take (rd16 p 4).toNat)), rfl⟩

theorem Rewritten.ahead (h : Rewritten ch) : ch.rcv.Ahead 1 ncReorderSlots := by
  induction h with
  | fresh c id type dir contentType => exact ahead_blank _
  | data c id p h hc hc' ih =>
    have hall : ∀ ch, c.channels id = some ch → ch.rcv.Ahead 1 ncReorderSlots := by
      intro ch₁ h₁
      cases hc.symm.trans h₁
      exact ih
    rcases processData_step c p with he | ⟨st, he⟩
    · rw [he] at hc'
      exact hall _ hc'
    · rw [he] at hc'
      exact step_ahead st hall hc'
  | read c id buflen h hc hc' ih =>
    refine step_ahead (.call (.read id buflen)) (fun ch₁ h₁ => ?_) hc'
    cases hc.symm.trans h₁
    exact ih

/-- What `process_data` finds and leaves in the reorder table of a channel: a window of 63 sequence
numbers ahead of `recv_seq`, each in its own slot. A slot that a message of the window finds taken is
taken by its own number; behind the expected message the loop of `chan_deliver_reordered` ends after
at most 63 rounds; and no slot has the number `recv_seq`. -/
structure Unambiguous (r : Receiver) : Prop where
  window : ∀ i, (r.reorder i).valid = true → (r.reorder i).seq.toNat % ncReorderSlots = i ∧
    1 ≤ ((r.reorder i).seq - r.recvSeq).toNat ∧ ((r.reorder i).seq - r.recvSeq).toNat ≤ 63
  taken : ∀ seq, 0 < int16 (seq - r.recvSeq) → int16 (seq - r.recvSeq) < ncReorderSlots →
    (r.reorder (reorderSlot seq)).valid = true → (r.reorder (reorderSlot seq)).seq = seq
  drains : ∀ (id : ChanId) (x : Rx), x.rcv.reorder = r.reorder → x.rcv.recvSeq = r.recvSeq + 1 →
    ∃ n ≤ 63, (∀ fuel, n ≤ fuel → deliverLoop id fuel x = chanDeliverReordered id x) ∧
      (chanDeliverReordered id x).rcv.recvSeq = x.rcv.recvSeq + UInt16.ofNat n ∧
      waits (chanDeliverReordered id x).rcv.reorder (chanDeliverReordered id x).rcv.recvSeq = false
  passed : ∀ i, (r.reorder i).valid = true → (r.reorder i).seq ≠ r.recvSeq

theorem Receiver.Ahead.unambiguous {r : Receiver} (h : r.Ahead 1 ncReorderSlots) :
    Unambiguous r where
  window i hv := by
    obtain ⟨h1, h2, h3⟩ := h i hv
    exact ⟨h1, h2, Nat.le_of_lt_succ h3⟩
  taken seq hlow hhigh hv := by
    refine h.same (Nat.le_refl _) ?_ hv
    have := (seq - r.recvSeq).toNat_lt
    unfold int16 at hlow hhigh
    unfold Receiver.lead
    simp only [ncReorderSlots] at hhigh ⊢
    split at hlow <;> omega
  drains id x htab hseq := by
    have hx : x.rcv.Ahead 0 63 := h.advance hseq htab
    obtain ⟨n, hn, x', hloop, hx', -⟩ := deliverLoop_drains id 63 hx
    have he : chanDeliverReordered id x = x' := hloop _ (Nat.le_succ_of_le hn)
    exact ⟨n, hn, he ▸ hloop, he ▸ hx', chanDeliverReordered_exit id x⟩
  passed i hv hseq := by
    have hpos := (h i hv).2.1
    rw [Receiver.lead, hseq, UInt16.sub_self] at hpos
    exact absurd hpos (by decide)

/-- **The reorder table is unambiguous** in every state of a receiver channel that DATA frames and
reads lead to. -/
theorem reorder_unambiguous (h : Rewritten ch) : Unambiguous ch.rcv := h.ahead.unambiguous

end

/-- A connection with a receiver channel, and no more than that. -/
def listening : Conn :=
  (netchanOpen true).setChan 0 (freshChan (netchanOpen true) 0 .reliable .send .receiver [])

/-- The second message comes first, and waits in slot 1. -/
theorem reorder_unambiguous_early : ∃ ch,
    (processData listening [0x09, 0, 0, 1, 0, 1, 0, 1, 42]).2.channels 0 = some ch ∧
      (ch.rcv.reorder 1).valid = true ∧ Unambiguous ch.rcv := by
  have hstored : ((processData listening [0x09, 0, 0, 1, 0, 1, 0, 1, 42]).2.channels 0).map
      (fun ch => (ch.rcv.reorder 1).valid) = some true := by decide +kernel
  obtain ⟨ch, hc, hv⟩ := Option.map_eq_some_iff.1 hstored
  have hreach : Rewritten ch :=
    .data listening 0 _ (.fresh (netchanOpen true) 0 .reliable .send []) rfl hc
  exact ⟨ch, hc, hv, reorder_unambiguous hreach⟩

end Netchan
