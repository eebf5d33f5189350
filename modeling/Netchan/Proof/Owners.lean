import Netchan.Proof.Inbound

/-!
# Every step, by owners

`StoreOk`: the buffers of a connection have one owner each and its slots are well formed.
`step_store` shows that every step keeps it and touches only the owners in `touched`, provided the
messages completed by reassembly fit in a buffer (`FramesFit`).
-/

namespace Netchan

open Lib

/-! ## The invariant -/

/-- An outgoing slot in use has a buffer, and its message fits in it. -/
def SndWf (s : Sender) : Prop :=
  ∀ k, (s.outgoing k).active = true →
    (∃ b, (s.outgoing k).buf = some b) ∧ (s.outgoing k).len ≤ ncMaxMsg

structure StoreOk (c : Conn) : Prop where
  arena : c.arena.Ok
  rcv : ∀ id ch, c.channels id = some ch → RcvWf ch.rcv
  snd : ∀ id ch, c.channels id = some ch → SndWf ch.snd

/-- The slots an acknowledgement releases. -/
def ackedLocs (s : Sender) (id : ChanId) (acked : UInt16) : Set Owner :=
  {o | o.1 = id ∧ ∃ k, o.2 = .out k ∧ (s.outgoing k).active = true ∧
    int16 ((s.outgoing k).seq - acked) ≤ 0}

/-- The outgoing slots of the unreliable channels. -/
def bestEffort (t : Table) : Set Owner :=
  {o | ∃ ch, t o.1 = some ch ∧ ch.type = .unreliable ∧ ∃ k, o.2 = .out k}

/-- The owners a step can touch. -/
def touched (c : Conn) : Step → Set Owner
  | .frame _ (.data id _ _ _ _) => inbound id
  | .frame _ (.ack id acked) =>
    {o | ∃ ch, c.channels id = some ch ∧ o ∈ ackedLocs ch.snd id acked}
  | .call (.write id _) => {o | ∃ ch, c.channels id = some ch ∧ o = (id, .out ch.snd.outTail)}
  | .call (.read id _) =>
    {o | ∃ ch, c.channels id = some ch ∧ o = (id, .queue ch.rcv.recvQueue.head)}
  | .sendNext _ _ => bestEffort c.channels
  | _ => ∅

/-- Messages completed by reassembly fit in a buffer. -/
def FramesFit (c : Conn) : Step → Prop
  | .frame _ (.data id seq idx total payload) =>
    ∀ ch ∈ c.channels id, ch.role = .receiver → 1 < total →
      FragFits (maxFragPayload c) (c.rx ch) seq idx total payload.length
  | _ => True

instance (fp : Nat) (x : Rx) (seq : UInt16) (idx total len : Nat) :
    Decidable (FragFits fp x seq idx total len) :=
  inferInstanceAs (Decidable (∀ n ∈ completedLen fp x seq idx total len, n ≤ ncMaxMsg))

instance (c : Conn) : ∀ st : Step, Decidable (FramesFit c st)
  | .frame _ (.data id seq idx total payload) =>
    inferInstanceAs (Decidable (∀ ch ∈ c.channels id, ch.role = .receiver → 1 < total →
      FragFits (maxFragPayload c) (c.rx ch) seq idx total payload.length))
  | .frame _ (.connectInit _) | .frame _ (.connectAccept _ _ _) | .frame _ (.connectRedirect _ _)
  | .frame _ (.disconnect _) | .frame _ (.ping _) | .frame _ (.pong _)
  | .frame _ (.channelOpen _ _ _ _) | .frame _ (.channelClose _ _) | .frame _ (.ack _ _)
  | .frame _ (.windowUpdate _ _) | .config _ | .call _ | .sendNext _ _ | .header _ _ _ =>
    .isTrue trivial

/-! ## One channel written back -/

section
variable {c : Conn} {id : ChanId} {ch ch' : Chan}

theorem holds_set (p : Pool) (l : Loc) :
    ({ c with pool := p }.setChan id ch').arena.holds (id, l) = ch'.holds l := by
  simp [Conn.arena, tableHolds, Conn.setChan]

theorem holds_set_other (p : Pool) {j : ChanId} (h : j ≠ id) (l : Loc) :
    ({ c with pool := p }.setChan id ch').arena.holds (j, l) = c.arena.holds (j, l) := by
  simp only [Conn.arena, tableHolds, Conn.setChan, Table.set_of_ne _ h]

theorem holds_of_chan (hc : c.channels id = some ch) (l : Loc) :
    c.arena.holds (id, l) = ch.holds l := by
  simp [Conn.arena, tableHolds, hc]

/-- Only slot `l` of the channel holds something else. -/
theorem holds_set_congr (hc : c.channels id = some ch) (p : Pool) {l : Loc}
    (h : ∀ l', l' ≠ l → ch'.holds l' = ch.holds l') :
    ∀ o, o ≠ (id, l) →
      ({ c with pool := p }.setChan id ch').arena.holds o = c.arena.holds o := by
  rintro ⟨j, l'⟩ ho
  by_cases hj : j = id
  · subst hj
    rw [holds_set, holds_of_chan hc]
    exact h l' fun he => ho (by rw [he])
  · exact holds_set_other p hj l'

theorem StoreOk.set {c : Conn} {p : Pool} {e : Chan} (h : StoreOk c)
    (ha : ({ c with pool := p }.setChan id e).arena.Ok) (hr : RcvWf e.rcv) (hs : SndWf e.snd) :
    StoreOk ({ c with pool := p }.setChan id e) := by
  refine ⟨ha, fun j d hd => ?_, fun j d hd => ?_⟩
  all_goals
    by_cases hj : j = id
    · subst hj
      have : some e = some d := (Table.set_same c.channels j e).symm.trans hd
      cases this
      assumption
    · have hd : c.channels j = some d := (Table.set_of_ne c.channels hj e).symm.trans hd
      first | exact h.rcv j d hd | exact h.snd j d hd

theorem setChan_pool_setChan (c : Conn) (id : ChanId) (p q : Pool) (ch ch' : Chan) :
    { { c with pool := p }.setChan id ch with pool := q }.setChan id ch' =
      { c with pool := q }.setChan id ch' := by
  simp [Conn.setChan, Table.set]

theorem store_same {c c' : Conn} {S : Set Owner} (h : StoreOk c) (hp : c'.pool = c.pool)
    (hh : ∀ o, c'.arena.holds o = c.arena.holds o)
    (hr : ∀ id ch, c'.channels id = some ch → RcvWf ch.rcv ∧ SndWf ch.snd) :
    StoreOk c' ∧ c.arena.Change S c'.arena := by
  have hc : c.arena.Change S c'.arena :=
    .same h.arena (by simp [Conn.arena, hp]) hh (by simp [Conn.arena, hp])
  exact ⟨⟨hc.ok, fun id ch hch => (hr id ch hch).1, fun id ch hch => (hr id ch hch).2⟩, hc⟩

theorem store_congr {c k : Conn} {S : Set Owner} (h : StoreOk c) (hp : k.pool = c.pool)
    (ht : k.channels = c.channels) : StoreOk k ∧ c.arena.Change S k.arena :=
  store_same h hp (fun o => by simp [Conn.arena, ht])
    (fun id ch hch => ⟨h.rcv id ch (ht ▸ hch), h.snd id ch (ht ▸ hch)⟩)

theorem store_setChan {S : Set Owner} {e : Chan} (h : StoreOk c) (hc : c.channels id = some ch)
    (hl : ∀ l, e.holds l = ch.holds l) (hr : RcvWf e.rcv) (hs : SndWf e.snd) {k : Conn}
    (hp : k.pool = c.pool) (ht : k.channels = Table.set c.channels id e) :
    StoreOk k ∧ c.arena.Change S k.arena := by
  refine store_same h hp ?_ fun j d hd => ?_
  · rintro ⟨j, l⟩
    by_cases hj : j = id
    · subst hj
      rw [holds_of_chan hc, ← hl l]
      simp [Conn.arena, tableHolds, ht]
    · simp [Conn.arena, tableHolds, ht, Table.set_of_ne _ hj]
  · rw [ht] at hd
    by_cases hj : j = id
    · subst hj
      rw [Table.set_same] at hd
      cases hd
      exact ⟨hr, hs⟩
    · rw [Table.set_of_ne _ hj] at hd
      exact ⟨h.rcv j d hd, h.snd j d hd⟩

/-- Only fields of the receiver state that own no buffer were written. -/
theorem store_rcv {S : Set Owner} (h : StoreOk c) (hc : c.channels id = some ch) {r : Receiver}
    (hq : r.recvQueue = ch.rcv.recvQueue) (hr : r.reorder = ch.rcv.reorder)
    (hf : r.frags = ch.rcv.frags) :
    StoreOk (c.setChan id { ch with rcv := r }) ∧
      c.arena.Change S (c.setChan id { ch with rcv := r }).arena := by
  have hw := h.rcv id ch hc
  refine store_setChan h hc (e := { ch with rcv := r }) (fun l => ?_)
    ⟨hq ▸ hw.queue, hr ▸ hw.reorder, hf ▸ hw.frags⟩ (h.snd id ch hc) rfl rfl
  cases l <;> simp [Chan.holds, hq, hr, hf]

theorem store_create {S : Set Owner} (h : StoreOk c) (hc : c.channels id = none)
    (hs : ch'.snd = {}) {w : UInt32} (hr : ch'.rcv = { recvWindow := w }) {c' : Conn}
    (hp : c'.pool = c.pool) (ht : c'.channels = Table.set c.channels id ch') :
    StoreOk c' ∧ c.arena.Change S c'.arena := by
  have hq : (Ring.blank {} : Ring RecvEntry ncRecvQueue).toList = [] := Ring.toList_blank _
  refine store_same h hp ?_ fun j d hd => ?_
  · rintro ⟨j, l⟩
    by_cases hj : j = id
    · subst hj
      cases l <;> simp [Conn.arena, tableHolds, ht, hc, Chan.holds, hs, hr, Ring.blank]
    · simp [Conn.arena, tableHolds, ht, Table.set_of_ne _ hj]
  · rw [ht] at hd
    by_cases hj : j = id
    · subst hj
      rw [Table.set_same] at hd
      cases hd
      rw [hs, hr]
      refine ⟨⟨fun e he => ?_, by simp, by simp⟩, fun k hk => by simp at hk⟩
      rw [hq] at he
      cases he
    · rw [Table.set_of_ne _ hj] at hd
      exact ⟨h.rcv j d hd, h.snd j d hd⟩

/-! ## Writing and reading -/

theorem written_holds (b : BufIdx) (data : List UInt8) (l : Loc)
    (hl : l ≠ .out ch.snd.outTail) : (writtenChan c ch b data).holds l = ch.holds l := by
  cases l with
  | out k =>
    have hk : k ≠ ch.snd.outTail := fun he => hl (by rw [he])
    simp [writtenChan, Chan.holds, Function.update_of_ne hk]
  | _ => rfl

theorem written_wf (b : BufIdx) {data : List UInt8} (hs : SndWf ch.snd)
    (hl : data.length ≤ ncMaxMsg) : SndWf (writtenChan c ch b data).snd := by
  intro k hk
  by_cases he : k = ch.snd.outTail
  · subst he
    simp only [writtenChan, Function.update_self]
    exact ⟨⟨b, rfl⟩, hl⟩
  · simp only [writtenChan, Function.update_of_ne he] at hk ⊢
    exact hs k hk

theorem store_written {data : List UInt8} {b : BufIdx} {p : Pool} (h : StoreOk c)
    (hw : CanWrite c id data ch b p) :
    let c' := { c with pool := p.write (some b) 0 data }.setChan id (writtenChan c ch b data)
    StoreOk c' ∧ c.arena.Change {(id, .out ch.snd.outTail)} c'.arena := by
  intro c'
  have hc : c.arena.Change {(id, .out ch.snd.outTail)} c'.arena := by
    refine .alloc h.arena (b := b) (poolGet_free hw.get) rfl ?_
      (holds_set_congr hw.chan _ (written_holds b data)) fun b' hb' => ?_
    · rw [holds_set]
      simp [writtenChan, Chan.holds]
    · have hs : (p.write (some b) 0 data).poolStore =
          c.pool.poolStore.write (poolPtr (some b) + 0) data := by
        rw [← poolGet_store hw.get]
        rfl
      exact bytes_write hb' hs (by have := hw.small; omega)
  exact ⟨h.set hc.ok (h.rcv id ch hw.chan) (written_wf b (h.snd id ch hw.chan) hw.small), hc⟩

theorem store_skipped {data : List UInt8} {b : BufIdx} {p : Pool} (h : StoreOk c)
    (hw : CanWrite c id data ch b p) :
    let c' := { c with pool := poolPut (p.write (some b) 0 data) (some b) }.setChan id
      (skippedChan ch)
    StoreOk c' ∧ c.arena.Change {(id, .out ch.snd.outTail)} c'.arena := by
  intro c'
  -- the buffer is taken as for an accepted message, and given back
  obtain ⟨h1, hc1⟩ := store_written h hw
  have hskip : ∀ l, l ≠ Loc.out ch.snd.outTail →
      (skippedChan ch).holds l = (writtenChan c ch b data).holds l := by
    intro l hl
    rw [written_holds b data l hl]
    cases l with
    | out k =>
      have hk : k ≠ ch.snd.outTail := fun he => hl (by rw [he])
      simp [skippedChan, Chan.holds, Function.update_of_ne hk]
    | _ => rfl
  have hwf : SndWf (skippedChan ch).snd := by
    intro k hk
    by_cases he : k = ch.snd.outTail
    · subst he
      simp [skippedChan] at hk
    · simp only [skippedChan, Function.update_of_ne he] at hk ⊢
      exact h.snd id ch hw.chan k hk
  have hc2 : ({ c with pool := p.write (some b) 0 data }.setChan id
      (writtenChan c ch b data)).arena.Change {(id, Loc.out ch.snd.outTail)} c'.arena := by
    refine .release h1.arena (o := (id, Loc.out ch.snd.outTail)) (b := b) ?_ ?_ ?_ ?_ ?_
    · rw [holds_set]
      simp [writtenChan, Chan.holds]
    · rfl
    · rw [holds_set]
      simp [skippedChan, Chan.holds]
    · rintro ⟨j, l⟩ ho
      by_cases hj : j = id
      · subst hj
        rw [holds_set, holds_set]
        exact hskip l fun he => ho (by rw [he])
      · rw [holds_set_other _ hj, holds_set_other _ hj]
    · exact bytes_of_store rfl
  exact ⟨h.set hc2.ok (h.rcv id ch hw.chan) hwf, hc1.trans hc2⟩

theorem pop_mem {α : Type} {n : Nat} [NeZero n] (hn : 2 ≤ n) {r : Ring α n} (h : ¬ r.Empty) (y : α)
    {e : α} (he : e ∈ (r.pop y).toList) : e ∈ r.toList := by
  rw [Ring.toList_pop hn h y]
  exact .tail _ he

theorem front_mem {α : Type} {n : Nat} [NeZero n] (hn : 2 ≤ n) {r : Ring α n} (h : ¬ r.Empty)
    (y : α) : r.front ∈ r.toList := by
  rw [Ring.toList_pop hn h y]
  exact .head _

theorem store_read (h : StoreOk c) (hc : c.channels id = some ch)
    (hq : ¬ ch.rcv.recvQueue.Empty) (buflen : Nat) :
    let c' := { c with pool := poolPut c.pool ch.rcv.recvQueue.front.buf }.setChan id
      { ch with rcv := readRcv ch.rcv buflen }
    StoreOk c' ∧ c.arena.Change {(id, .queue ch.rcv.recvQueue.head)} c'.arena := by
  intro c'
  have hwf := h.rcv id ch hc
  obtain ⟨⟨b, hb⟩, -⟩ := hwf.queue _ (front_mem (by decide) hq {})
  have hp : c'.pool = { c.pool with poolFree := b :: c.pool.poolFree } := by
    show poolPut c.pool _ = _
    rw [hb]
    rfl
  have hch : c.arena.Change {(id, .queue ch.rcv.recvQueue.head)} c'.arena := by
    refine .release h.arena (o := (id, Loc.queue ch.rcv.recvQueue.head)) (b := b) ?_ ?_ ?_
      (holds_set_congr hc _ ?_) ?_
    · rw [holds_of_chan hc]
      exact hb
    · show c'.pool.poolFree = _
      rw [hp]
      rfl
    · rw [holds_set]
      simp [Chan.holds, readRcv, Ring.pop]
    · intro l hl
      cases l with
      | queue k =>
        have hk : k ≠ ch.rcv.recvQueue.head := fun he => hl (by rw [he])
        simp [Chan.holds, readRcv, Ring.pop, Function.update_of_ne hk]
      | _ => rfl
    · show c'.pool.bytes = c.pool.bytes
      rw [hp]
      exact bytes_of_store rfl
  refine ⟨h.set hch.ok ⟨fun e he => ?_, hwf.reorder, hwf.frags⟩ (h.snd id ch hc), hch⟩
  exact hwf.queue e (pop_mem (by decide) hq {} he)

/-! ## Acknowledgements -/

theorem poolPut_store (p : Pool) (b : Option BufIdx) : (poolPut p b).poolStore = p.poolStore := by
  cases b <;> rfl

/-- The bytes in the pool stay where they are when messages are acknowledged. -/
theorem ackScan_store (acked : UInt16) : ∀ (is : List (Fin ncOutgoingSlots)) (p : Pool) (s : Sender),
    (is.foldl (ackSlot acked) (p, s)).1.poolStore = p.poolStore
  | [], _, _ => rfl
  | i :: is, p, s => by
    refine (ackScan_store acked is (ackSlot acked (p, s) i).1 (ackSlot acked (p, s) i).2).trans ?_
    unfold ackSlot
    dsimp only
    split
    · exact poolPut_store ..
    · rfl

/-- One slot of the scan of `process_ack`. -/
theorem store_ackSlot {p : Pool} {s : Sender} (acked : UInt16) (k : Fin ncOutgoingSlots)
    (h : StoreOk ({ c with pool := p }.setChan id { ch with snd := s })) :
    let c1 := { c with pool := p }.setChan id { ch with snd := s }
    let r := ackSlot acked (p, s) k
    let c2 := { c with pool := r.1 }.setChan id { ch with snd := r.2 }
    StoreOk c2 ∧ c1.arena.Change {o | o = (id, .out k) ∧ (s.outgoing k).active = true ∧
      int16 ((s.outgoing k).seq - acked) ≤ 0} c2.arena := by
  intro c1 r c2
  have hc1 : c1.channels id = some { ch with snd := s } := Table.set_same ..
  by_cases hg : (s.outgoing k).active = true ∧ int16 ((s.outgoing k).seq - acked) ≤ 0
  · obtain ⟨⟨b, hb⟩, -⟩ := h.snd id _ hc1 k hg.1
    have hr : r = (poolPut p (some b),
        { s with bytesInFlight := s.bytesInFlight - UInt32.ofNat (s.outgoing k).len
                 msgsAcked := s.msgsAcked + 1
                 outgoing := Function.update s.outgoing k
                   { s.outgoing k with buf := none, active := false } }) := by
      simp only [r, ackSlot, hg]
      rw [hb]
      simp
    have hch : c1.arena.Change {(id, .out k)} c2.arena := by
      refine .release h.arena (o := (id, Loc.out k)) (b := b) ?_ ?_ ?_ ?_ ?_
      · rw [holds_of_chan hc1]
        exact hb
      · show r.1.poolFree = _
        rw [hr]
        rfl
      · rw [holds_set, hr]
        simp [Chan.holds]
      · rintro ⟨j, l⟩ ho
        by_cases hj : j = id
        · subst hj
          rw [holds_set, holds_of_chan hc1, hr]
          cases l with
          | out i =>
            have hi : i ≠ k := fun he => ho (by rw [he])
            simp [Chan.holds, Function.update_of_ne hi]
          | _ => rfl
        · rw [holds_set_other _ hj, holds_set_other _ hj]
      · show r.1.bytes = p.bytes
        rw [hr]
        exact bytes_of_store rfl
    refine ⟨?_, hch.mono fun o ho => ⟨ho, hg⟩⟩
    have he : { c1 with pool := r.1 }.setChan id { ch with snd := r.2 } = c2 :=
      setChan_pool_setChan ..
    rw [← he]
    refine h.set (he ▸ hch.ok) (h.rcv id { ch with snd := s } hc1) fun i hi => ?_
    rw [hr] at hi ⊢
    by_cases he : i = k
    · subst he
      simp at hi
    · simp only [Function.update_of_ne he] at hi ⊢
      exact h.snd id _ hc1 i hi
  · have hr : r = (p, s) := by
      simp only [r, ackSlot, if_neg hg]
    have : c2 = c1 := by
      simp only [c1, c2, hr]
    rw [this]
    exact ⟨h, .refl h.arena⟩

/-- A slot of the scan that is still in use was not touched. -/
theorem ackSlot_outgoing {acked : UInt16} {p : Pool} {s : Sender} {k i : Fin ncOutgoingSlots}
    (h : ((ackSlot acked (p, s) k).2.outgoing i).active = true) :
    (ackSlot acked (p, s) k).2.outgoing i = s.outgoing i := by
  unfold ackSlot at h ⊢
  dsimp only at h ⊢
  split
  · rename_i hg
    rw [if_pos hg] at h
    by_cases he : i = k
    · subst he
      simp at h
    · exact Function.update_of_ne he _ _
  · rfl

theorem store_ackScan (acked : UInt16) : ∀ (l : List (Fin ncOutgoingSlots)) (p : Pool) (s : Sender),
    StoreOk ({ c with pool := p }.setChan id { ch with snd := s }) →
      let r := l.foldl (ackSlot acked) (p, s)
      let c2 := { c with pool := r.1 }.setChan id { ch with snd := r.2 }
      StoreOk c2 ∧ ({ c with pool := p }.setChan id { ch with snd := s }).arena.Change
        (ackedLocs s id acked) c2.arena
  | [], _, _, h => ⟨h, .refl h.arena⟩
  | k :: l, p, s, h => by
    obtain ⟨h1, hc1⟩ := store_ackSlot acked k h
    obtain ⟨h2, hc2⟩ := store_ackScan acked l _ _ h1
    refine ⟨h2, (hc1.mono ?_).trans (hc2.mono ?_)⟩
    · rintro o ⟨rfl, ha, hs⟩
      exact ⟨rfl, k, rfl, ha, hs⟩
    · rintro o ⟨hid, i, hi, ha, hs⟩
      have he := ackSlot_outgoing ha
      rw [he] at ha hs
      exact ⟨hid, i, hi, ha, hs⟩

theorem setChan_self (c : Conn) (h : c.channels id = some ch) : c.setChan id ch = c := by
  simp only [Conn.setChan, Table.set, ← h, Function.update_eq_self]

theorem store_ack (h : StoreOk c) (hc : c.channels id = some ch) (acked : UInt16) :
    StoreOk (ackReceived c id acked) ∧
      c.arena.Change (ackedLocs ch.snd id acked) (ackReceived c id acked).arena := by
  unfold ackReceived
  rw [hc]
  dsimp only
  split
  · exact ⟨h, .refl h.arena⟩
  · have h0 : { c with pool := c.pool }.setChan id { ch with snd := ch.snd } = c := setChan_self c hc
    obtain ⟨h1, hc1⟩ := store_ackScan acked (List.finRange ncOutgoingSlots) c.pool ch.snd
      (c := c) (by rwa [h0])
    rw [h0] at hc1
    generalize (List.finRange ncOutgoingSlots).foldl (ackSlot acked) (c.pool, ch.snd) = r at h1 hc1 ⊢
    obtain ⟨p, s⟩ := r
    have hs : c.arena.Ok := h.arena
    obtain ⟨h2, hc2⟩ := store_setChan (S := ackedLocs ch.snd id acked) h1 (Table.set_same ..)
      (e := { ch with snd := outAdvance ncOutgoingSlots s })
      (fun l => by cases l <;> simp [Chan.holds, outAdvance_outgoing])
      (h1.rcv id { ch with snd := s } (Table.set_same ..))
      (by
        have := h1.snd id { ch with snd := s } (Table.set_same ..)
        simpa only [SndWf, outAdvance_outgoing] using this)
      (k := { c with pool := p }.setChan id { ch with snd := outAdvance ncOutgoingSlots s })
      rfl (by simp [Conn.setChan, Table.set])
    exact ⟨h2, hc1.trans hc2⟩

/-! ## Sending and timers -/

theorem bestEffort_subset {t t' : Table} (h : FlagsOnly t t') : bestEffort t' ⊆ bestEffort t := by
  rintro o ⟨ch', hc', ht, hk⟩
  rcases h o.1 with ⟨-, h2⟩ | ⟨d, d', h1, h2, hsame, -⟩
  · rw [h2] at hc'
    cases hc'
  · rw [h2] at hc'
    cases hc'
    exact ⟨d, h1, hsame.type.symm.trans ht, hk⟩

/-- The slots of a channel after slot `k` was written, with or without a buffer in it. -/
theorem holds_out (k : Fin ncOutgoingSlots) {s : Sender} {o : Outgoing}
    (hs : s.outgoing = Function.update ch.snd.outgoing k o) (l : Loc) (hl : l ≠ .out k) :
    Chan.holds { ch with snd := s } l = ch.holds l := by
  cases l with
  | out i =>
    have hi : i ≠ k := fun he => hl (by rw [he])
    simp [Chan.holds, hs, Function.update_of_ne hi]
  | _ => rfl

theorem wf_out {k : Fin ncOutgoingSlots} {s : Sender} {o : Outgoing} (h : SndWf ch.snd)
    (hs : s.outgoing = Function.update ch.snd.outgoing k o)
    (ho : o.active = true → (∃ b, o.buf = some b) ∧ o.len ≤ ncMaxMsg) : SndWf s := by
  intro i hi
  rw [hs] at hi ⊢
  by_cases he : i = k
  · subst he
    rw [Function.update_self] at hi ⊢
    exact ho hi
  · rw [Function.update_of_ne he] at hi ⊢
    exact h i hi

theorem chanNextSendable_spec {s : Sender} {k : Fin ncOutgoingSlots}
    (h : chanNextSendable s = some k) :
    k ∈ outWindow s ∧ (s.outgoing k).active = true ∧
      (s.outgoing k).fragSent < (s.outgoing k).fragTotal := by
  have := List.find?_some h
  simp only [Bool.and_eq_true, decide_eq_true_eq] at this
  exact ⟨List.mem_of_find?_eq_some h, this⟩

theorem chanSendSlot_spec {k : Fin ncOutgoingSlots} (h : chanSendSlot ch = some k) :
    ch.role = .sender ∧ ch.state = .opened ∧ chanNextSendable ch.snd = some k := by
  unfold chanSendSlot at h
  split at h
  · cases h
  · rename_i hg
    rw [not_or, not_not, not_not] at hg
    exact ⟨hg.1, hg.2, h⟩

theorem store_sent (h : StoreOk c) (hc : c.channels id = some ch) {k : Fin ncOutgoingSlots}
    (hk : chanSendSlot ch = some k) (now : UInt32) :
    let c' := { c with pool := (chanSent now c.pool ch k).1 }.setChan id (chanSent now c.pool ch k).2
    StoreOk c' ∧ c.arena.Change (bestEffort c.channels) c'.arena := by
  intro c'
  obtain ⟨-, ha, -⟩ := chanNextSendable_spec (chanSendSlot_spec hk).2.2
  obtain ⟨⟨b, hb⟩, hlen⟩ := h.snd id ch hc k ha
  by_cases hg : ((ch.snd.outgoing k).sent now).fragSent ≥ ((ch.snd.outgoing k).sent now).fragTotal ∧
      ch.type = .unreliable
  · -- an unreliable message is out: its buffer goes back
    let s := outAdvance ncOutgoingSlots { ch.snd with
      outgoing := Function.update ch.snd.outgoing k
        { (ch.snd.outgoing k).sent now with buf := none, active := false } }
    have he : chanSent now c.pool ch k = (poolPut c.pool (some b), { ch with snd := s }) := by
      simp only [chanSent, if_pos hg]
      rw [← hb]
      rfl
    have hs : s.outgoing = Function.update ch.snd.outgoing k
        { (ch.snd.outgoing k).sent now with buf := none, active := false } := outAdvance_outgoing _ _
    have hc' : c' = { c with pool := poolPut c.pool (some b) }.setChan id { ch with snd := s } := by
      simp only [c', he]
    have hch : c.arena.Change {(id, Loc.out k)} c'.arena := by
      rw [hc']
      refine .release h.arena (o := (id, Loc.out k)) (b := b) ?_ ?_ ?_
        (holds_set_congr hc _ (holds_out k hs)) (bytes_of_store rfl)
      · rw [holds_of_chan hc]
        exact hb
      · rfl
      · rw [holds_set]
        simp [Chan.holds, hs]
    refine ⟨?_, hch.mono ?_⟩
    · rw [hc']
      exact h.set (hc' ▸ hch.ok) (h.rcv id ch hc) (wf_out (h.snd id ch hc) hs (by simp))
    · rintro o rfl
      exact ⟨ch, hc, hg.2, k, rfl⟩
  · have he : chanSent now c.pool ch k = (c.pool, { ch with snd := { ch.snd with
        outgoing := Function.update ch.snd.outgoing k ((ch.snd.outgoing k).sent now) } }) := by
      simp only [chanSent, if_neg hg]
    refine store_setChan h hc (e := (chanSent now c.pool ch k).2) (fun l => ?_) ?_ ?_ ?_ ?_
    · rw [he]
      by_cases hl : l = .out k
      · subst hl
        simp [Chan.holds, Outgoing.sent]
      · exact holds_out k rfl l hl
    · rw [he]
      exact h.rcv id ch hc
    · rw [he]
      exact wf_out (h.snd id ch hc) rfl fun _ => ⟨⟨b, hb⟩, hlen⟩
    · show (chanSent now c.pool ch k).1 = c.pool
      rw [he]
    · rfl

theorem store_emit {now : UInt32} {c' : Conn} {f : Frame} (h : StoreOk c) (he : Emit now c f c') :
    StoreOk c' ∧ c.arena.Change (bestEffort c.channels) c'.arena := by
  cases he with
  | ack hc hn => exact store_rcv h hc rfl rfl rfl
  | window hc hn => exact store_rcv h hc rfl rfl rfl
  | data hc hs => exact store_sent h hc hs now

theorem store_emits {now : UInt32} {c' : Conn} {fs : List Frame} (he : Emits now c fs c') :
    StoreOk c → StoreOk c' ∧ c.arena.Change (bestEffort c.channels) c'.arena := by
  induction he with
  | nil => exact fun h => ⟨h, .refl h.arena⟩
  | cons he _ ih =>
    intro h
    obtain ⟨h1, hc1⟩ := store_emit h he
    obtain ⟨h2, hc2⟩ := ih h1
    exact ⟨h2, hc1.trans (hc2.mono (bestEffort_subset (emit_flags he)))⟩

theorem chanTimed_holds (cfg : Cfg) (now : UInt32) (l : Loc) :
    (chanTimed cfg now ch).holds l = ch.holds l := by
  unfold chanTimed
  split
  · rfl
  · obtain ⟨h1, -⟩ := serviceSlots_cases cfg now _ ch.snd 0 (List.nodup_finRange ncOutgoingSlots)
    cases l with
    | out k =>
      rcases h1 k with h | ⟨-, -, -, h⟩ <;> simp only [Chan.holds, h]
      rfl
    | _ => rfl

theorem chanTimed_wf (cfg : Cfg) (now : UInt32) (h : SndWf ch.snd) :
    SndWf (chanTimed cfg now ch).snd := by
  unfold chanTimed
  split
  · exact h
  · obtain ⟨h1, -⟩ := serviceSlots_cases cfg now _ ch.snd 0 (List.nodup_finRange ncOutgoingSlots)
    intro k hk
    dsimp only at hk ⊢
    rcases h1 k with he | ⟨-, -, -, he⟩
    · rw [he] at hk ⊢
      exact h k hk
    · rw [he] at hk ⊢
      exact h k hk

theorem store_service (h : StoreOk c) (env : Env) (now : UInt32) {S : Set Owner} :
    StoreOk (netchanService env c now).2 ∧ c.arena.Change S (netchanService env c now).2.arena := by
  rcases netchanService_cases env c now with ⟨-, he⟩ | ⟨-, n, he⟩
  · rw [he]
    exact store_congr h rfl rfl
  · rw [he, serviceChans_allIds]
    refine store_same h ?_ ?_ ?_
    · show (serviced env c now).pool = c.pool
      unfold serviced
      repeat' split
      all_goals rfl
    · rintro ⟨j, l⟩
      cases hj : c.channels j with
      | none => simp [Conn.arena, tableHolds, hj]
      | some ch => simp [Conn.arena, tableHolds, hj, chanTimed_holds]
    · intro j d hd
      obtain ⟨ch, hch, rfl⟩ := Option.map_eq_some_iff.1 hd
      rw [(chanTimed_rcv c.cfg now ch).2]
      exact ⟨h.rcv j ch hch, chanTimed_wf c.cfg now (h.snd j ch hch)⟩

/-! ## Every step -/

theorem rx_ok (h : StoreOk c) (hc : c.channels id = some ch) : (c.rx ch).Ok c id ch := by
  have he : c.withRx id ch (c.rx ch) = c := setChan_self c hc
  refine ⟨?_, h.rcv id ch hc⟩
  rw [Rx.arena, he]
  exact h.arena

theorem store_withRx (h : StoreOk c) (hc : c.channels id = some ch) {x : Rx} (hok : x.Ok c id ch)
    (hch : ((c.rx ch).arena c id ch).Change (inbound id) (x.arena c id ch)) :
    StoreOk (c.withRx id ch x) ∧ c.arena.Change (inbound id) (c.withRx id ch x).arena := by
  have he : c.withRx id ch (c.rx ch) = c := setChan_self c hc
  rw [Rx.arena, he] at hch
  refine ⟨?_, hch⟩
  have hev : StoreOk { c with events := x.events } :=
    (store_congr (k := { c with events := x.events }) (S := ∅) h rfl rfl).1
  exact hev.set (e := { ch with rcv := x.rcv }) (p := x.pool) hok.arena hok.wf (h.snd id ch hc)

theorem store_data (h : StoreOk c) {seq : UInt16} {idx total : Nat} {payload : List UInt8}
    (hfit : ∀ ch ∈ c.channels id, ch.role = .receiver → 1 < total →
      FragFits (maxFragPayload c) (c.rx ch) seq idx total payload.length) :
    StoreOk (dataReceived c id seq idx total payload) ∧
      c.arena.Change (inbound id) (dataReceived c id seq idx total payload).arena := by
  unfold dataReceived
  cases hc : c.channels id with
  | none => exact ⟨h, .refl h.arena⟩
  | some ch =>
    dsimp only
    split
    · exact ⟨h, .refl h.arena⟩
    · rename_i hr
      have hfit' := hfit ch hc (not_not.1 hr)
      have hx := rx_ok h hc
      split
      · obtain ⟨h1, h2⟩ := dataUnreliable_change seq idx total payload hx hfit'
        exact store_withRx h hc h1 h2
      · have hd := dataReliable_spec seq idx total payload hx hfit'
        obtain ⟨h1, h2⟩ := store_withRx h hc hd.ok hd.change
        obtain ⟨h3, h4⟩ := store_rcv (S := inbound id) h1 (Table.set_same ..)
          (r := (dataReliable (maxFragPayload c) id (c.rx ch) seq idx total payload).rcv.ack)
          rfl rfl rfl
        have he : ∀ x : Rx, (c.withRx id ch x).setChan id { ch with rcv := x.rcv.ack } =
            c.withRx id ch { x with rcv := x.rcv.ack } := fun x => by
          simp [Conn.withRx, Conn.setChan, Table.set]
        rw [← he]
        exact ⟨h3, h2.trans h4⟩

theorem store_frame (h : StoreOk c) (env : Env) {f : Frame} (hfit : FramesFit c (.frame env f)) :
    StoreOk (stepFrame env c f) ∧
      c.arena.Change (touched c (.frame env f)) (stepFrame env c f).arena := by
  by_cases hs : f.Session
  · obtain ⟨h1, h2, -⟩ := stepFrame_session env c hs
    exact store_congr h h2 h1
  cases f with
  | channelOpen j type dir ct =>
    simp only [stepFrame, applyFrame, channelOpened_eq, Option.getD_some]
    split
    · exact store_congr h rfl rfl
    · rename_i hg
      rw [not_or] at hg
      exact store_create h (Option.not_isSome_iff_eq_none.1 hg.1) rfl rfl rfl rfl
  | channelClose j error =>
    simp only [stepFrame, applyFrame, channelClosed, Option.getD_some]
    split
    · exact ⟨h, .refl h.arena⟩
    · rename_i ch hc
      exact store_setChan h hc (e := { ch with state := .closed }) (fun l => by cases l <;> rfl)
        (h.rcv j ch hc) (h.snd j ch hc) rfl rfl
  | data j seq idx total payload => exact store_data h hfit
  | ack j seq =>
    simp only [stepFrame, applyFrame, Option.getD_some]
    cases hc : c.channels j with
    | none =>
      have he : ackReceived c j seq = c := by simp only [ackReceived, hc]
      rw [he]
      exact ⟨h, .refl h.arena⟩
    | some ch =>
      obtain ⟨h1, h2⟩ := store_ack h hc seq
      exact ⟨h1, h2.mono fun o ho => ⟨ch, hc, ho⟩⟩
  | windowUpdate j w =>
    simp only [stepFrame, applyFrame, windowUpdated, Option.getD_some]
    split
    · exact ⟨h, .refl h.arena⟩
    · rename_i ch hc
      split
      · exact store_setChan h hc (e := { ch with
            snd := { ch.snd with sendWindow := w }
            state := if ch.state = .opening then .opened else ch.state })
          (fun l => by cases l <;> rfl) (h.rcv j ch hc) (h.snd j ch hc) rfl rfl
      · exact ⟨h, .refl h.arena⟩
  | _ => exact absurd trivial hs

theorem store_call (h : StoreOk c) (k : Call) :
    StoreOk (k.apply c) ∧ c.arena.Change (touched c (.call k)) (k.apply c).arena := by
  by_cases hs : k.Session
  · obtain ⟨h1, h2, -⟩ := apply_session c hs
    exact store_congr h h2 h1
  cases k with
  | service env now => exact store_service h env now
  | chanOpen type dir ct =>
    simp only [Call.apply, netchanChanOpen_eq]
    split
    · exact ⟨h, .refl h.arena⟩
    split
    · exact store_congr h rfl rfl
    · rename_i hg _
      rw [not_or] at hg
      exact store_create h (Option.not_isSome_iff_eq_none.1 hg.2) rfl rfl rfl rfl
  | chanClose j =>
    simp only [Call.apply, netchanChanClose]
    split
    · exact ⟨h, .refl h.arena⟩
    · rename_i ch hc
      split
      · exact ⟨h, .refl h.arena⟩
      · exact store_setChan h hc (e := { ch with state := .closing }) (fun l => by cases l <;> rfl)
          (h.rcv j ch hc) (h.snd j ch hc) rfl rfl
  | write j data =>
    simp only [Call.apply]
    rcases netchanChanWrite_cases c j data with ⟨he, -⟩ | ⟨ch, b, p, hw, ⟨-, -, he⟩ | ⟨-, -, he⟩⟩
    · rw [he]
      exact ⟨h, .refl h.arena⟩
    · rw [he]
      obtain ⟨h1, h2⟩ := store_written h hw
      exact ⟨h1, h2.mono fun o ho => ⟨ch, hw.chan, ho⟩⟩
    · rw [he]
      obtain ⟨h1, h2⟩ := store_skipped h hw
      exact ⟨h1, h2.mono fun o ho => ⟨ch, hw.chan, ho⟩⟩
  | read j buflen =>
    simp only [Call.apply]
    rcases netchanChanRead_cases c j buflen with ⟨he, -⟩ | ⟨ch, hc, -, hq, he⟩
    · rw [he]
      exact ⟨h, .refl h.arena⟩
    · rw [he]
      obtain ⟨h1, h2⟩ := store_read h hc hq buflen
      exact ⟨h1, h2.mono fun o ho => ⟨ch, hc, ho⟩⟩
  | _ => exact absurd trivial hs

theorem updatePeer_pool (c : Conn) (frames : List UInt8) (source : Option Addr) :
    (updatePeer c frames source).pool = c.pool := by
  obtain ⟨a, h⟩ := updatePeer_eq c frames source
  rw [h]

theorem store_sendNext (h : StoreOk c) (env : Env) (buflen : Nat) :
    StoreOk (netchanSendNext env c buflen).1 ∧
      c.arena.Change (bestEffort c.channels) (netchanSendNext env c buflen).1.arena := by
  rcases netchanSendNext_cases env c buflen with he | ⟨-, fs, c', hem, he⟩
  · rw [he]
    exact ⟨h, .refl h.arena⟩
  · rw [he]
    obtain ⟨h1, hc1⟩ := store_congr (k := ctrlFlushed c buflen) (S := bestEffort c.channels) h rfl rfl
    obtain ⟨h2, hc2⟩ := store_emits hem h1
    obtain ⟨h3, hc3⟩ := store_congr (S := bestEffort c.channels) h2
      (k := { c' with lastSendMs := env.now, pktsSent := c.pktsSent + 1 }) rfl rfl
    exact ⟨h3, (hc1.trans hc2).trans hc3⟩

/-- **Every step keeps one owner for each buffer** and leaves the owners alone that it does not
touch, provided the messages completed by reassembly fit. -/
theorem step_store (h : StoreOk c) {st : Step} (hfit : FramesFit c st) :
    StoreOk (st.apply c) ∧ c.arena.Change (touched c st) (st.apply c).arena := by
  cases st with
  | config cfg => exact store_congr h rfl rfl
  | call k => exact store_call h k
  | sendNext env buflen => exact store_sendNext h env buflen
  | header env pkt source =>
    exact store_congr h (updatePeer_pool c _ source) (updatePeer_channels c _ source)
  | frame env f => exact store_frame h env hfit

theorem store_open (server : Bool) : StoreOk (netchanOpen server) := by
  refine ⟨⟨?_, ?_, ?_⟩, ?_, ?_⟩
  · exact List.nodup_reverse.2 (List.nodup_finRange _)
  · rintro o b hb
    cases hb
  · rintro o o' b hb
    cases hb
  · rintro id ch hch
    cases hch
  · rintro id ch hch
    cases hch

end

end Netchan
