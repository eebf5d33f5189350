import Netchan.Pair.Stream
import Netchan.Proof.Loss

/-!
# The receiving half of a STREAM channel

`RecvHalf` says what the end that receives has of the messages `ms` of a STREAM channel: fragments from
before a position `q` of messages that were not passed, the messages that were passed in the queue, and
those that were read on the tape. A fragment passes a message only if it is the last one of the expected
message (`Rx.Streams.heard`), so the tape and the queue are always the messages that were passed.
-/

namespace Netchan

open Lib

/-! ## What the end has -/

/-- Message `n` is one of `ms`, has the number `seq` and was not passed. -/
structure Coming (ms : List (List UInt8)) (passed n : Nat) (seq : UInt16) : Prop where
  ge : passed ≤ n
  lt : n < ms.length
  number : seq = UInt16.ofNat n

/-- The slots have fragments of messages of `ms` that were not passed, from before position `q`, and the
reorder table is empty until the fragments of the expected message have gone by. -/
structure Rx.Streams (x : Rx) (fp pitch : Nat) (ms : List (List UInt8)) (passed q : Nat) : Prop where
  seq : x.rcv.recvSeq = UInt16.ofNat passed
  ack : x.rcv.needAck = true → x.rcv.ackSeq = ackFor (UInt16.ofNat passed)
  beyond : ∀ k, (x.rcv.reorder k).valid = true → spot (passed + 1) 0 ≤ q
  slots : x.Collects fp pitch
    (fun seq data => ∃ n, Coming ms passed n seq ∧ ms[n]? = some data)
    (fun seq j => ∃ n, Coming ms passed n seq ∧ spot n j < q)

/-- The end that receives on the channel passed the first messages of `ms` and got nothing from position
`q` on; what was read and what is in the queue are the messages it passed. -/
structure RecvHalf (c : Conn) (id : ChanId) (fp : Nat) (ms : List (List UInt8)) (passed q : Nat)
    (tape : List UInt8) : Prop where
  store : StoreOk c
  hears : ∀ ch, c.channels id = some ch →
    (c.rx ch).Streams fp (maxFragPayload c) ms passed q
  deaf : c.channels id = none → passed = 0
  low : spot passed 0 ≤ q
  le : passed ≤ ms.length
  tape : tape ++ (queued c id).flatten = (ms.take passed).flatten

section
variable {ms ms' : List (List UInt8)} {passed n m : Nat} {seq : UInt16}

/-- The numbers of the messages that are coming are different. -/
theorem Coming.eq (h : Coming ms passed n seq) (h' : Coming ms passed m seq)
    (hnear : ms.length ≤ passed + ncOutgoingSlots) : n = m := by
  have h1 := h.ge
  have h2 := h.lt
  have h3 := h'.ge
  have h4 := h'.lt
  simp only [ncOutgoingSlots] at hnear
  exact eq_of_ofNat (h.number.symm.trans h'.number) (by omega) (by omega)

theorem Coming.grow (h : Coming ms passed n seq) (hm : ms <+: ms') : Coming ms' passed n seq :=
  { h with lt := Nat.lt_of_lt_of_le h.lt hm.length_le }

end

section
variable {c c' : Conn} {id : ChanId} {ch ch' : Chan} {x x' : Rx} {fp pitch passed q q' : Nat}
  {ms ms' : List (List UInt8)} {tape tape' : List UInt8} {S : Set Owner}

theorem Rx.Streams.empty (p : Pool) (ev : Ring Event ncEventQueue) (w : UInt32) (fp pitch : Nat)
    (ms : List (List UInt8)) (q : Nat) :
    Rx.Streams ⟨p, ev, { recvWindow := w }⟩ fp pitch ms 0 q :=
  ⟨rfl, fun h => (by cases h), fun _ h => (by cases h), .empty ..⟩

theorem Rx.Streams.grow (h : x.Streams fp pitch ms passed q) (hm : ms <+: ms') (hq : q ≤ q') :
    x.Streams fp pitch ms' passed q' := by
  refine ⟨h.seq, h.ack, fun k hk => (h.beyond k hk).trans hq,
    h.slots.mono (fun _ data _ hd => ?_) fun _ j _ hj => ?_⟩
  · obtain ⟨n, hn, hd⟩ := hd
    exact ⟨n, hn.grow hm, getElem?_of_prefix hm hd⟩
  · obtain ⟨n, hn, hlt⟩ := hj
    exact ⟨n, hn.grow hm, Nat.lt_of_lt_of_le hlt hq⟩

theorem Rx.Streams.left (h : (c.rx ch).Streams fp pitch ms passed q) (hs : StoreOk c)
    (hch : c.arena.Change S c'.arena) (hc : c.channels id = some ch)
    (hS : ∀ k, (id, Loc.frag k) ∉ S) (hseq : ch'.rcv.recvSeq = ch.rcv.recvSeq)
    (hr : ch'.rcv.reorder = ch.rcv.reorder) (hf : ch'.rcv.frags = ch.rcv.frags)
    (ha : ch'.rcv.needAck = true → ch.rcv.needAck = true ∧ ch'.rcv.ackSeq = ch.rcv.ackSeq) :
    (c'.rx ch').Streams fp pitch ms passed q := by
  refine ⟨hseq.trans h.seq, fun hn => ?_, fun k hk => h.beyond k ?_,
    h.slots.frame (hs.rcv id ch hc) hf fun i b hb => ?_⟩
  · obtain ⟨h1, h2⟩ := ha hn
    exact h2.trans (h.ack h1)
  · simp only [Conn.rx, hr] at hk ⊢
    exact hk
  · refine hch.cont (id, .frag i) (hS i) b ?_
    rw [holds_of_chan hc]
    exact hb

theorem Rx.Collects.acked {M : UInt16 → List UInt8 → Prop} {B : UInt16 → Nat → Prop}
    (h : x.Collects fp pitch M B) :
    ({ x with rcv := x.rcv.ack } : Rx).Collects fp pitch M B := ⟨h.slots, h.bits, h.unique⟩

/-- Nothing waits behind the expected message before its own fragments have gone by. -/
theorem Rx.Streams.behind (h : x.Streams fp pitch ms passed q) {idx total : Nat} (hidx : idx < total)
    (hfew : total ≤ ncMaxFrags) (hq : q ≤ spot passed idx) :
    (∀ k, (x.rcv.reorder k).valid = false) ∧ x.behind = 0 := by
  have hno (k : Fin ncReorderSlots) : (x.rcv.reorder k).valid = false := by
    by_contra hk
    have hwait := h.beyond k (by simpa using hk)
    have hstep := spot_lt_nextSpot (n := passed) hidx hfew
    omega
  refine ⟨hno, ?_⟩
  by_contra hne
  have hw : waits x.rcv.reorder (x.rcv.recvSeq + 1 + UInt16.ofNat 0) = true :=
    waits_of_lt_waiting _ _ _ (Nat.pos_of_ne_zero hne)
  simp only [waits, hno, Bool.false_and, Bool.false_eq_true] at hw

/-- **A fragment comes to the end that receives**, at a position that was not reached: either no message
is passed, or the expected one, of which it is the last fragment. -/
theorem Rx.Streams.heard (h : x.Streams fp pitch ms passed q) (hok : x.Ok c id ch)
    (hlow : spot passed 0 ≤ q) (hle : passed ≤ ms.length)
    (hnear : ms.length ≤ passed + ncOutgoingSlots) {n : Nat} {data : List UInt8} {seq : UInt16}
    {idx total : Nat} {payload : List UInt8} (hp : PieceOf fp ms n data seq idx total payload)
    (hq : q ≤ spot n idx) (hshort : 1 < total → payload.length ≤ pitch)
    (hfit : 1 < total → FragFits pitch x seq idx total payload.length)
    (hroom : ¬ x.rcv.recvQueue.Full ∧ x.pool.poolFree ≠ []) :
    let x' := dataReliable pitch id x seq idx total payload
    ∃ passed' l, passed ≤ passed' ∧ spot passed' 0 ≤ nextSpot n idx total ∧ passed' ≤ ms.length ∧
      x'.queue = x.queue ++ l ∧ ms.take passed' = ms.take passed ++ l ∧
      ({ x' with rcv := x'.rcv.ack } : Rx).Streams fp pitch ms passed' (nextSpot n idx total) := by
  obtain ⟨hnum, hmsg, htotal, hfew, hcut, hidx, rfl⟩ := hp
  intro x'
  have hge : passed ≤ n := le_of_spot hidx hfew (hlow.trans hq)
  have hlt : n < ms.length := (List.getElem?_eq_some_iff.1 hmsg).1
  have hcoming : Coming ms passed n seq := ⟨hge, hlt, hnum⟩
  have hstep := spot_lt_nextSpot (n := n) hidx hfew
  have hfun (d : List UInt8) (hd : ∃ m, Coming ms passed m seq ∧ ms[m]? = some d) : d = data := by
    obtain ⟨m, hm, hd⟩ := hd
    rw [hm.eq hcoming hnear, hmsg] at hd
    exact (Option.some.inj hd).symm
  have hlater := hq.trans hstep.1.le
  obtain ⟨hcol, harr⟩ := (h.grow List.prefix_rfl hlater).slots.heard hok ⟨n, hcoming, hmsg⟩ hfun htotal
    hcut hidx ⟨n, hcoming, hstep.1⟩ hshort hfit
  have hspec := dataReliable_spec seq idx total (piece fp data idx) hok hfit
  have hseq := dataReliable_recvSeq pitch id x seq idx total (piece fp data idx)
  rw [nextSeq, completes_arrived] at hseq
  obtain ⟨l, hqueue, hsub, hall⟩ := hspec.queue
  -- no message is passed
  have hstay (hwaits : ∀ k, (x'.rcv.reorder k).valid = true → spot (passed + 1) 0 ≤ nextSpot n idx total)
      (hl : l = []) (hsame : x'.rcv.recvSeq = x.rcv.recvSeq) :
      ∃ passed' l, passed ≤ passed' ∧ spot passed' 0 ≤ nextSpot n idx total ∧ passed' ≤ ms.length ∧
        x'.queue = x.queue ++ l ∧ ms.take passed' = ms.take passed ++ l ∧
        ({ x' with rcv := x'.rcv.ack } : Rx).Streams fp pitch ms passed' (nextSpot n idx total) := by
    refine ⟨passed, l, Nat.le_refl _, hlow.trans hlater, hle, hqueue, by rw [hl, List.append_nil],
      hsame.trans h.seq, fun _ => ?_, hwaits, hcol.acked⟩
    change ackFor x'.rcv.recvSeq = _
    rw [hsame, h.seq]
  rcases harr with hnone | ⟨hdone, hfree, hbits⟩
  · rw [hnone] at hsub hseq
    refine hstay (fun k hk => ?_) (List.sublist_nil.1 hsub) ?_
    · rcases hspec.slots k hk with ⟨hs, -⟩ | ⟨d, hd, -⟩
      · exact (h.beyond k (hs ▸ hk)).trans hlater
      · rw [hnone] at hd
        cases hd
    · rw [if_neg] at hseq
      · exact hseq
      · rintro ⟨-, hc⟩
        cases hc
  rw [hdone] at hsub hseq hall
  by_cases he : n = passed
  · subst he
    have hexp : seq = x.rcv.recvSeq := hnum.trans h.seq.symm
    obtain ⟨hno, hbehind⟩ := h.behind hidx hfew hq
    have hlast : idx + 1 = total := by
      by_contra hne
      obtain ⟨i, hi, hs, hb⟩ := hbits (idx + 1) (by omega) (by omega)
      obtain ⟨m, hm, hlt'⟩ := h.slots.bits i hi _ hb
      rw [hs] at hm
      rw [hm.eq hcoming hnear] at hlt'
      have := spot_mono (Nat.le_refl n) (Nat.le_add_right idx 1)
      omega
    have hnext : nextSpot n idx total = spot (n + 1) 0 := if_pos hlast
    have hl : l = [data] := by
      rw [hall fun d hd _ => ?_]
      · simp [passed, hexp, Rx.lined, hbehind]
      · cases hd
        refine ⟨⟨hroom.1, hcut.small, hroom.2⟩, ?_, fun hb => absurd hbehind hb⟩
        have hfull := mt (Ring.full_iff (by decide) x.rcv.recvQueue).2 hroom.1
        have := Ring.size_lt x.rcv.recvQueue
        rw [hbehind]
        omega
    have hseq' : x'.rcv.recvSeq = UInt16.ofNat (n + 1) := by
      rw [if_pos ⟨hexp, rfl⟩] at hseq
      change x'.rcv.recvSeq = x.rcv.recvSeq + 1 + UInt16.ofNat x.behind at hseq
      rw [hseq, hbehind, h.seq, ofNat_succ, ← UInt16.ofNat_add, Nat.add_zero]
    refine ⟨n + 1, [data], Nat.le_succ n, hnext.ge, hlt, by rw [hqueue, hl], ?_, hseq', fun _ => ?_,
      fun k hk => ?_, ?_⟩
    · rw [List.take_add_one, hmsg]
      rfl
    · change ackFor x'.rcv.recvSeq = _
      rw [hseq']
    · rcases hspec.slots k hk with ⟨hs, -⟩ | ⟨d, -, hne, -⟩
      · have hk' : (x.rcv.reorder k).valid = true := hs ▸ hk
        rw [hno k] at hk'
        cases hk'
      · exact absurd hexp hne
    · -- no slot has the message that was passed
      have hpast (i : Fin ncFragSlots) (hi : (x'.rcv.frags i).active = true) (m : Nat)
          (hm : Coming ms n m (x'.rcv.frags i).seq) : Coming ms (n + 1) m (x'.rcv.frags i).seq := by
        refine { hm with ge := Nat.lt_of_le_of_ne hm.ge ?_ }
        rintro rfl
        exact hfree i hi (hm.number.trans hnum.symm)
      refine hcol.acked.mono (fun i d hi hd => ?_) fun i j hi hj => ?_
      · obtain ⟨m, hm, hd⟩ := hd
        exact ⟨m, hpast i hi m hm, hd⟩
      · obtain ⟨m, hm, hlt'⟩ := hj
        exact ⟨m, hpast i hi m hm, hlt'⟩
  · have hlt' : passed < n := Nat.lt_of_le_of_ne hge fun h' => he h'.symm
    have hexp : seq ≠ x.rcv.recvSeq := by
      intro hs
      rw [hnum, h.seq] at hs
      simp only [ncOutgoingSlots] at hnear
      exact he (eq_of_ofNat hs (by omega) (by omega))
    refine hstay (fun k hk => ?_) ?_ ?_
    · have := spot_mono (m := passed + 1) (n := n) hlt' (Nat.zero_le idx)
      omega
    · rw [Netchan.passed, if_neg hexp] at hsub
      exact List.sublist_nil.1 hsub
    · rw [if_neg fun hs => hexp hs.1] at hseq
      exact hseq

/-! ## Steps -/

/-- A step of the end: what it does to the channel is related by `Q`. -/
theorem RecvHalf.kept {Q : Chan → Chan → Prop} {passed' : Nat} (h : RecvHalf c id fp ms passed q tape)
    (hst : StoreOk c') (hcfg : c'.cfg = c.cfg) (hk : ChanKept c c' id Q)
    (hnone : c.channels id = none → passed' = passed ∧ tape' = tape)
    (hq : ∀ ch ch', c.channels id = some ch → Q ch ch' → c'.channels id = some ch' →
      (c'.rx ch').Streams fp (maxFragPayload c) ms' passed' q' ∧
        tape' ++ (queued c' id).flatten = (ms'.take passed').flatten)
    (hlow : spot passed' 0 ≤ q') (hle : passed' ≤ ms'.length) :
    RecvHalf c' id fp ms' passed' q' tape' := by
  have hfp : maxFragPayload c' = maxFragPayload c := maxFragPayload_congr hcfg
  have habs (hn : c.channels id = none) : passed' = 0 ∧ tape' = [] := by
    obtain ⟨h1, h2⟩ := hnone hn
    have h3 := h.deaf hn
    have htape := h.tape
    rw [h3, queued, hn] at htape
    exact ⟨h1.trans h3, h2.trans (by simpa using htape)⟩
  refine ⟨hst, fun ch' hc' => ?_, fun hn => (habs (hk.1 hn)).1, hlow, hle, ?_⟩
  · rw [hfp]
    rcases hk.2 ch' hc' with ⟨hn, hnew⟩ | ⟨ch, hc, hr⟩
    · rw [(habs hn).1, Conn.rx, hnew.rcv]
      exact .empty ..
    · exact (hq ch ch' hc hr hc').1
  · cases hc' : c'.channels id with
    | none =>
      obtain ⟨h1, h2⟩ := habs (hk.1 hc')
      simp [queued, hc', h1, h2]
    | some ch' =>
      rcases hk.2 ch' hc' with ⟨hn, hnew⟩ | ⟨ch, hc, hr⟩
      · obtain ⟨h1, h2⟩ := habs hn
        simp [queued, hc', h1, h2, hnew.rcv]
      · exact (hq ch ch' hc hr hc').2

theorem queued_rx (hc : c.channels id = some ch) : queued c id = (c.rx ch).queue := by
  simp only [queued, hc]
  rfl

theorem RecvHalf.left (h : RecvHalf c id fp ms passed q tape) (hm : ms <+: ms') (hq : q ≤ q')
    (hch : c.arena.Change S c'.arena) (hqueue : ∀ k, (id, Loc.queue k) ∉ S)
    (hfrag : ∀ k, (id, Loc.frag k) ∉ S) (hc : c.channels id = some ch)
    (hc' : c'.channels id = some ch') (hr : ch.rcv.Flagged ch'.rcv) :
    (c'.rx ch').Streams fp (maxFragPayload c) ms' passed q' ∧
      tape ++ (queued c' id).flatten = (ms'.take passed).flatten := by
  obtain ⟨a, w, hr, ha, -⟩ := hr
  refine ⟨((h.hears ch hc).left h.store hch hc hfrag (by rw [hr]) (by rw [hr]) (by rw [hr])
    fun hn => ?_).grow hm hq, ?_⟩
  · rw [hr] at hn ⊢
    exact ⟨ha hn, rfl⟩
  · obtain ⟨l, rfl⟩ := hm
    rw [queued_rx hc', queue_frame h.store hc hch hqueue (by rw [hr]), ← queued_rx hc, h.tape,
      List.take_append_of_le_length h.le]

/-- The bytes a `netchan_chan_read` returns. -/
def readBytes (c : Conn) (id : ChanId) (buflen : Nat) : List UInt8 :=
  match (netchanChanRead c id buflen).1 with
  | .ok d => d
  | .error _ => []

/-- The bytes that a call takes from the channel. -/
def Call.taken (c : Conn) (id : ChanId) : Call → List UInt8
  | .read j buflen => if j = id then readBytes c id buflen else []
  | _ => []

/-- A read on the channel takes a buffer that the oldest message fits in. -/
def Call.TakesWhole (c : Conn) (id : ChanId) : Call → Prop
  | .read j buflen => j = id → ∀ m ∈ (queued c id).head?, m.length ≤ buflen
  | _ => True

instance (c : Conn) (id : ChanId) : ∀ k : Call, Decidable (k.TakesWhole c id)
  | .read j buflen => inferInstanceAs (Decidable (j = id → ∀ m ∈ (queued c id).head?, m.length ≤ buflen))
  | .connect .. | .accept | .disconnect | .service .. | .chanOpen .. | .chanClose .. | .write .. | .poll =>
    .isTrue trivial

/-- **A call of the end that receives.** -/
theorem recvHalf_call (h : RecvHalf c id fp ms passed q tape)
    (hrole : ∀ ch, c.channels id = some ch → ch.role = .receiver) {k : Call}
    (hk : k.TakesWhole c id) :
    RecvHalf (k.apply c) id fp ms passed q (tape ++ k.taken c id) := by
  obtain ⟨hst, hch⟩ := store_call h.store k
  obtain ⟨-, hfrag⟩ := waiting_uncalled c id k
  refine h.kept hst (call_cfg c k).1 (call_effect c k id) (fun hn => ⟨rfl, ?_⟩)
    (fun ch ch' hc hq hc' => ?_) h.low h.le
  · cases k with
    | read j buflen => simp [Call.taken, readBytes, netchanChanRead, hn]
    | _ => exact List.append_nil tape
  · have hr := hrole ch hc
    by_cases hread : ∃ buflen, k = .read id buflen
    · obtain ⟨buflen, rfl⟩ := hread
      have htaken : (Call.read id buflen).taken c id = readBytes c id buflen := if_pos rfl
      have happly : (Call.read id buflen).apply c = (netchanChanRead c id buflen).2 := rfl
      rw [htaken]
      rcases netchanChanRead_cases c id buflen with ⟨he, hnil, -⟩ | ⟨d, hd, -, hne, he⟩
      · have hnone : readBytes c id buflen = [] := by
          unfold readBytes
          split
          · exact hnil _ ‹_›
          · rfl
        rw [happly, he] at hc' ⊢
        rw [hnone, List.append_nil]
        exact ⟨h.hears ch' hc', h.tape⟩
      · have hd : d = ch := Option.some.inj (hd.symm.trans hc)
        subst hd
        obtain ⟨m, hm⟩ := queue_read c hne buflen
        have hfront := read_front hc hr hm buflen
        have hwhole : readBytes c id buflen = m := by
          rw [readBytes, hfront]
          refine List.take_of_length_le (hk rfl m ?_)
          rw [queued_rx hc, hm]
          rfl
        rw [happly, he] at hc' hch ⊢
        obtain rfl := Option.some.inj ((Table.set_same ..).symm.trans hc')
        refine ⟨(h.hears d hc).left h.store hch hc hfrag rfl rfl rfl fun hn => ⟨hn, rfl⟩, ?_⟩
        have htape := h.tape
        rw [queued_rx hc, hm, List.flatten_cons] at htape
        rw [hwhole, queued_rx hc', List.append_assoc, ← htape]
        rfl
    · have hno : ¬ Receives id (.call k) := by
        rintro ⟨⟩
        exact hread ⟨_, rfl⟩
      have htaken : k.taken c id = [] := by
        cases k with
        | read j buflen =>
          refine if_neg ?_
          rintro rfl
          exact hread ⟨_, rfl⟩
        | _ => rfl
      rw [htaken, List.append_nil]
      refine h.left List.prefix_rfl (Nat.le_refl q) hch (fun i => ?_) hfrag hc hc' ?_
      · exact ((not_receives (g := {}) (c := c) hno).2 i).1
      · cases hq with
        | timed hg =>
          rw [(chanTimed_rcv c.cfg _ ch).2]
          exact .refl _
        | read hr hne => exact absurd ⟨_, rfl⟩ hread
        | _ => exact .refl _

/-- A DATA frame on the channel finds a free entry of the receive queue and a free buffer, and a
fragment is not longer than what this end takes for one. -/
def Frame.FindsRoom (c : Conn) (id : ChanId) : Frame → Prop
  | .data j _ _ total payload => j = id → ∀ ch ∈ c.channels id, ch.role = .receiver →
    (¬ ch.rcv.recvQueue.Full ∧ c.pool.poolFree ≠ []) ∧
      (1 < total → payload.length ≤ maxFragPayload c)
  | _ => True

instance (c : Conn) (id : ChanId) : ∀ f : Frame, Decidable (f.FindsRoom c id)
  | .data j _ _ total payload => inferInstanceAs (Decidable (j = id → ∀ ch ∈ c.channels id,
      ch.role = .receiver → (¬ ch.rcv.recvQueue.Full ∧ c.pool.poolFree ≠ []) ∧
        (1 < total → payload.length ≤ maxFragPayload c)))
  | .connectInit _ | .connectAccept _ _ _ | .connectRedirect _ _ | .disconnect _ | .ping _ | .pong _
  | .channelOpen _ _ _ _ | .channelClose _ _ | .ack _ _ | .windowUpdate _ _ => .isTrue trivial

/-- **A frame reaches the end that receives.** -/
theorem recvHalf_frame (h : RecvHalf c id fp ms passed q tape)
    (hkind : ∀ ch, c.channels id = some ch → ch.role = .receiver ∧ ch.type = .stream)
    (hnear : ms.length ≤ passed + ncOutgoingSlots) (env : Env) {f : Frame}
    (hfit : FramesFit c (.frame env f)) (hroom : f.FindsRoom c id) (hf : f.Advances id fp ms q q') :
    ∃ passed', passed ≤ passed' ∧ RecvHalf (stepFrame env c f) id fp ms passed' q' tape := by
  obtain ⟨hst, hch⟩ := store_frame h.store env hfit
  have hcfg := (stepFrame_fixed env c f).2.1
  have hle := (advances_climbing id fp ms).le hf
  by_cases hdata : ∃ ch seq idx total payload, c.channels id = some ch ∧
      f = .data id seq idx total payload
  · obtain ⟨ch, seq, idx, total, payload, hc, rfl⟩ := hdata
    obtain ⟨hr, ht⟩ := hkind ch hc
    obtain ⟨n, data, hp, hq, rfl⟩ := advances_data.1 hf
    obtain ⟨hplace, hshort⟩ := hroom rfl ch hc hr
    obtain ⟨passed', l, h1, h2, h3, hqueue, htake, hstr⟩ := (h.hears ch hc).heard
      (rx_ok h.store hc) h.low h.le hnear hp hq hshort (hfit ch hc hr) hplace
    have hstep := stepFrame_data env hc hr (by simp [ht] : ch.type ≠ .unreliable) seq idx total payload
    refine ⟨passed', h1, h.kept hst hcfg (frame_effect env c _ id)
      (fun hn => by rw [hn] at hc; cases hc) (fun d d' hd _ hd' => ?_) h2 h3⟩
    have hd : d = ch := Option.some.inj (hd.symm.trans hc)
    subst hd
    rw [hstep] at hd' ⊢
    obtain rfl := Option.some.inj ((Table.set_same ..).symm.trans hd')
    refine ⟨hstr, ?_⟩
    have htape := h.tape
    rw [queued_rx hc] at htape
    rw [queued_rx hd', htake, List.flatten_append, ← htape, List.append_assoc, ← List.flatten_append]
    exact congrArg (fun l => tape ++ List.flatten l) hqueue
  · refine ⟨passed, Nat.le_refl _, h.kept hst hcfg (frame_effect env c f id) (fun _ => ⟨rfl, rfl⟩)
      (fun ch ch' hc hq hc' => ?_) (h.low.trans hle) h.le⟩
    have hno (seq : UInt16) (idx total : Nat) (payload : List UInt8) :
        f ≠ .data id seq idx total payload := fun he => hdata ⟨ch, _, _, _, _, hc, he⟩
    refine h.left List.prefix_rfl hle hch (fun _ => unheard_untouched env hno (by simp))
      (fun _ => unheard_untouched env hno (by simp)) hc hc' ?_
    cases hq with
    | data hr => exact absurd rfl (hno _ _ _ _)
    | _ => exact .refl _

/-- **A frame leaves the end that receives**: an acknowledgement covers the messages that were
passed. -/
theorem recvHalf_emit (h : RecvHalf c id fp ms passed q tape)
    (hids : ∀ j d, c.channels j = some d → d.id = j) {now : UInt32} {f : Frame} (he : Emit now c f c') :
    f.Acks id passed passed ∧ RecvHalf c' id fp ms passed q tape := by
  obtain ⟨hst, hch⟩ := store_emit h.store he
  have hS {l : Loc} (hl : ∀ k, l ≠ .out k) : (id, l) ∉ bestEffort c.channels := by
    rintro ⟨d, -, -, k, hk⟩
    exact hl k hk
  refine ⟨?_, h.kept hst (emit_cfg he).1 (emit_effect he hids id) (fun _ => ⟨rfl, rfl⟩)
    (fun ch ch' hc hq hc' => ?_) h.low h.le⟩
  · cases he with
    | @ack j ch hc hn =>
      refine ⟨Nat.le_refl _, fun hj => (h.hears ch ?_).ack hn⟩
      rw [← hj, hids j ch hc]
      exact hc
    | _ => exact Nat.le_refl _
  · refine h.left List.prefix_rfl (Nat.le_refl q) hch (fun _ => hS (by simp)) (fun _ => hS (by simp))
      hc hc' ?_
    cases hq with
    | @data k hs =>
      rw [(chanSent_rcv now c.pool ch k).2]
      exact .refl _
    | ack hn => exact ⟨false, _, rfl, fun hf => (by cases hf), fun hw => hw⟩
    | window hn => exact ⟨_, false, rfl, fun ha => ha, fun hf => (by cases hf)⟩
    | other hne => exact .refl _

theorem RecvHalf.grow (h : RecvHalf c id fp ms passed q tape) (hm : ms <+: ms') (hq : q ≤ q') :
    RecvHalf c id fp ms' passed q' tape := by
  refine ⟨h.store, fun ch hc => (h.hears ch hc).grow hm hq, h.deaf, h.low.trans hq,
    h.le.trans hm.length_le, ?_⟩
  obtain ⟨l, rfl⟩ := hm
  rw [List.take_append_of_le_length h.le]
  exact h.tape

theorem RecvHalf.alike (h : RecvHalf c id fp ms passed q tape) (ha : c.Alike c') :
    RecvHalf c' id fp ms passed q tape := by
  refine ⟨(store_congr (S := ∅) h.store ha.pool ha.channels).1, fun ch hc => ?_,
    fun hn => h.deaf (ha.channels ▸ hn), h.low, h.le, ?_⟩
  · rw [ha.channels] at hc
    rw [maxFragPayload_congr ha.cfg]
    obtain ⟨h1, h2, h3, h4⟩ := h.hears ch hc
    refine ⟨h1, h2, h3, ?_⟩
    simp only [Conn.rx, ha.pool]
    exact ⟨h4.slots, h4.bits, h4.unique⟩
  · have htape := h.tape
    simp only [queued] at htape ⊢
    rw [ha.channels, ha.pool]
    exact htape

theorem SendHalf.alike {acked r : Nat} (h : SendHalf c id ms acked r) (ha : c.Alike c') :
    SendHalf c' id ms acked r := by
  refine ⟨(store_congr (S := ∅) h.store ha.pool ha.channels).1, ?_, fun hn => ?_, h.bound⟩
  · rw [ha.channels, ha.pool, maxFragPayload_congr ha.cfg]
    exact h.sends
  · exact h.mute (ha.channels ▸ hn)

end

end Netchan
