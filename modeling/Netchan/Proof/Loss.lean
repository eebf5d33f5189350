import Netchan.Proof.Owners

/-!
# No silent loss

`Passing` is the history of one reliable receiver channel: the messages its `recv_seq` has moved
past, under their sequence numbers, and how many of them `netchan_chan_read` has taken. It is
computed from what arrives, never from the receive queue. `no_silent_loss`: along every run in
which the expected message and those behind it find room (`HasRoom`), the receive queue holds
exactly the messages passed and not yet taken.
-/

namespace Netchan

open Lib

/-! ## The history of a channel -/

structure Passing where
  passed : List (UInt16 × List UInt8) := []
  taken : Nat := 0
  /-- What was last put into each reorder slot. -/
  kept : Fin ncReorderSlots → UInt16 × List UInt8 := fun _ => (0, [])

instance (x : Rx) (seq : UInt16) (len : Nat) : Decidable (x.Keeps seq len) :=
  inferInstanceAs (Decidable (_ ∧ _))

namespace Passing

/-- The messages kept under the `n` sequence numbers from `s` on. -/
def lined (g : Passing) (s : UInt16) (n : Nat) : List (UInt16 × List UInt8) :=
  (List.range n).map fun j => g.kept (reorderSlot (s + UInt16.ofNat j))

/-- A whole message arrives: it is passed with those that wait behind it, or kept, or dropped. -/
def arrive (g : Passing) (x : Rx) (seq : UInt16) (data : List UInt8) : Passing :=
  if seq = x.rcv.recvSeq then { g with passed := g.passed ++ (seq, data) :: g.lined (seq + 1) x.behind }
  else if x.Keeps seq data.length then
    { g with kept := Function.update g.kept (reorderSlot seq) (seq, data) }
  else g

/-- The history of channel `id` after a step taken in state `c`. -/
def after (g : Passing) (id : ChanId) (c : Conn) : Step → Passing
  | .frame _ (.data j seq idx total payload) =>
    match c.channels id with
    | none => g
    | some ch =>
      if j = id ∧ ch.role = .receiver ∧ ch.type ≠ .unreliable then
        match arrived (maxFragPayload c) (c.rx ch) seq idx total payload with
        | none => g
        | some data => g.arrive (c.rx ch) seq data
      else g
  | .call (.read j _) =>
    match c.channels id with
    | none => g
    | some ch =>
      if j = id ∧ ch.role = .receiver ∧ ¬ ch.rcv.recvQueue.Empty then { g with taken := g.taken + 1 }
      else g
  | _ => g

end Passing

/-- A connection with the history of one of its channels. -/
def stepPassing (id : ChanId) (x : Conn × Passing) (st : Step) : Conn × Passing :=
  (st.apply x.1, x.2.after id x.1 st)

/-- The history of channel `id` along a run from `netchan_open`. -/
def passing (server : Bool) (id : ChanId) (sts : List Step) : Passing :=
  (run (stepPassing id) (netchanOpen server, {}) sts).2

theorem stepPassing_conn (id : ChanId) : ∀ (sts : List Step) (x : Conn × Passing),
    (run (stepPassing id) x sts).1 = run Step.apply x.1 sts
  | [], _ => rfl
  | st :: sts, x => stepPassing_conn id sts (stepPassing id x st)

/-! ## Room -/

/-- The length of the whole message a DATA frame is or completes. -/
def arrivedLen (fp : Nat) (x : Rx) (seq : UInt16) (idx total len : Nat) : Option Nat :=
  if total ≤ 1 then some len else completedLen fp x seq idx total len

theorem length_arrived (fp : Nat) (x : Rx) (seq : UInt16) (idx total : Nat) (payload : List UInt8) :
    (arrived fp x seq idx total payload).map List.length =
      arrivedLen fp x seq idx total payload.length := by
  unfold arrived arrivedLen
  split
  · rfl
  · rw [← (fragStore_seq fp x seq idx total payload).2.2]
    split
    · rename_i he
      rw [he]
      rfl
    · rename_i he
      rw [he]
      simp [assembled, Pool.read]

theorem completes_arrived (fp : Nat) (x : Rx) (seq : UInt16) (idx total : Nat) (payload : List UInt8) :
    completes fp x seq idx total payload.length =
      (arrived fp x seq idx total payload).isSome := by
  rw [← Option.isSome_map (f := List.length), length_arrived, completes, arrivedLen]
  by_cases htot : total ≤ 1 <;> simp [htot]

/-- Messages completed by reassembly fit in a buffer; and the expected message of a reliable
channel, with those that wait behind it, finds room in the receive queue and in the pool. -/
def HasRoom (c : Conn) (st : Step) : Prop :=
  FramesFit c st ∧
    match st with
    | .frame _ (.data id seq idx total payload) =>
      ∀ ch ∈ c.channels id, ch.role = .receiver → ch.type ≠ .unreliable → seq = ch.rcv.recvSeq →
        ∀ n ∈ arrivedLen (maxFragPayload c) (c.rx ch) seq idx total payload.length,
          (c.rx ch).PassRoom n (c.rx ch).behind
    | _ => True

instance (x : Rx) (len n : Nat) : Decidable (x.PassRoom len n) :=
  decidable_of_iff ((¬ x.rcv.recvQueue.Full ∧ len ≤ ncMaxMsg ∧ x.pool.poolFree ≠ []) ∧
      x.rcv.recvQueue.size + 1 + n < ncRecvQueue ∧ (n ≠ 0 → 2 ≤ x.pool.poolFree.length))
    ⟨fun h => ⟨⟨h.1.1, h.1.2.1, h.1.2.2⟩, h.2.1, h.2.2⟩,
      fun h => ⟨⟨h.first.queue, h.first.small, h.first.pool⟩, h.queue, h.pool⟩⟩

instance (c : Conn) (st : Step) : Decidable (HasRoom c st) :=
  match st with
  | .frame _ (.data id seq idx total payload) =>
    inferInstanceAs (Decidable ((∀ ch ∈ c.channels id, ch.role = .receiver → 1 < total →
        FragFits (maxFragPayload c) (c.rx ch) seq idx total payload.length) ∧
      ∀ ch ∈ c.channels id, ch.role = .receiver → ch.type ≠ .unreliable → seq = ch.rcv.recvSeq →
        ∀ n ∈ arrivedLen (maxFragPayload c) (c.rx ch) seq idx total payload.length,
          (c.rx ch).PassRoom n (c.rx ch).behind))
  | .frame _ (.connectInit _) | .frame _ (.connectAccept _ _ _) | .frame _ (.connectRedirect _ _)
  | .frame _ (.disconnect _) | .frame _ (.ping _) | .frame _ (.pong _)
  | .frame _ (.channelOpen _ _ _ _) | .frame _ (.channelClose _ _) | .frame _ (.ack _ _)
  | .frame _ (.windowUpdate _ _) | .config _ | .call _ | .sendNext _ _ | .header _ _ _ =>
    .isTrue ⟨trivial, trivial⟩

/-! ## The invariant -/

/-- The receive queue holds what was passed and not taken, and the reorder table what was kept. -/
structure NoLoss (x : Rx) (g : Passing) : Prop where
  queue : x.queue = (g.passed.drop g.taken).map Prod.snd
  taken : g.taken ≤ g.passed.length
  seqs : g.passed.map Prod.fst = (List.range g.passed.length).map UInt16.ofNat
  recvSeq : x.rcv.recvSeq = UInt16.ofNat g.passed.length
  slots : ∀ k, (x.rcv.reorder k).valid = true →
    g.kept k = ((x.rcv.reorder k).seq, x.slotBytes k)

namespace NoLoss

variable {c : Conn} {id : ChanId} {ch : Chan} {x x' : Rx} {g : Passing}

/-- The messages behind the expected one were kept under their numbers. -/
theorem lined (h : NoLoss x g) :
    g.lined (x.rcv.recvSeq + 1) x.behind = (List.range x.behind).map fun j =>
      (x.rcv.recvSeq + 1 + UInt16.ofNat j,
        x.slotBytes (reorderSlot (x.rcv.recvSeq + 1 + UInt16.ofNat j))) := by
  refine List.map_congr_left fun j hj => ?_
  have hw := waits_of_lt_waiting _ _ _ (List.mem_range.1 hj)
  simp only [waits, Bool.and_eq_true, beq_iff_eq] at hw
  rw [h.slots _ hw.1, hw.2]

/-- The numbers of the messages passed, after the next one and those behind it. -/
theorem seqs_append {n b : Nat} :
    (List.range n).map UInt16.ofNat ++ UInt16.ofNat n ::
        (List.range b).map (fun j => UInt16.ofNat n + 1 + UInt16.ofNat j) =
      (List.range (n + (1 + b))).map UInt16.ofNat := by
  have hb : (List.range b).map (fun j => UInt16.ofNat n + 1 + UInt16.ofNat j) =
      (List.range b).map (fun j => UInt16.ofNat (n + (1 + j))) := by
    refine List.map_congr_left fun j _ => ?_
    rw [ofNat_succ, ← UInt16.ofNat_add, Nat.add_assoc]
  have h1 : List.range (1 + b) = 0 :: (List.range b).map (1 + ·) := by
    rw [List.range_add]
    rfl
  rw [List.range_add, h1, hb]
  simp [Function.comp_def]

/-- **A whole message arrives.** -/
theorem arrive (h : NoLoss x g) {seq : UInt16} {data : List UInt8}
    (hd : DataSpec c id ch x x' seq (some data))
    (hroom : seq = x.rcv.recvSeq → x.PassRoom data.length x.behind)
    (hnext : x'.rcv.recvSeq =
      if seq = x.rcv.recvSeq then x.rcv.recvSeq + 1 + UInt16.ofNat x.behind else x.rcv.recvSeq) :
    NoLoss x' (g.arrive x seq data) := by
  obtain ⟨l, hq, -, hl⟩ := hd.queue
  have hl := hl fun d hdd hs => by cases hdd; exact hroom hs
  subst hl
  by_cases hs : seq = x.rcv.recvSeq
  · have hg : g.arrive x seq data =
        { g with passed := g.passed ++ (seq, data) :: g.lined (seq + 1) x.behind } := if_pos hs
    have hp : passed x seq (some data) =
        ((seq, data) :: g.lined (seq + 1) x.behind).map Prod.snd := by
      rw [passed, if_pos hs, hs, h.lined]
      simp [Rx.lined, Function.comp_def]
    have hlen : (g.lined (seq + 1) x.behind).length = x.behind := by simp [Passing.lined]
    rw [hg]
    refine ⟨?_, ?_, ?_, ?_, fun k hk => ?_⟩
    · rw [hq, hp, h.queue, List.drop_append_of_le_length h.taken, List.map_append]
    · have := h.taken
      simp only [List.length_append]
      omega
    · simp only [List.map_append, List.map_cons, List.length_append, List.length_cons, hlen, h.seqs]
      rw [hs, h.lined, h.recvSeq, List.map_map, Nat.add_comm x.behind 1, ← seqs_append]
      rfl
    · simp only [List.length_append, List.length_cons, hlen]
      rw [hnext, if_pos hs, h.recvSeq, ofNat_succ, ← UInt16.ofNat_add]
      exact congrArg UInt16.ofNat (by omega)
    · rcases hd.slots k hk with ⟨h1, h2⟩ | ⟨d, -, hne, -⟩
      · rw [h1, h2]
        exact h.slots k (h1 ▸ hk)
      · exact absurd hs hne
  · have hp : passed x seq (some data) = [] := if_neg hs
    rw [hp, List.append_nil] at hq
    rw [if_neg hs] at hnext
    have hslots : ∀ k, (x'.rcv.reorder k).valid = true →
        (g.arrive x seq data).kept k = ((x'.rcv.reorder k).seq, x'.slotBytes k) := by
      intro k hk
      rcases hd.slots k hk with ⟨h1, h2⟩ | ⟨d, hdd, -, rfl, h4, h5, h6⟩
      · rw [h1, h2, ← h.slots k (h1 ▸ hk)]
        unfold Passing.arrive
        rw [if_neg hs]
        split
        · rename_i hkeep
          -- the slot was free, so it is another one that was written
          refine Function.update_of_ne (fun he => ?_) _ _
          have := hkeep.2.1.1
          rw [← he, ← h1, hk] at this
          cases this
        · rfl
      · cases hdd
        unfold Passing.arrive
        rw [if_neg hs, if_pos h6, h4, h5]
        exact Function.update_self ..
    have hg : (g.arrive x seq data).passed = g.passed ∧ (g.arrive x seq data).taken = g.taken := by
      unfold Passing.arrive
      rw [if_neg hs]
      split <;> exact ⟨rfl, rfl⟩
    refine ⟨?_, ?_, ?_, ?_, hslots⟩
    · rw [hg.1, hg.2, hq, h.queue]
    · rw [hg.1, hg.2]
      exact h.taken
    · rw [hg.1]
      exact h.seqs
    · rw [hg.1, hnext, h.recvSeq]

theorem fragment (h : NoLoss x g) {seq : UInt16} (hd : DataSpec c id ch x x' seq none)
    (hnext : x'.rcv.recvSeq = x.rcv.recvSeq) : NoLoss x' g := by
  obtain ⟨l, hq, hsub, -⟩ := hd.queue
  have hl : l = [] := List.sublist_nil.1 hsub
  rw [hl, List.append_nil] at hq
  refine ⟨hq.trans h.queue, h.taken, h.seqs, hnext.trans h.recvSeq, fun k hk => ?_⟩
  rcases hd.slots k hk with ⟨h1, h2⟩ | ⟨d, hdd, -⟩
  · rw [h1, h2]
    exact h.slots k (h1 ▸ hk)
  · cases hdd

end NoLoss

/-- The invariant of a connection and the history of channel `id`. -/
structure LossInv (id : ChanId) (x : Conn × Passing) : Prop where
  store : StoreOk x.1
  absent : x.1.channels id = none → x.2 = {}
  noLoss : ∀ ch, x.1.channels id = some ch → ch.role = .receiver → ch.type ≠ .unreliable →
    NoLoss (x.1.rx ch) x.2

section
variable {id : ChanId} {c : Conn} {g : Passing}

theorem NoLoss.empty (p : Pool) (ev : Ring Event ncEventQueue) (w : UInt32) :
    NoLoss ⟨p, ev, { recvWindow := w }⟩ {} := by
  refine ⟨?_, by simp, by simp, rfl, by simp⟩
  simp [Rx.queue]

theorem queue_frame {c' : Conn} {ch ch' : Chan} {S : Set Owner} (hs : StoreOk c)
    (hc : c.channels id = some ch) (hch : c.arena.Change S c'.arena)
    (hS : ∀ k, (id, Loc.queue k) ∉ S) (hr : ch'.rcv.recvQueue = ch.rcv.recvQueue) :
    (c'.rx ch').queue = (c.rx ch).queue := by
  simp only [Rx.queue, Conn.rx, hr]
  refine List.map_congr_left fun e he => ?_
  obtain ⟨⟨b, hb⟩, hl⟩ := (hs.rcv id ch hc).queue e he
  obtain ⟨k, hk⟩ := mem_toList he
  rw [hb]
  refine read_of_bytes (hch.cont (id, .queue k) (hS k) b ?_) (by omega)
  rw [holds_of_chan hc]
  simp [Chan.holds, hk, hb]

theorem NoLoss.frame {c' : Conn} {ch ch' : Chan} {S : Set Owner} (h : NoLoss (c.rx ch) g)
    (hs : StoreOk c) (hc : c.channels id = some ch) (hch : c.arena.Change S c'.arena)
    (hS : ∀ k, (id, Loc.queue k) ∉ S ∧ (id, Loc.reorder k) ∉ S)
    (hf : ch.rcv.Flagged ch'.rcv) : NoLoss (c'.rx ch') g := by
  obtain ⟨a, w, hr, -, -⟩ := hf
  have hq : (c'.rx ch').queue = (c.rx ch).queue :=
    queue_frame hs hc hch (fun k => (hS k).1) (by rw [hr])
  refine ⟨hq.trans h.queue, h.taken, h.seqs, ?_, fun k hk => ?_⟩
  · simp only [Conn.rx, hr]
    exact h.recvSeq
  · simp only [Conn.rx, hr] at hk ⊢
    obtain ⟨⟨b, hb⟩, hl⟩ := (hs.rcv id ch hc).reorder k hk
    rw [h.slots k hk]
    simp only [Rx.slotBytes, Conn.rx, hb]
    rw [read_of_bytes (hch.cont (id, .reorder k) (hS k).2 b ?_) (by omega)]
    rw [holds_of_chan hc]
    exact hb

theorem noLoss_data {ch : Chan} (hs : StoreOk c) (hc : c.channels id = some ch)
    (hr : ch.role = .receiver) (ht : ch.type ≠ .unreliable) (h : NoLoss (c.rx ch) g) {env : Env}
    {seq : UInt16} {idx total : Nat} {payload : List UInt8}
    (hroom : HasRoom c (.frame env (.data id seq idx total payload))) :
    NoLoss (dataReliable (maxFragPayload c) id (c.rx ch) seq idx total payload)
      (g.after id c (.frame env (.data id seq idx total payload))) := by
  have hd := dataReliable_spec seq idx total payload (rx_ok hs hc) (hroom.1 ch hc hr)
  have hnext := dataReliable_recvSeq (maxFragPayload c) id (c.rx ch) seq idx total payload
  have hlen := length_arrived (maxFragPayload c) (c.rx ch) seq idx total payload
  have hcomp := completes_arrived (maxFragPayload c) (c.rx ch) seq idx total payload
  have hg : g.after id c (.frame env (.data id seq idx total payload)) =
      match arrived (maxFragPayload c) (c.rx ch) seq idx total payload with
      | none => g
      | some data => g.arrive (c.rx ch) seq data := by
    simp only [Passing.after, hc]
    exact if_pos ⟨trivial, hr, ht⟩
  rw [hg]
  cases harr : arrived (maxFragPayload c) (c.rx ch) seq idx total payload with
  | none =>
    rw [harr] at hd hcomp
    refine h.fragment hd ?_
    rw [hnext, nextSeq, if_neg]
    rintro ⟨-, hcc⟩
    rw [hcomp] at hcc
    cases hcc
  | some data =>
    rw [harr] at hd hcomp hlen
    refine h.arrive hd (fun he => ?_) ?_
    · exact hroom.2 ch hc hr ht he data.length hlen.symm
    · rw [hnext, nextSeq]
      simp only [hcomp, Option.isSome_some, and_true]
      rfl

theorem poolPut_read (p : Pool) (b o : Option BufIdx) (n : Nat) :
    (poolPut p b).read o 0 n = p.read o 0 n := by
  cases b <;> rfl

theorem queue_read (c : Conn) {ch : Chan} (hq : ¬ ch.rcv.recvQueue.Empty) (buflen : Nat) :
    ∃ m, (c.rx ch).queue = m ::
      Rx.queue ⟨poolPut c.pool ch.rcv.recvQueue.front.buf, c.events, readRcv ch.rcv buflen⟩ := by
  refine ⟨c.pool.read ch.rcv.recvQueue.front.buf 0 ch.rcv.recvQueue.front.len, ?_⟩
  simp only [Rx.queue, Conn.rx, readRcv, poolPut_read]
  rw [Ring.toList_pop (by decide) hq ({} : RecvEntry), List.map_cons]

theorem noLoss_read {ch : Chan} (hc : c.channels id = some ch)
    (hr : ch.role = .receiver) (h : NoLoss (c.rx ch) g) (hq : ¬ ch.rcv.recvQueue.Empty)
    (buflen : Nat) :
    NoLoss ⟨poolPut c.pool ch.rcv.recvQueue.front.buf, c.events, readRcv ch.rcv buflen⟩
        (g.after id c (.call (.read id buflen))) := by
  have hg : g.after id c (.call (.read id buflen)) = { g with taken := g.taken + 1 } := by
    simp only [Passing.after, hc]
    exact if_pos ⟨trivial, hr, hq⟩
  obtain ⟨m, hm⟩ := queue_read c hq buflen
  have hqueue := h.queue
  rw [hm] at hqueue
  have hlt : g.taken < g.passed.length := by
    by_contra hge
    rw [List.drop_eq_nil_of_le (by omega)] at hqueue
    cases hqueue
  rw [List.drop_eq_getElem_cons hlt, List.map_cons] at hqueue
  rw [hg]
  refine ⟨?_, hlt, h.seqs, h.recvSeq, fun k hk => ?_⟩
  · exact (List.cons.inj hqueue).2
  · rw [h.slots k hk]
    simp only [Rx.slotBytes, poolPut_read]
    rfl

/-- The steps that can change what channel `id` has received. -/
inductive Receives (id : ChanId) : Step → Prop
  | data (env : Env) (seq : UInt16) (idx total : Nat) (payload : List UInt8) :
      Receives id (.frame env (.data id seq idx total payload))
  | read (buflen : Nat) : Receives id (.call (.read id buflen))

theorem not_receives {st : Step} (hst : ¬ Receives id st) :
    g.after id c st = g ∧
      ∀ k, (id, Loc.queue k) ∉ touched c st ∧ (id, Loc.reorder k) ∉ touched c st := by
  cases st with
  | frame env f =>
    cases f with
    | data j seq idx total payload =>
      by_cases hj : j = id
      · subst hj
        exact absurd (.data env seq idx total payload) hst
      · refine ⟨?_, fun k => ⟨fun h => hj h.1.symm, fun h => hj h.1.symm⟩⟩
        simp only [Passing.after]
        split
        · rfl
        · exact if_neg fun h => hj h.1
    | ack j seq =>
      refine ⟨rfl, fun k => ⟨?_, ?_⟩⟩
      all_goals
        rintro ⟨ch, -, -, i, hi, -⟩
        cases hi
    | _ => exact ⟨rfl, fun k => ⟨fun h => h, fun h => h⟩⟩
  | call k =>
    cases k with
    | read j buflen =>
      by_cases hj : j = id
      · subst hj
        exact absurd (.read buflen) hst
      · refine ⟨?_, fun k => ⟨?_, ?_⟩⟩
        · simp only [Passing.after]
          split
          · rfl
          · exact if_neg fun h => hj h.1
        all_goals
          rintro ⟨ch, -, he⟩
          exact hj (congrArg Prod.fst he).symm
    | write j data =>
      refine ⟨rfl, fun k => ⟨?_, ?_⟩⟩
      all_goals
        rintro ⟨ch, -, he⟩
        cases he
    | _ => exact ⟨rfl, fun k => ⟨fun h => h, fun h => h⟩⟩
  | sendNext env buflen =>
    refine ⟨rfl, fun k => ⟨?_, ?_⟩⟩
    all_goals
      rintro ⟨ch, -, -, i, hi⟩
      cases hi
  | _ => exact ⟨rfl, fun k => ⟨fun h => h, fun h => h⟩⟩

theorem after_absent (hc : c.channels id = none) (g : Passing) (st : Step) : g.after id c st = g := by
  unfold Passing.after
  split
  · rw [hc]
  · rw [hc]
  · rfl

/-- **Every step with room keeps the invariant.** -/
theorem lossInv_step {x : Conn × Passing} {st : Step} (h : LossInv id x) (hroom : HasRoom x.1 st) :
    LossInv id (stepPassing id x st) := by
  obtain ⟨c, g⟩ := x
  obtain ⟨hs, habs, hno⟩ := h
  dsimp only at hs habs hno hroom
  obtain ⟨hs', hch⟩ := step_store hs hroom.1
  have hkind := step_chan c st id
  refine ⟨hs', fun hn => ?_, fun ch' hc' hr ht => ?_⟩
  · -- a channel that is absent now was absent before
    dsimp only [stepPassing] at hn ⊢
    rw [hn] at hkind
    generalize hc : c.channels id = o at hkind
    cases hkind
    rw [after_absent hc]
    exact habs hc
  dsimp only [stepPassing] at hc' ⊢
  rw [hc'] at hkind
  generalize hc : c.channels id = o at hkind
  cases hkind with
  | created hid hsnd hrcv =>
    rw [after_absent hc, habs hc, Conn.rx, hrcv]
    exact .empty ..
  | @kept ch _ hk hrc =>
    have hr0 : ch.role = .receiver := hk.role.symm.trans hr
    have ht0 : ch.type ≠ .unreliable := fun he => ht (hk.type.trans he)
    have h0 := hno ch hc hr0 ht0
    by_cases hst : Receives id st
    · cases hst with
      | data env seq idx total payload =>
        have he := stepFrame_data env hc hr0 ht0 seq idx total payload
        have hd := noLoss_data hs hc hr0 ht0 h0 hroom
        simp only [Step.apply, he] at hc' ⊢
        cases (Table.set_same ..).symm.trans hc'
        exact ⟨hd.queue, hd.taken, hd.seqs, hd.recvSeq, hd.slots⟩
      | read buflen =>
        rcases netchanChanRead_cases c id buflen with ⟨he, -, hempty⟩ | ⟨d, hcd, -, hq, he⟩
        · have hg : g.after id c (.call (.read id buflen)) = g := by
            simp only [Passing.after, hc]
            exact if_neg fun h => h.2.2 (hempty ch hc hr0)
          simp only [Step.apply, Call.apply, he, hc] at hc' ⊢
          cases hc'
          rw [hg]
          exact h0
        · rw [hc] at hcd
          cases hcd
          have hd := noLoss_read hc hr0 h0 hq buflen
          simp only [Step.apply, Call.apply, he] at hc' ⊢
          cases (Table.set_same ..).symm.trans hc'
          exact hd
    · obtain ⟨hg, hS⟩ := not_receives (g := g) (c := c) hst
      rw [hg]
      generalize hr' : ch'.rcv = r' at hrc
      cases hrc with
      | flags hf => exact h0.frame hs hc hch hS (hr' ▸ hf)
      | read buflen => exact absurd (.read buflen) hst
      | data env seq idx total payload => exact absurd (.data env seq idx total payload) hst

end

theorem read_front {c : Conn} {id : ChanId} {ch : Chan} {m : List UInt8} {ms : List (List UInt8)}
    (hc : c.channels id = some ch) (hr : ch.role = .receiver) (hq : (c.rx ch).queue = m :: ms)
    (buflen : Nat) : (netchanChanRead c id buflen).1 = .ok (m.take buflen) := by
  rcases netchanChanRead_cases c id buflen with ⟨-, -, hempty⟩ | ⟨d, hcd, -, hne, he⟩
  · have := (Ring.toList_eq_nil _).2 (hempty ch hc hr)
    simp [Rx.queue, Conn.rx, this] at hq
  · rw [hc] at hcd
    cases hcd
    simp only [Rx.queue, Conn.rx] at hq
    rw [Ring.toList_pop (by decide) hne {}, List.map_cons] at hq
    obtain ⟨rfl, -⟩ := List.cons.inj hq
    rw [he]
    refine congrArg Except.ok ?_
    unfold Pool.read
    rw [← Mem.take_read _ _ (Nat.min_le_left _ _)]
    rcases Nat.le_total ch.rcv.recvQueue.front.len buflen with hle | hle
    · rw [Nat.min_eq_left hle, List.take_of_length_le (by simp), List.take_of_length_le (by simpa)]
    · rw [Nat.min_eq_right hle]

/-- **No silent loss**: along every run in which what is passed finds room, `recv_seq` counts the
messages passed, the receive queue holds those not yet taken, in order and byte for byte, and
`netchan_chan_read` returns the oldest of them. -/
theorem no_silent_loss {server : Bool} {sts : List Step}
    (h : Along Step.apply HasRoom (netchanOpen server) sts) {id : ChanId} {ch : Chan}
    (hch : (runConn server sts).channels id = some ch) (hr : ch.role = .receiver)
    (ht : ch.type ≠ .unreliable) :
    let g := passing server id sts
    ch.rcv.recvSeq = UInt16.ofNat g.passed.length ∧
      g.passed.map Prod.fst = (List.range g.passed.length).map UInt16.ofNat ∧
      queued (runConn server sts) id = (g.passed.drop g.taken).map Prod.snd ∧
      ∀ e, g.passed[g.taken]? = some e → ∀ buflen,
        (netchanChanRead (runConn server sts) id buflen).1 = .ok (e.2.take buflen) := by
  intro g
  have hal : ∀ (sts : List Step) (x : Conn × Passing), Along Step.apply HasRoom x.1 sts →
      Along (stepPassing id) (fun x st => HasRoom x.1 st) x sts := by
    intro sts
    induction sts with
    | nil => exact fun _ _ => trivial
    | cons st sts ih => exact fun x hx => ⟨hx.1, ih (stepPassing id x st) hx.2⟩
  have hinv : LossInv id (run (stepPassing id) (netchanOpen server, {}) sts) :=
    run_invariant (I := LossInv id) (fun x st hx hroom => lossInv_step hx hroom)
      ⟨store_open server, fun _ => rfl, fun ch h => by cases h⟩ (hal sts (netchanOpen server, {}) h)
  have hconn : (run (stepPassing id) (netchanOpen server, {}) sts).1 = runConn server sts :=
    stepPassing_conn id sts _
  have hn := hinv.noLoss ch (hconn ▸ hch) hr ht
  rw [hconn] at hn
  replace hn : NoLoss ((runConn server sts).rx ch) g := hn
  have hq : queued (runConn server sts) id = ((runConn server sts).rx ch).queue := by
    simp only [queued, hch]
    rfl
  refine ⟨hn.recvSeq, hn.seqs, hq.trans hn.queue, fun e he buflen => ?_⟩
  have hfront := hn.queue
  obtain ⟨hlt, rfl⟩ := List.getElem?_eq_some_iff.1 he
  rw [List.drop_eq_getElem_cons hlt, List.map_cons] at hfront
  exact read_front hch hr hfront buflen

/-- A channel that holds its first message unread and has passed the second from the reorder
table. -/
def roomSteps : List Step :=
  listenSteps ++ [.frame {} (.data 0 1 0 1 [4]), .frame {} (.data 0 0 0 1 [1, 2, 3])]

theorem no_silent_loss_reordered :
    (passing true 0 roomSteps).passed = [(0, [1, 2, 3]), (1, [4])] ∧
      queued (runConn true roomSteps) 0 = [[1, 2, 3], [4]] ∧
      (netchanChanRead (runConn true roomSteps) 0 2).1 = .ok [1, 2] := by
  obtain ⟨ch, hch⟩ : ∃ ch, (runConn true roomSteps).channels 0 = some ch :=
    Option.isSome_iff_exists.1 (by decide +kernel)
  have hv : ((runConn true roomSteps).channels 0).map (fun ch => (ch.role, ch.type)) =
      some (.receiver, .reliable) := by
    decide +kernel
  simp only [hch, Option.map_some, Option.some_inj, Prod.mk.injEq] at hv
  have hrun : Along Step.apply HasRoom (netchanOpen true) roomSteps := by decide +kernel
  obtain ⟨-, -, hq, hread⟩ := no_silent_loss hrun hch hv.1 (by simp [hv.2])
  have hp : (passing true 0 roomSteps).passed = [(0, [1, 2, 3]), (1, [4])] ∧
      (passing true 0 roomSteps).taken = 0 := by
    decide +kernel
  rw [hp.1, hp.2] at hq hread
  exact ⟨hp.1, hq, hread _ rfl 2⟩

/-- Sixty-four messages of one byte arrive in order and none is read. -/
def unreadSteps : List Step :=
  listenSteps ++ (List.range 64).map fun n =>
    .frame {} (.data 0 (UInt16.ofNat n) 0 1 [UInt8.ofNat n])

/-- **A full receive queue loses a message**: all of them are passed and the last one is
acknowledged, but it is not in the queue. -/
theorem full_queue_loses :
    let c := runConn true unreadSteps
    ((c.channels 0).map fun ch => (ch.rcv.recvSeq, ch.rcv.needAck, ch.rcv.ackSeq)) =
        some (64, true, 63) ∧
      (passing true 0 unreadSteps).passed.length = 64 ∧ (passing true 0 unreadSteps).taken = 0 ∧
      (queued c 0).length = 63 ∧ [63] ∉ queued c 0 := by
  decide +kernel

end Netchan
