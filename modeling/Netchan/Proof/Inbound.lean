import Netchan.Proof.Store

/-!
# The DATA path, by owners

What a DATA frame does to the receive queue, the reorder table and the buffers of its channel:
`dataArrived_passed` and `reorderStore_keeps` for a whole message, `fragStore_reassembles` and
`fragFree_reassembles` for the reassembly around it, `dataReliable_spec` and `dataUnreliable_change`
for the frame.
-/

namespace Netchan

open Lib

section
variable {c : Conn} {id : ChanId} {ch : Chan}

/-! ## A whole message -/

theorem waits_of_lt_waiting (reorder : Fin ncReorderSlots → Reorder) : ∀ (fuel : Nat) (s : UInt16)
    {j : Nat}, j < waiting reorder fuel s → waits reorder (s + UInt16.ofNat j) = true
  | 0, _, _, h => absurd h (by simp [waiting])
  | fuel + 1, s, j, h => by
    unfold waiting at h
    split at h
    · rename_i hw
      cases j with
      | zero => simpa using hw
      | succ j =>
        rw [← add_one_add_ofNat]
        exact waits_of_lt_waiting reorder fuel (s + 1) (by omega)
    · omega

/-- There is room for a message and for the `n` messages that wait behind it. -/
structure Rx.PassRoom (x : Rx) (len n : Nat) : Prop where
  first : x.Room len
  queue : x.rcv.recvQueue.size + 1 + n < ncRecvQueue
  pool : n ≠ 0 → 2 ≤ x.pool.poolFree.length

/-- The number of messages that wait right behind the expected one. -/
def Rx.behind (x : Rx) : Nat := waiting x.rcv.reorder ncReorderSlots (x.rcv.recvSeq + 1)

/-- **The expected message**: it and what waits behind it without a gap are passed; what enters the
queue is some of these messages in order, the expected one if there is room for it, and all of them if
there is room for all. -/
theorem dataArrived_passed {x : Rx} {seq : UInt16} (data : List UInt8) (hok : x.Ok c id ch)
    (hseq : seq = x.rcv.recvSeq) :
    (∃ l, Delivers c id ch x (dataArrived id x seq data) l ∧
      l.Sublist (data :: x.lined (x.rcv.recvSeq + 1) x.behind) ∧
      (x.PassRoom data.length x.behind → l = data :: x.lined (x.rcv.recvSeq + 1) x.behind) ∧
      (x.Room data.length →
        ∃ ms, l = data :: ms ∧ ms.Sublist (x.lined (x.rcv.recvSeq + 1) x.behind))) ∧
    ∀ j < x.behind, ((dataArrived id x seq data).rcv.reorder
      (reorderSlot (x.rcv.recvSeq + 1 + UInt16.ofNat j))).valid = false := by
  obtain ⟨h1, h2⟩ := deliver_seq x id data
  let x1 : Rx := { x.deliver id data with
    rcv := { (x.deliver id data).rcv with recvSeq := (x.deliver id data).rcv.recvSeq + 1 } }
  have hy : dataArrived id x seq data = chanDeliverReordered id x1 := by
    unfold dataArrived
    rw [if_pos hseq]
  have hs1 : x1.rcv.recvSeq = x.rcv.recvSeq + 1 := congrArg (· + 1) h1
  have hn : waiting x1.rcv.reorder ncReorderSlots x1.rcv.recvSeq = x.behind := by
    rw [hs1, show x1.rcv.reorder = x.rcv.reorder from h2, Rx.behind]
  -- the waiting messages are untouched by the first delivery
  have hlined : ∀ {l}, Delivers c id ch x x1 l →
      x1.lined x1.rcv.recvSeq x.behind = x.lined (x.rcv.recvSeq + 1) x.behind := by
    intro l hd
    rw [hs1]
    refine List.map_congr_left fun j hj => ?_
    have hw := waits_of_lt_waiting _ _ _ (List.mem_range.1 hj)
    simp only [waits, Bool.and_eq_true] at hw
    refine (hd.slots _ ?_).2
    rw [show x1.rcv.reorder = x.rcv.reorder from h2]
    exact hw.1
  rw [hy]
  have key : ∀ l0, Delivers c id ch x (x.deliver id data) l0 →
      Passes c id ch x1 x.behind (chanDeliverReordered id x1) ∧ Delivers c id ch x x1 l0 := by
    intro l0 hd
    have hd1 : Delivers c id ch x x1 l0 := hd.congr rfl rfl rfl rfl
    exact ⟨hn ▸ chanDeliverReordered_passes hd1.ok, hd1⟩
  rcases deliver_delivers hok data with ⟨hr, hd⟩ | ⟨hr, hd⟩
  · obtain ⟨hp, hd1⟩ := key _ hd
    obtain ⟨l, hd2, hsub, hall⟩ := hp.delivers
    rw [hlined hd1] at hsub hall
    refine ⟨⟨[data] ++ l, hd1.trans hd2, hsub.cons_cons data, fun hroom => ?_,
      fun _ => ⟨l, rfl, hsub⟩⟩, fun j hj => ?_⟩
    · refine congrArg (data :: ·) (hall ⟨?_, fun hb => ?_⟩)
      · have hl := congrArg List.length hd1.queue
        rw [List.length_append, length_queue, length_queue, List.length_singleton] at hl
        have := hroom.queue
        omega
      · rcases deliver_cases x id data with ⟨-, b, fs, hf, he⟩ | ⟨hno, -⟩
        · have := hroom.pool hb
          rw [hf, List.length_cons] at this
          have hfree : x1.pool.poolFree = fs := by
            show (x.deliver id data).pool.poolFree = fs
            rw [he]
            rfl
          rw [hfree]
          exact List.ne_nil_of_length_pos (by omega)
        · exact absurd hroom.first hno
    · rw [← hs1]
      exact hp.cleared j hj
  · obtain ⟨hp, hd1⟩ := key _ hd
    obtain ⟨l, hd2, hsub, -⟩ := hp.delivers
    rw [hlined hd1] at hsub
    refine ⟨⟨[] ++ l, hd1.trans hd2, hsub.cons data, fun hroom => absurd hroom.first hr,
      fun hroom => absurd hroom hr⟩, fun j hj => ?_⟩
    rw [← hs1]
    exact hp.cleared j hj

/-- A message ahead of the expected one is put into the reorder table. -/
def Rx.Keeps (x : Rx) (seq : UInt16) (len : Nat) : Prop :=
  (0 < int16 (seq - x.rcv.recvSeq) ∧ int16 (seq - x.rcv.recvSeq) < ncReorderSlots) ∧
    ((x.rcv.reorder (reorderSlot seq)).valid = false ∧ len ≤ ncMaxMsg) ∧ x.pool.poolFree ≠ []

/-- From `x` to `x'` nothing entered the queue, and at most `data` the reorder table, under
`seq`. -/
structure Keeps (c : Conn) (id : ChanId) (ch : Chan) (x x' : Rx) (seq : UInt16)
    (data : List UInt8) : Prop where
  ok : x'.Ok c id ch
  change : (x.arena c id ch).Change (deliveryLocs id) (x'.arena c id ch)
  queue : x'.queue = x.queue
  frags : x'.rcv.frags = x.rcv.frags
  slots : ∀ k, (x'.rcv.reorder k).valid = true →
    (x'.rcv.reorder k = x.rcv.reorder k ∧ x'.slotBytes k = x.slotBytes k) ∨
    (k = reorderSlot seq ∧ (x'.rcv.reorder k).seq = seq ∧ x'.slotBytes k = data ∧
      x.Keeps seq data.length)

/-- **A message that is not the expected one** is kept for later or dropped. -/
theorem reorderStore_keeps {x : Rx} (seq : UInt16) (data : List UInt8) (hok : x.Ok c id ch) :
    Keeps c id ch x (reorderStore x seq data) seq data ∧
      (x.Keeps seq data.length →
        ((reorderStore x seq data).rcv.reorder (reorderSlot seq)).valid = true) := by
  have same : reorderStore x seq data = x → ¬ x.Keeps seq data.length →
      Keeps c id ch x (reorderStore x seq data) seq data ∧
      (x.Keeps seq data.length →
        ((reorderStore x seq data).rcv.reorder (reorderSlot seq)).valid = true) := by
    intro he hno
    rw [he]
    exact ⟨⟨hok, .refl hok.arena, rfl, rfl, fun _ _ => .inl ⟨rfl, rfl⟩⟩, fun h => absurd h hno⟩
  by_cases h1 : 0 < int16 (seq - x.rcv.recvSeq) ∧ int16 (seq - x.rcv.recvSeq) < ncReorderSlots
  · by_cases h2 : (x.rcv.reorder (reorderSlot seq)).valid = false ∧ data.length ≤ ncMaxMsg
    · cases hf : x.pool.poolFree with
      | nil =>
        refine same ?_ fun h => h.2.2 hf
        simp only [reorderStore, if_pos h1, if_pos h2, poolGet, hf]
      | cons b fs =>
        have hk : x.Keeps seq data.length := ⟨h1, h2, by simp [hf]⟩
        let e : Reorder := ⟨seq, some b, data.length, true⟩
        let x' : Rx := { x with
          pool := { x.pool with poolFree := fs }.write (some b) 0 data
          rcv := { x.rcv with reorder := Function.update x.rcv.reorder (reorderSlot seq) e } }
        have he : reorderStore x seq data = x' := by
          simp only [reorderStore, if_pos h1, if_pos h2, poolGet, hf]
          rfl
        rw [he]
        have hc : (x.arena c id ch).Change {(id, .reorder (reorderSlot seq))}
            (x'.arena c id ch) := by
          refine .alloc hok.arena (b := b) (l := fs) hf rfl ?_ (holds_congr ?_) ?_
          · rw [holds_at]
            simp [x', e, Chan.holds]
          · intro l hl
            cases l with
            | reorder k =>
              have hk : k ≠ reorderSlot seq := fun he => hl (by rw [he])
              simp [x', Chan.holds, Function.update_of_ne hk]
            | _ => rfl
          · intro b' hb'
            rw [cont_at, cont_at]
            exact bytes_write (n := 0) (d := data) hb' rfl (by have := h2.2; omega)
        have hother : ∀ k, k ≠ reorderSlot seq → x'.rcv.reorder k = x.rcv.reorder k :=
          fun k hk => Function.update_of_ne hk _ _
        have hself : x'.rcv.reorder (reorderSlot seq) = e := Function.update_self ..
        refine ⟨⟨⟨hc.ok, hok.wf.queue, fun k hv => ?_, hok.wf.frags⟩, hc.mono ?_, ?_, rfl,
          fun k hv => ?_⟩, fun _ => by rw [hself]⟩
        · by_cases hks : k = reorderSlot seq
          · rw [hks, hself]
            exact ⟨⟨b, rfl⟩, h2.2⟩
          · rw [hother k hks] at hv ⊢
            exact hok.wf.reorder k hv
        · rintro o rfl
          exact ⟨rfl, .inr ⟨_, rfl⟩⟩
        · exact queue_of_change hc hok.wf rfl (by simp)
        · by_cases hks : k = reorderSlot seq
          · refine .inr ⟨hks, by rw [hks, hself], ?_, hk⟩
            rw [Rx.slotBytes, hks, hself]
            exact read_write_self _ b data
          · refine .inl ⟨hother k hks, ?_⟩
            rw [hother k hks] at hv
            exact slotBytes_of_change hc hok.wf hv (hother k hks) (by simpa using hks)
    · refine same ?_ fun h => h2 h.2.1
      simp only [reorderStore, if_pos h1, if_neg h2]
  · refine same ?_ fun h => h1 h.1
    simp only [reorderStore, if_neg h1]

/-! ## Reassembly -/

/-- The reassembly slots of channel `id`. -/
def fragLocs (id : ChanId) : Set Owner := {o | o.1 = id ∧ ∃ i, o.2 = .frag i}

/-- From `x` to `x'` only reassembly slots changed. -/
structure Reassembles (c : Conn) (id : ChanId) (ch : Chan) (x x' : Rx) : Prop where
  ok : x'.Ok c id ch
  change : (x.arena c id ch).Change (fragLocs id) (x'.arena c id ch)
  ring : x'.rcv.recvQueue = x.rcv.recvQueue
  reorder : x'.rcv.reorder = x.rcv.reorder
  recvSeq : x'.rcv.recvSeq = x.rcv.recvSeq

namespace Reassembles

variable {x x' x'' : Rx}

theorem refl (hok : x.Ok c id ch) : Reassembles c id ch x x :=
  ⟨hok, .refl hok.arena, rfl, rfl, rfl⟩

theorem trans (h1 : Reassembles c id ch x x') (h2 : Reassembles c id ch x' x'') :
    Reassembles c id ch x x'' :=
  ⟨h2.ok, h1.change.trans h2.change, h2.ring.trans h1.ring, h2.reorder.trans h1.reorder,
    h2.recvSeq.trans h1.recvSeq⟩

theorem queue (h : Reassembles c id ch x x') (hw : RcvWf x.rcv) : x'.queue = x.queue :=
  queue_of_change h.change hw h.ring (by simp [fragLocs])

theorem slotBytes (h : Reassembles c id ch x x') (hw : RcvWf x.rcv) {k : Fin ncReorderSlots}
    (hv : (x.rcv.reorder k).valid = true) : x'.slotBytes k = x.slotBytes k :=
  slotBytes_of_change h.change hw hv (by rw [h.reorder]) (by simp [fragLocs])

end Reassembles

theorem fragSlot_reassembles {x x' : Rx} {seq : UInt16} {total : Nat} {i : Fin ncFragSlots}
    (hok : x.Ok c id ch) (h : fragSlot x seq total = some (i, x')) :
    Reassembles c id ch x x' ∧ (x'.rcv.frags i).active = true := by
  rcases fragSlot_cases h with ⟨rfl, ha, -⟩ | ⟨b, p, -, -, -, hg, rfl⟩
  · exact ⟨.refl hok, ha⟩
  · have hf := poolGet_free hg
    have hc : (x.arena c id ch).Change {(id, .frag i)} (Rx.arena c id ch { x with
        pool := p
        rcv := { x.rcv with
          frags := Function.update x.rcv.frags i { seq, total, active := true, buf := some b } } }) := by
      refine .alloc hok.arena hf rfl ?_ (holds_congr ?_) fun b' _ => ?_
      · rw [holds_at]
        simp [Chan.holds]
      · intro l hl
        cases l with
        | frag j =>
          have hj : j ≠ i := fun he => hl (by rw [he])
          simp [Chan.holds, Function.update_of_ne hj]
        | _ => rfl
      · rw [cont_at, cont_at]
        exact congrFun (bytes_of_store (poolGet_store hg)) b'
    refine ⟨⟨⟨hc.ok, hok.wf.queue, hok.wf.reorder, fun j hj => ?_⟩, hc.mono ?_, rfl, rfl, rfl⟩,
      by simp⟩
    · by_cases hji : j = i
      · subst hji
        exact ⟨b, by simp⟩
      · simp only [Function.update_of_ne hji] at hj ⊢
        exact hok.wf.frags j hj
    · rintro o rfl
      exact ⟨rfl, _, rfl⟩

/-- A write to the buffer of slot `i` that keeps the slot's state but for what is recorded of its
fragments. -/
theorem slotWrite_reassembles {x x' : Rx} {i : Fin ncFragSlots} {b : BufIdx} (hok : x.Ok c id ch)
    (hb : (x.rcv.frags i).buf = some b) (hfree : x'.pool.poolFree = x.pool.poolFree)
    (hother : ∀ b', b' ≠ b → x'.pool.bytes b' = x.pool.bytes b')
    (hslot : ∀ j, (x'.rcv.frags j).buf = (x.rcv.frags j).buf ∧
      (x'.rcv.frags j).active = (x.rcv.frags j).active)
    (hring : x'.rcv.recvQueue = x.rcv.recvQueue) (hreo : x'.rcv.reorder = x.rcv.reorder)
    (hseq : x'.rcv.recvSeq = x.rcv.recvSeq) : Reassembles c id ch x x' := by
  have hc : (x.arena c id ch).Change {(id, .frag i)} (x'.arena c id ch) := by
    refine .write hok.arena (b := b) ?_ hfree ?_ ?_
    · rw [holds_at]
      exact hb
    · rintro ⟨j, l⟩
      by_cases hj : j = id
      · subst hj
        rw [holds_at, holds_at]
        cases l with
        | frag k => exact (hslot k).1
        | out k => rfl
        | queue k => simp [Chan.holds, hring]
        | reorder k => simp [Chan.holds, hreo]
      · rw [holds_other x' hj, holds_other x hj]
    · intro b' hb'
      rw [cont_at, cont_at]
      exact hother b' hb'
  refine ⟨⟨hc.ok, hring ▸ hok.wf.queue, hreo ▸ hok.wf.reorder, fun j hj => ?_⟩, hc.mono ?_, hring,
    hreo, hseq⟩
  · rw [(hslot j).1]
    exact hok.wf.frags j ((hslot j).2 ▸ hj)
  · rintro o rfl
    exact ⟨rfl, _, rfl⟩

theorem fragPut_bytes {fp : Nat} {x : Rx} {i : Fin ncFragSlots} {idx : Nat} {payload : List UInt8}
    {b b' : BufIdx} (hb : (x.rcv.frags i).buf = some b) (hne : b' ≠ b)
    (ht : (x.rcv.frags i).Takes fp idx payload.length) :
    (fragPut fp x i idx payload).pool.bytes b' = x.pool.bytes b' := by
  refine bytes_write (n := idx * fp) (d := payload) hne ?_ ht.2
  simp only [fragPut, Pool.write, hb]

theorem fragPut_reassembles {fp : Nat} {x : Rx} {i : Fin ncFragSlots} {idx : Nat}
    {payload : List UInt8} (hok : x.Ok c id ch) (ha : (x.rcv.frags i).active = true)
    (ht : (x.rcv.frags i).Takes fp idx payload.length) :
    Reassembles c id ch x (fragPut fp x i idx payload) := by
  obtain ⟨b, hb⟩ := hok.wf.frags i ha
  refine slotWrite_reassembles hok hb rfl (fun b' hb' => fragPut_bytes hb hb' ht) (fun j => ?_)
    rfl rfl rfl
  by_cases hj : j = i
  · subst hj
    simp [fragPut, FragAsm.add]
  · simp [fragPut, Function.update_of_ne hj]

/-- The compaction of a message that fits writes to the slot's buffer only. -/
theorem fragCompact_bytes {fp : Nat} {x : Rx} {i : Fin ncFragSlots} {b b' : BufIdx}
    (hb : (x.rcv.frags i).buf = some b) (hne : b' ≠ b) (hl : (x.rcv.frags i).length ≤ ncMaxMsg) :
    (fragCompact fp x i).1.pool.bytes b' = x.pool.bytes b' := by
  have hne : b'.val ≠ b.val := fun he => hne (Fin.ext he)
  unfold Pool.bytes
  refine Mem.read_congr fun y h1 h2 => ?_
  simp only [fragCompact, hb]
  refine runMoves_outside _ _ _ _ fun v hv hy => ?_
  have := compactMoves_le fp _ _ 0 v hv
  unfold FragAsm.length at hl
  simp only [poolPtr, ncMaxMsg] at h1 h2 hy hl
  omega

theorem fragCompact_reassembles {fp : Nat} {x : Rx} {i : Fin ncFragSlots} (hok : x.Ok c id ch)
    (ha : (x.rcv.frags i).active = true) (hl : (x.rcv.frags i).length ≤ ncMaxMsg) :
    Reassembles c id ch x (fragCompact fp x i).1 := by
  obtain ⟨b, hb⟩ := hok.wf.frags i ha
  exact slotWrite_reassembles hok hb rfl (fun b' hb' => fragCompact_bytes hb hb' hl)
    (fun j => ⟨rfl, rfl⟩) rfl rfl rfl

/-- The message a fragment completes fits in a buffer. -/
def FragFits (fp : Nat) (x : Rx) (seq : UInt16) (idx total len : Nat) : Prop :=
  ∀ n, completedLen fp x seq idx total len = some n → n ≤ ncMaxMsg

/-- **The reassembly block** touches nothing but its slot. -/
theorem fragStore_reassembles {fp : Nat} {x : Rx} {seq : UInt16} {idx total : Nat}
    {payload : List UInt8} (hok : x.Ok c id ch)
    (hfit : FragFits fp x seq idx total payload.length) :
    Reassembles c id ch x (fragStore fp x seq idx total payload).1 ∧
      ∀ i n, (fragStore fp x seq idx total payload).2 = some (i, n) → n ≤ ncMaxMsg ∧
        ((fragStore fp x seq idx total payload).1.rcv.frags i).active = true := by
  rcases fragStore_cases fp x seq idx total payload with ⟨-, he⟩ | ⟨i, x', hs, h'⟩
  · rw [he]
    exact ⟨.refl hok, by simp⟩
  obtain ⟨h1, ha⟩ := fragSlot_reassembles hok hs
  rcases h' with ⟨-, he⟩ | ⟨ht, ⟨-, he⟩ | ⟨hg, he⟩⟩
  · rw [he]
    exact ⟨h1, by simp⟩
  · rw [he]
    exact ⟨h1.trans (fragPut_reassembles h1.ok ha ht), by simp⟩
  · have h2 := fragPut_reassembles h1.ok ha ht
    have hf : (fragPut fp x' i idx payload).rcv.frags i =
        (x'.rcv.frags i).add idx payload.length := by simp [fragPut]
    have hlen : ((x'.rcv.frags i).add idx payload.length).length ≤ ncMaxMsg := by
      refine hfit _ ?_
      simp only [completedLen, hs, if_pos (And.intro ht hg)]
    have ha' : ((fragPut fp x' i idx payload).rcv.frags i).active = true := by
      rw [hf]
      exact ha
    rw [he]
    refine ⟨h1.trans (h2.trans (fragCompact_reassembles h2.ok ha' (hf ▸ hlen))), ?_⟩
    intro j n hjn
    cases hjn
    exact ⟨hlen, ha'⟩

theorem fragFree_reassembles {x : Rx} {i : Fin ncFragSlots} (hok : x.Ok c id ch)
    (ha : (x.rcv.frags i).active = true) : Reassembles c id ch x (fragFree x i) := by
  obtain ⟨b, hb⟩ := hok.wf.frags i ha
  have hc : (x.arena c id ch).Change {(id, .frag i)} ((fragFree x i).arena c id ch) := by
    refine .release hok.arena (o := (id, .frag i)) (b := b) ?_ ?_ ?_ (holds_congr ?_) ?_
    · rw [holds_at]
      exact hb
    · rw [free_at, free_at]
      simp [fragFree, hb, poolPut]
    · rw [holds_at]
      simp [fragFree, Chan.holds]
    · intro l hl
      cases l with
      | frag j =>
        have hj : j ≠ i := fun he => hl (by rw [he])
        simp [fragFree, Chan.holds, Function.update_of_ne hj]
      | _ => rfl
    · rw [cont_at, cont_at]
      refine bytes_of_store ?_
      simp [fragFree, hb, poolPut]
  refine ⟨⟨hc.ok, hok.wf.queue, hok.wf.reorder, fun j hj => ?_⟩, hc.mono ?_, rfl, rfl, rfl⟩
  · by_cases hji : j = i
    · subst hji
      simp [fragFree] at hj
    · simp only [fragFree, Function.update_of_ne hji] at hj ⊢
      exact hok.wf.frags j hj
  · rintro o rfl
    exact ⟨rfl, _, rfl⟩

/-! ## A DATA frame -/

theorem Delivers.inbound {x x' : Rx} {l : List (List UInt8)} (h : Delivers c id ch x x' l) :
    (x.arena c id ch).Change (inbound id) (x'.arena c id ch) :=
  h.change.mono fun o ho => ⟨ho.1, by rcases ho.2 with ⟨k, hk⟩ | ⟨k, hk⟩ <;> rw [hk] <;> trivial⟩

theorem Keeps.inbound {x x' : Rx} {seq : UInt16} {data : List UInt8}
    (h : Keeps c id ch x x' seq data) :
    (x.arena c id ch).Change (inbound id) (x'.arena c id ch) :=
  h.change.mono fun o ho => ⟨ho.1, by rcases ho.2 with ⟨k, hk⟩ | ⟨k, hk⟩ <;> rw [hk] <;> trivial⟩

theorem Reassembles.inbound {x x' : Rx} (h : Reassembles c id ch x x') :
    (x.arena c id ch).Change (inbound id) (x'.arena c id ch) :=
  h.change.mono fun o ho => ⟨ho.1, by obtain ⟨i, hi⟩ := ho.2; rw [hi]; trivial⟩

/-- The whole message a DATA frame is or completes. -/
def arrived (fp : Nat) (x : Rx) (seq : UInt16) (idx total : Nat) (payload : List UInt8) :
    Option (List UInt8) :=
  if total ≤ 1 then some payload
  else
    match fragStore fp x seq idx total payload with
    | (_, none) => none
    | (x', some (i, pos)) => some (assembled x' i pos)

/-- The messages a reliable channel passes when the message `arr` arrives under `seq`. -/
def passed (x : Rx) (seq : UInt16) : Option (List UInt8) → List (List UInt8)
  | none => []
  | some data => if seq = x.rcv.recvSeq then data :: x.lined (x.rcv.recvSeq + 1) x.behind else []

/-- What a DATA frame does to a reliable channel, when the message `arr` arrives under `seq`. -/
structure DataSpec (c : Conn) (id : ChanId) (ch : Chan) (x x' : Rx) (seq : UInt16)
    (arr : Option (List UInt8)) : Prop where
  ok : x'.Ok c id ch
  change : (x.arena c id ch).Change (inbound id) (x'.arena c id ch)
  queue : ∃ l, x'.queue = x.queue ++ l ∧ l.Sublist (passed x seq arr) ∧
    ((∀ data, arr = some data → seq = x.rcv.recvSeq → x.PassRoom data.length x.behind) →
      l = passed x seq arr)
  slots : ∀ k, (x'.rcv.reorder k).valid = true →
    (x'.rcv.reorder k = x.rcv.reorder k ∧ x'.slotBytes k = x.slotBytes k) ∨
    ∃ data, arr = some data ∧ seq ≠ x.rcv.recvSeq ∧ k = reorderSlot seq ∧
      (x'.rcv.reorder k).seq = seq ∧ x'.slotBytes k = data ∧ x.Keeps seq data.length
  cleared : ∀ data, arr = some data → seq = x.rcv.recvSeq → ∀ j < x.behind,
    (x'.rcv.reorder (reorderSlot (x.rcv.recvSeq + 1 + UInt16.ofNat j))).valid = false

/-- A whole message that arrives. -/
theorem dataArrived_spec {x : Rx} (seq : UInt16) (data : List UInt8) (hok : x.Ok c id ch) :
    DataSpec c id ch x (dataArrived id x seq data) seq (some data) := by
  by_cases hs : seq = x.rcv.recvSeq
  · obtain ⟨⟨l, hd, hsub, hall, -⟩, hclear⟩ := dataArrived_passed data hok hs
    have hp : passed x seq (some data) = data :: x.lined (x.rcv.recvSeq + 1) x.behind := if_pos hs
    refine ⟨hd.ok, hd.inbound, ⟨l, hd.queue, hp ▸ hsub, fun hr => ?_⟩, fun k hk => .inl (hd.slots k hk),
      fun _ _ _ => hclear⟩
    rw [hp]
    exact hall (hr data rfl hs)
  · have he : dataArrived id x seq data = reorderStore x seq data := if_neg hs
    obtain ⟨hk, -⟩ := reorderStore_keeps seq data hok
    have hp : passed x seq (some data) = [] := if_neg hs
    rw [he]
    refine ⟨hk.ok, hk.inbound, ⟨[], by rw [hk.queue]; simp, by simp, fun _ => hp.symm⟩, fun k hv => ?_,
      fun _ _ h => absurd h hs⟩
    rcases hk.slots k hv with h | ⟨h1, h2, h3, h4⟩
    · exact .inl h
    · exact .inr ⟨data, rfl, hs, h1, h2, h3, h4⟩

/-- A message completed from fragments takes no buffer from the pool. -/
theorem fragStore_free {fp : Nat} {x : Rx} {seq : UInt16} {idx total : Nat} {payload : List UInt8}
    {x' : Rx} {i : Fin ncFragSlots} {n : Nat} (ht : 1 < total)
    (h : fragStore fp x seq idx total payload = (x', some (i, n))) :
    x'.pool.poolFree = x.pool.poolFree := by
  rcases fragStore_cases fp x seq idx total payload with ⟨-, he⟩ | ⟨j, x1, hs, h'⟩
  · rw [he] at h
    cases h
  rcases h' with ⟨-, he⟩ | ⟨-, ⟨-, he⟩ | ⟨hg, he⟩⟩
  · rw [he] at h
    cases h
  · rw [he] at h
    cases h
  · rw [he] at h
    cases h
    rcases fragSlot_cases hs with ⟨rfl, -, -⟩ | ⟨b, p, -, -, -, -, rfl⟩
    · rfl
    · -- a fresh slot is complete with its first fragment only if there is no other
      have : (1 : Nat) = total := by simpa [FragAsm.Complete, FragAsm.add] using hg
      omega

/-- **What a DATA frame does to a reliable channel.** -/
theorem dataReliable_spec {fp : Nat} {x : Rx} (seq : UInt16) (idx total : Nat)
    (payload : List UInt8) (hok : x.Ok c id ch)
    (hfit : 1 < total → FragFits fp x seq idx total payload.length) :
    DataSpec c id ch x (dataReliable fp id x seq idx total payload) seq
      (arrived fp x seq idx total payload) := by
  unfold dataReliable arrived
  by_cases ht : total ≤ 1
  · rw [if_pos ht, if_pos ht]
    exact dataArrived_spec seq payload hok
  · rw [if_neg ht, if_neg ht]
    obtain ⟨hr, hdone⟩ := fragStore_reassembles hok (hfit (by omega))
    cases hf : fragStore fp x seq idx total payload with
    | mk x1 o =>
      rw [hf] at hr hdone
      dsimp only at hr
      cases o with
      | none =>
        exact ⟨hr.ok, hr.inbound, ⟨[], by simp [hr.queue hok.wf], by simp [passed],
          fun _ => rfl⟩, fun k hk => .inl ⟨by rw [hr.reorder], hr.slotBytes hok.wf (hr.reorder ▸ hk)⟩,
          by simp⟩
      | some p =>
        obtain ⟨i, pos⟩ := p
        obtain ⟨-, ha⟩ := hdone i pos rfl
        have hd := dataArrived_spec seq (assembled x1 i pos) hr.ok
        have ha' : ((dataArrived id x1 seq (assembled x1 i pos)).rcv.frags i).active = true := by
          rw [dataArrived_frags]
          exact ha
        have hr2 := fragFree_reassembles hd.ok ha'
        have hbehind : x1.behind = x.behind := by
          rw [Rx.behind, Rx.behind, hr.reorder, hr.recvSeq]
        have hlined : x1.lined (x.rcv.recvSeq + 1) x.behind =
            x.lined (x.rcv.recvSeq + 1) x.behind := by
          refine List.map_congr_left fun j hj => ?_
          have hw := waits_of_lt_waiting _ _ _ (List.mem_range.1 hj)
          simp only [waits, Bool.and_eq_true] at hw
          exact hr.slotBytes hok.wf hw.1
        have hpassed : passed x1 seq (some (assembled x1 i pos)) =
            passed x seq (some (assembled x1 i pos)) := by
          simp only [passed, hr.recvSeq, hbehind, hlined]
        have hfree : x1.pool.poolFree = x.pool.poolFree := fragStore_free (by omega) hf
        obtain ⟨l, hq, hsub, hall⟩ := hd.queue
        dsimp only
        refine ⟨hr2.ok, hr.inbound.trans (hd.change.trans hr2.inbound),
          ⟨l, ?_, hpassed ▸ hsub, fun hroom => ?_⟩, fun k hk => ?_, fun data hdata hs j hj => ?_⟩
        · rw [hr2.queue hd.ok.wf, hq, hr.queue hok.wf]
        · rw [← hpassed]
          refine hall fun data hdata hs => ?_
          have := hroom data hdata (hs.trans hr.recvSeq)
          rw [hbehind]
          exact ⟨⟨hr.ring ▸ this.first.queue, this.first.small, hfree ▸ this.first.pool⟩,
            hr.ring ▸ this.queue, fun hn => hfree ▸ this.pool hn⟩
        · have hk1 : ((dataArrived id x1 seq (assembled x1 i pos)).rcv.reorder k).valid = true := by
            rwa [hr2.reorder] at hk
          have hb2 := hr2.slotBytes hd.ok.wf hk1
          rcases hd.slots k hk1 with ⟨h1, h2⟩ | ⟨data, h1, h2, h3, h4, h5, h6⟩
          · refine .inl ⟨by rw [hr2.reorder, h1, hr.reorder], ?_⟩
            rw [hb2, h2]
            exact hr.slotBytes hok.wf (hr.reorder ▸ h1 ▸ hk1)
          · refine .inr ⟨data, h1, hr.recvSeq ▸ h2, h3, by rw [hr2.reorder, h4], by rw [hb2, h5], ?_⟩
            obtain ⟨h7, h8, h9⟩ := h6
            exact ⟨hr.recvSeq ▸ h7, hr.reorder ▸ h8, hfree ▸ h9⟩
        · rw [hr2.reorder, ← hr.recvSeq]
          exact hd.cleared data hdata (hs.trans hr.recvSeq.symm) j (hbehind ▸ hj)

theorem dataUnreliable_change {fp : Nat} {x : Rx} (seq : UInt16) (idx total : Nat)
    (payload : List UInt8) (hok : x.Ok c id ch)
    (hfit : 1 < total → FragFits fp x seq idx total payload.length) :
    (dataUnreliable fp id x seq idx total payload).Ok c id ch ∧
      (x.arena c id ch).Change (inbound id)
        ((dataUnreliable fp id x seq idx total payload).arena c id ch) := by
  unfold dataUnreliable
  by_cases ht : total ≤ 1
  · rw [if_pos ht]
    rcases deliver_delivers hok payload with ⟨-, hd⟩ | ⟨-, hd⟩ <;> exact ⟨hd.ok, hd.inbound⟩
  · rw [if_neg ht]
    obtain ⟨hr, hdone⟩ := fragStore_reassembles hok (hfit (by omega))
    cases hf : fragStore fp x seq idx total payload with
    | mk x1 o =>
      rw [hf] at hr hdone
      cases o with
      | none => exact ⟨hr.ok, hr.inbound⟩
      | some p =>
        obtain ⟨i, pos⟩ := p
        obtain ⟨-, ha⟩ := hdone i pos rfl
        obtain ⟨l, hd⟩ : ∃ l, Delivers c id ch x1 (x1.deliver id (assembled x1 i pos)) l := by
          rcases deliver_delivers hr.ok (assembled x1 i pos) with ⟨-, hd⟩ | ⟨-, hd⟩ <;>
            exact ⟨_, hd⟩
        have hr2 := fragFree_reassembles (i := i) hd.ok (by rw [hd.frags]; exact ha)
        exact ⟨hr2.ok, hr.inbound.trans (hd.inbound.trans hr2.inbound)⟩

end

end Netchan
