import Netchan.Proof.Fragments

/-!
# Pieces at the receiver's pitch

The sender cuts a message every `fp` bytes, by its own MTU. The receiver places piece `j` at
`j * pitch`, by its own, and moves the pieces together when it has them all. Where no piece is
longer than the pitch this gives the message (`compact_read`, `Cut.join`).

`Rx.Collects`: every reassembly slot in use has pieces of one message, in their places.
`Rx.Collects.heard`: a DATA frame with a piece keeps it, and completes a message only with all its
bytes.
-/

namespace Netchan

open Lib

/-! ## Compaction -/

section
variable {pitch base : Nat} {offsets : Nat → Nat} {d : Nat → List UInt8}

/-- **The compaction loop joins the pieces**, from `s` on, and leaves what is in front of them. -/
theorem compact_read : ∀ (n s pos : Nat) (m : Mem), pos ≤ s * pitch →
    (∀ j, s ≤ j → j < s + n → offsets j = (d j).length ∧ (d j).length ≤ pitch ∧
      m.read (base + j * pitch) (d j).length = d j) →
    let m' := runMoves m base (compactMoves pitch offsets (List.range' s n) pos).1
    m'.read (base + pos) ((List.range' s n).map offsets).sum = (List.range' s n).flatMap d ∧
      ∀ y < base + pos, m' y = m y
  | 0, _, _, _, _, _ => ⟨rfl, fun _ _ => rfl⟩
  | n + 1, s, pos, m, hpos, h => by
    intro m'
    obtain ⟨hoff, hshort, hread⟩ := h s (Nat.le_refl s) (by omega)
    -- piece `s` is at `pos`, and the others are where they were
    obtain ⟨m1, hm', hfirst, hbelow, habove⟩ : ∃ m1, m' = runMoves m1 base
        (compactMoves pitch offsets (List.range' (s + 1) n) (pos + offsets s)).1 ∧
        m1.read (base + pos) (d s).length = d s ∧ (∀ y < base + pos, m1 y = m y) ∧
        ∀ y, base + (s + 1) * pitch ≤ y → m1 y = m y := by
      simp only [m', List.range'_succ, compactMoves]
      by_cases hp : pos = s * pitch
      · exact ⟨m, by rw [if_neg (not_not.2 hp)], by rw [hp]; exact hread, fun _ _ => rfl,
          fun _ _ => rfl⟩
      · refine ⟨m.move (base + pos) (base + s * pitch) (offsets s), ?_, ?_, fun y hy => ?_,
          fun y hy => ?_⟩
        · rw [if_pos hp]
          rfl
        · rw [hoff, Mem.read_move, hread]
        · exact if_neg (by omega)
        · refine if_neg ?_
          rw [Nat.succ_mul] at hy
          omega
    obtain ⟨hrest, hkept⟩ := compact_read n (s + 1) (pos + offsets s) m1
      (by rw [Nat.succ_mul]; omega) fun j hj hjn => by
        obtain ⟨h1, h2, h3⟩ := h j (by omega) (by omega)
        refine ⟨h1, h2, ?_⟩
        rw [Mem.read_congr fun y hy _ => habove y ?_]
        · exact h3
        · have := Nat.mul_le_mul_right pitch hj
          omega
    rw [← hm'] at hrest hkept
    refine ⟨?_, fun y hy => (hkept y (by omega)).trans (hbelow y hy)⟩
    have hhead : m'.read (base + pos) (offsets s) = d s := by
      rw [Mem.read_congr fun y _ hy => hkept y (by omega), hoff]
      exact hfirst
    rw [List.range'_succ, List.map_cons, List.sum_cons, List.flatMap_cons, ← Mem.read_append, hhead,
      Nat.add_assoc, hrest]

end

section
variable {fp total : Nat} {data : List UInt8}

theorem flatMap_pieces (fp : Nat) (data : List UInt8) (n : Nat) :
    (List.range n).flatMap (piece fp data) = data.take (n * fp) := by
  induction n with
  | zero => simp
  | succ n ih =>
    rw [List.range_succ, List.flatMap_append, ih, Nat.succ_mul, List.take_add]
    simp [piece]

theorem Cut.join (h : Cut fp data total) : (List.range total).flatMap (piece fp data) = data := by
  rw [flatMap_pieces, List.take_of_length_le h.covers]

end

/-! ## One slot -/

/-- A slot has some of the pieces of `data`, each of them in its place. -/
structure FragAsm.Has (f : FragAsm) (p : Pool) (fp pitch : Nat) (data : List UInt8) : Prop where
  many : 1 < f.total
  total : f.total = pieceCount fp data.length
  counts : f.Counts
  lens : ∀ j, f.bitmask.testBit j = true → f.offsets j = (piece fp data j).length
  short : ∀ j, f.bitmask.testBit j = true → (piece fp data j).length ≤ pitch
  inside : ∀ j, f.bitmask.testBit j = true → j * pitch + (piece fp data j).length ≤ ncMaxMsg
  bytes : ∀ j, f.bitmask.testBit j = true →
    p.read f.buf (j * pitch) (piece fp data j).length = piece fp data j

namespace FragAsm.Has

variable {f : FragAsm} {p p' : Pool} {fp pitch : Nat} {data : List UInt8}

theorem empty (p : Pool) (pitch : Nat) {seq : UInt16} {total : Nat} {buf : Option BufIdx}
    {active : Bool} (hmany : 1 < total) (htotal : total = pieceCount fp data.length) :
    FragAsm.Has { seq, total, buf, active } p fp pitch data := by
  refine ⟨hmany, htotal, .empty, ?_, ?_, ?_, ?_⟩ <;>
  · intro j hj
    simp at hj

theorem congr (h : f.Has p fp pitch data) {b : BufIdx} (hb : f.buf = some b)
    (hp : p'.bytes b = p.bytes b) : f.Has p' fp pitch data := by
  refine { h with bytes := fun j hj => ?_ }
  have hold := h.bytes j hj
  rw [hb] at hold ⊢
  rw [read_of_bytes hp (h.inside j hj)]
  exact hold

theorem put (h : f.Has p fp pitch data) {idx : Nat}
    (ht : f.Takes pitch idx (piece fp data idx).length)
    (hshort : (piece fp data idx).length ≤ pitch) :
    (f.add idx (piece fp data idx).length).Has
      (p.write f.buf (idx * pitch) (piece fp data idx)) fp pitch data := by
  have hcases {j : Nat} (hj : (f.add idx (piece fp data idx).length).bitmask.testBit j = true) :
      j = idx ∨ j ≠ idx ∧ f.bitmask.testBit j = true := by
    rw [testBit_add, Bool.or_eq_true, decide_eq_true_iff] at hj
    by_cases he : j = idx
    · exact .inl he
    · exact .inr ⟨he, hj.resolve_right fun h' => he h'.symm⟩
  refine ⟨h.many, h.total, h.counts.add ht, fun j hj => ?_, fun j hj => ?_, fun j hj => ?_,
    fun j hj => ?_⟩
  · rcases hcases hj with rfl | ⟨hne, hold⟩
    · simp [FragAsm.add]
    · simp only [FragAsm.add, Function.update_of_ne hne]
      exact h.lens j hold
  · rcases hcases hj with rfl | ⟨-, hold⟩
    · exact hshort
    · exact h.short j hold
  · rcases hcases hj with rfl | ⟨-, hold⟩
    · exact ht.2
    · exact h.inside j hold
  · rcases hcases hj with rfl | ⟨hne, hold⟩
    · exact Mem.read_write_self ..
    · have hj' := h.short j hold
      have hsep : j * pitch + pitch ≤ idx * pitch ∨ idx * pitch + pitch ≤ j * pitch := by
        rw [← Nat.succ_mul, ← Nat.succ_mul]
        rcases Nat.lt_or_gt_of_ne hne with hlt | hlt
        · exact .inl (Nat.mul_le_mul_right pitch hlt)
        · exact .inr (Nat.mul_le_mul_right pitch hlt)
      have hread : (p.write f.buf (idx * pitch) (piece fp data idx)).read f.buf (j * pitch)
          (piece fp data j).length = p.read f.buf (j * pitch) (piece fp data j).length :=
        Mem.read_congr fun y h1 h2 => if_neg (by omega)
      exact hread.trans (h.bytes j hold)

/-- **The pieces of a complete slot** add up to the message, and the compaction joins them. -/
theorem joined (h : f.Has p fp pitch data) (hcut : Cut fp data f.total) (hc : f.Complete) :
    f.length = data.length ∧
      (runMoves p.poolStore (poolPtr f.buf)
        (compactMoves pitch f.offsets (List.range f.total) 0).1).read (poolPtr f.buf) data.length =
        data := by
  have hbit (j : Nat) (hj : j < f.total) := h.counts.complete hc hj
  have hlen : f.length = data.length :=
    hcut.sum (by have := h.many; omega) fun j hj => h.lens j (hbit j hj)
  have hread := (@compact_read pitch (poolPtr f.buf) f.offsets (piece fp data) f.total 0 0 p.poolStore
    (Nat.zero_le _) fun j _ hj => by
      have hb := hbit j (by omega)
      exact ⟨h.lens j hb, h.short j hb, h.bytes j hb⟩).1
  rw [← List.range_eq_range', hcut.join, Nat.add_zero] at hread
  refine ⟨hlen, ?_⟩
  rw [← hlen]
  exact hread

end FragAsm.Has

/-! ## All slots -/

/-- Every slot in use has pieces of the message that `M` names for its number, `B` tells which, and no
two slots have one number. -/
structure Rx.Collects (x : Rx) (fp pitch : Nat) (M : UInt16 → List UInt8 → Prop)
    (B : UInt16 → Nat → Prop) : Prop where
  slots : ∀ i, (x.rcv.frags i).active = true →
    ∃ data, M (x.rcv.frags i).seq data ∧ (x.rcv.frags i).Has x.pool fp pitch data
  bits : ∀ i, (x.rcv.frags i).active = true → ∀ j, (x.rcv.frags i).bitmask.testBit j = true →
    B (x.rcv.frags i).seq j
  unique : ∀ i j, (x.rcv.frags i).active = true → (x.rcv.frags j).active = true →
    (x.rcv.frags i).seq = (x.rcv.frags j).seq → i = j

section
variable {c : Conn} {id : ChanId} {ch : Chan} {x x' : Rx} {fp pitch total idx : Nat}
  {M M' : UInt16 → List UInt8 → Prop} {B B' : UInt16 → Nat → Prop} {seq : UInt16}
  {data : List UInt8} {i : Fin ncFragSlots}

theorem frag_apart (hok : x.Ok c id ch) {k : Fin ncFragSlots} (hne : k ≠ i) {b b' : BufIdx}
    (hb : (x.rcv.frags i).buf = some b) (hb' : (x.rcv.frags k).buf = some b') : b' ≠ b := by
  rintro rfl
  have hi : (x.arena c id ch).holds (id, .frag i) = some b' := by
    rw [holds_at]
    exact hb
  have hk : (x.arena c id ch).holds (id, .frag k) = some b' := by
    rw [holds_at]
    exact hb'
  cases hok.arena.inj _ _ _ hk hi
  exact hne rfl

namespace Rx.Collects

theorem empty (p : Pool) (ev : Ring Event ncEventQueue) (w : UInt32) (fp pitch : Nat)
    (M : UInt16 → List UInt8 → Prop) (B : UInt16 → Nat → Prop) :
    Rx.Collects ⟨p, ev, { recvWindow := w }⟩ fp pitch M B :=
  ⟨fun _ h => (by cases h), fun _ h => (by cases h), fun _ _ h => (by cases h)⟩

theorem mono (h : x.Collects fp pitch M B)
    (hM : ∀ i data, (x.rcv.frags i).active = true → M (x.rcv.frags i).seq data →
      M' (x.rcv.frags i).seq data)
    (hB : ∀ i j, (x.rcv.frags i).active = true → B (x.rcv.frags i).seq j →
      B' (x.rcv.frags i).seq j) : x.Collects fp pitch M' B' := by
  refine ⟨fun i hi => ?_, fun i hi j hj => hB i j hi (h.bits i hi j hj), h.unique⟩
  obtain ⟨d, hd, hhas⟩ := h.slots i hi
  exact ⟨d, hM i d hi hd, hhas⟩

theorem frame (h : x.Collects fp pitch M B) (hw : RcvWf x.rcv) (hf : x'.rcv.frags = x.rcv.frags)
    (hp : ∀ i b, (x.rcv.frags i).buf = some b → x'.pool.bytes b = x.pool.bytes b) :
    x'.Collects fp pitch M B := by
  refine ⟨fun i hi => ?_, by rw [hf]; exact h.bits, by rw [hf]; exact h.unique⟩
  rw [hf] at hi ⊢
  obtain ⟨d, hd, hhas⟩ := h.slots i hi
  obtain ⟨b, hb⟩ := hw.frags i hi
  exact ⟨d, hd, hhas.congr hb (hp i b hb)⟩

/-- Slot `i` changes, and the buffers of the others are left alone. -/
theorem update (h : x.Collects fp pitch M B) (hok : x.Ok c id ch)
    (hf : ∀ k, k ≠ i → x'.rcv.frags k = x.rcv.frags k)
    (hp : ∀ k, k ≠ i → ∀ b, (x.rcv.frags k).buf = some b → x'.pool.bytes b = x.pool.bytes b)
    (hi : (x'.rcv.frags i).active = true → (∃ d, M (x'.rcv.frags i).seq d ∧
      (x'.rcv.frags i).Has x'.pool fp pitch d) ∧
      (∀ j, (x'.rcv.frags i).bitmask.testBit j = true → B (x'.rcv.frags i).seq j) ∧
      ∀ k, k ≠ i → (x.rcv.frags k).active = true →
        (x.rcv.frags k).seq ≠ (x'.rcv.frags i).seq) : x'.Collects fp pitch M B := by
  refine ⟨fun k hk => ?_, fun k hk => ?_, fun k l hk hl he => ?_⟩
  · by_cases hki : k = i
    · subst hki
      exact (hi hk).1
    · rw [hf k hki] at hk ⊢
      obtain ⟨d, hd, hhas⟩ := h.slots k hk
      obtain ⟨b, hb⟩ := hok.wf.frags k hk
      exact ⟨d, hd, hhas.congr hb (hp k hki b hb)⟩
  · by_cases hki : k = i
    · subst hki
      exact (hi hk).2.1
    · rw [hf k hki] at hk ⊢
      exact h.bits k hk
  · by_cases hki : k = i <;> by_cases hli : l = i
    · rw [hki, hli]
    · subst hki
      rw [hf l hli] at hl he
      exact absurd he.symm ((hi hk).2.2 l hli hl)
    · subst hli
      rw [hf k hki] at hk he
      exact absurd he ((hi hl).2.2 k hki hk)
    · rw [hf k hki] at hk he
      rw [hf l hli] at hl he
      exact h.unique k l hk hl he

theorem slot (h : x.Collects fp pitch M B) (hok : x.Ok c id ch) (hM : M seq data)
    (hfun : ∀ d, M seq d → d = data) (htotal : total = pieceCount fp data.length)
    (hmany : 1 < total) (hs : fragSlot x seq total = some (i, x')) :
    x'.Collects fp pitch M B ∧ (x'.rcv.frags i).seq = seq ∧
      (x'.rcv.frags i).Has x'.pool fp pitch data := by
  rcases fragSlot_cases hs with ⟨rfl, hact, hseq⟩ | ⟨b, p, -, hidle, hnone, hget, rfl⟩
  · obtain ⟨d, hd, hhas⟩ := h.slots i hact
    rw [hseq] at hd
    obtain rfl := hfun d hd
    exact ⟨h, hseq, hhas⟩
  · have hhas : FragAsm.Has { seq, total, active := true, buf := some b } p fp pitch data :=
      .empty p pitch hmany htotal
    refine ⟨h.update hok (i := i) (fun k hk => Function.update_of_ne hk ..)
      (fun k _ b' _ => congrFun (bytes_of_store (poolGet_store hget)) b') fun _ => ⟨?_, ?_, ?_⟩, ?_, ?_⟩
    · simp only [Function.update_self]
      exact ⟨data, hM, hhas⟩
    · intro j hj
      simp at hj
    · intro k _ hk he
      simp only [Function.update_self] at he
      have hno := List.find?_eq_none.1 hnone k (List.mem_finRange k)
      simp [hk, he] at hno
    · simp only [Function.update_self]
    · simp only [Function.update_self]
      exact hhas

/-- **A piece reaches the reassembly block**: the slots keep what they have, or the message is
complete and in its slot. -/
theorem store (h : x.Collects fp pitch M B) (hok : x.Ok c id ch) (hM : M seq data)
    (hfun : ∀ d, M seq d → d = data) (htotal : total = pieceCount fp data.length)
    (hmany : 1 < total) (hcut : Cut fp data total) (hB : B seq idx)
    (hshort : (piece fp data idx).length ≤ pitch) :
    (∃ x', fragStore pitch x seq idx total (piece fp data idx) = (x', none) ∧
      x'.Collects fp pitch M B) ∨
    ∃ x' i, fragStore pitch x seq idx total (piece fp data idx) = (x', some (i, data.length)) ∧
      assembled x' i data.length = data ∧ (fragFree x' i).Collects fp pitch M B ∧
      (x'.rcv.frags i).active = true ∧
      (∀ k, k ≠ i → (x'.rcv.frags k).active = true → (x'.rcv.frags k).seq ≠ seq) ∧
      ∀ j < total, j ≠ idx → (x.rcv.frags i).active = true ∧ (x.rcv.frags i).seq = seq ∧
        (x.rcv.frags i).bitmask.testBit j = true := by
  rcases fragStore_cases pitch x seq idx total (piece fp data idx) with ⟨-, he⟩ | ⟨i, x', hs, h'⟩
  · exact .inl ⟨x, he, h⟩
  obtain ⟨hx', hseq, hhas⟩ := h.slot hok hM hfun htotal hmany hs
  obtain ⟨hre, hact⟩ := fragSlot_reassembles hok hs
  obtain ⟨b, hb⟩ := hre.ok.wf.frags i hact
  have halone (k : Fin ncFragSlots) (hk : k ≠ i) (ha : (x'.rcv.frags k).active = true) :
      (x'.rcv.frags k).seq ≠ seq := fun hs' => hk (hx'.unique k i ha hact (hs'.trans hseq.symm))
  -- the slot with the piece in it
  have hput (ht : (x'.rcv.frags i).Takes pitch idx (piece fp data idx).length) :
      (fragPut pitch x' i idx (piece fp data idx)).Collects fp pitch M B := by
    have hf : (fragPut pitch x' i idx (piece fp data idx)).rcv.frags i =
        (x'.rcv.frags i).add idx (piece fp data idx).length := by simp [fragPut]
    refine hx'.update hre.ok (i := i) (fun k hk => by simp [fragPut, Function.update_of_ne hk])
      (fun k hk b' hb' => fragPut_bytes hb (frag_apart hre.ok hk hb hb') ht) fun _ => ?_
    rw [hf]
    refine ⟨⟨data, ?_, hhas.put ht hshort⟩, fun j hj => ?_, fun k hk ha => ?_⟩
    · exact hseq ▸ hM
    · rw [testBit_add, Bool.or_eq_true, decide_eq_true_iff] at hj
      rcases hj with hj | rfl
      · exact hx'.bits i hact j hj
      · exact hseq ▸ hB
    · exact hseq ▸ halone k hk ha
  rcases h' with ⟨-, he⟩ | ⟨ht, ⟨-, he⟩ | ⟨hc, he⟩⟩
  · exact .inl ⟨x', he, hx'⟩
  · exact .inl ⟨_, he, hput ht⟩
  · have hok1 := (fragPut_reassembles hre.ok hact ht).ok
    have hf : (fragPut pitch x' i idx (piece fp data idx)).rcv.frags i =
        (x'.rcv.frags i).add idx (piece fp data idx).length := by simp [fragPut]
    have hothers (k : Fin ncFragSlots) (hk : k ≠ i) :
        (fragPut pitch x' i idx (piece fp data idx)).rcv.frags k = x'.rcv.frags k := by
      simp [fragPut, Function.update_of_ne hk]
    have hcol := hput ht
    have hhas1 : ((fragPut pitch x' i idx (piece fp data idx)).rcv.frags i).Has
        (fragPut pitch x' i idx (piece fp data idx)).pool fp pitch data := by
      rw [hf]
      exact hhas.put ht hshort
    rw [← hf] at hc he
    generalize fragPut pitch x' i idx (piece fp data idx) = y at *
    have hact1 : (y.rcv.frags i).active = true := by
      rw [hf]
      exact hact
    have hb1 : (y.rcv.frags i).buf = some b := by
      rw [hf]
      exact hb
    obtain ⟨hlen, hjoin⟩ := hhas1.joined (by rw [hhas1.total, ← htotal]; exact hcut) hc
    rw [hlen] at he
    refine .inr ⟨_, i, he, ?_, ?_, hact1, fun k hk ha => ?_, fun j hj hne => ?_⟩
    · simp only [assembled, Pool.read, fragCompact, Nat.add_zero]
      exact hjoin
    · refine hcol.update hok1 (i := i) (fun k hk => ?_) (fun k hk b' hb' => ?_) fun ha => ?_
      · simp [fragFree, fragCompact, Function.update_of_ne hk]
      · have hfree : (fragFree (fragCompact pitch y i).1 i).pool.bytes b' =
            (fragCompact pitch y i).1.pool.bytes b' := by
          refine congrFun (bytes_of_store ?_) b'
          simp [fragFree, fragCompact, hb1, poolPut]
        rw [hfree]
        refine fragCompact_bytes hb1 (frag_apart hok1 hk hb1 hb') ?_
        rw [hlen]
        exact hcut.small
      · simp [fragFree] at ha
    · have ha' : (y.rcv.frags k).active = true := ha
      show (y.rcv.frags k).seq ≠ seq
      rw [hothers k hk] at ha' ⊢
      exact halone k hk ha'
    · have hbit := hhas1.counts.complete hc (j := j) (by rw [hhas1.total, ← htotal]; exact hj)
      rw [hf, testBit_add, Bool.or_eq_true, decide_eq_true_iff] at hbit
      have hbit := hbit.resolve_right fun h' => hne h'.symm
      rcases fragSlot_cases hs with ⟨rfl, ha, hsq⟩ | ⟨b', p, -, -, -, -, rfl⟩
      · exact ⟨ha, hsq, hbit⟩
      · -- a fresh slot has no other piece
        simp at hbit

end Rx.Collects

/-- A whole message that arrives leaves the buffers of the reassembly slots alone. -/
theorem dataArrived_bytes (hok : x.Ok c id ch) (seq : UInt16) (data : List UInt8) {b : BufIdx}
    (hb : (x.rcv.frags i).buf = some b) :
    (dataArrived id x seq data).pool.bytes b = x.pool.bytes b := by
  have hch : (x.arena c id ch).Change (deliveryLocs id) ((dataArrived id x seq data).arena c id ch) := by
    by_cases hs : seq = x.rcv.recvSeq
    · obtain ⟨⟨l, hd, -⟩, -⟩ := dataArrived_passed data hok hs
      exact hd.change
    · rw [dataArrived, if_neg hs]
      exact (reorderStore_keeps seq data hok).1.change
  refine hch.cont (id, .frag i) ?_ b ?_
  · simp [deliveryLocs]
  · rw [holds_at]
    exact hb

/-- **A DATA frame with a piece of a message**: the slots keep what they have, and a message is
complete only with all its bytes; then no slot has its number. -/
theorem Rx.Collects.heard (h : x.Collects fp pitch M B) (hok : x.Ok c id ch) (hM : M seq data)
    (hfun : ∀ d, M seq d → d = data) (htotal : total = pieceCount fp data.length)
    (hcut : Cut fp data total) (hidx : idx < total) (hB : B seq idx)
    (hshort : 1 < total → (piece fp data idx).length ≤ pitch)
    (hfit : 1 < total → FragFits pitch x seq idx total (piece fp data idx).length) :
    (dataReliable pitch id x seq idx total (piece fp data idx)).Collects fp pitch M B ∧
      (arrived pitch x seq idx total (piece fp data idx) = none ∨
        arrived pitch x seq idx total (piece fp data idx) = some data ∧
        (∀ k, ((dataReliable pitch id x seq idx total (piece fp data idx)).rcv.frags k).active = true →
          ((dataReliable pitch id x seq idx total (piece fp data idx)).rcv.frags k).seq ≠ seq) ∧
        ∀ j < total, j ≠ idx → ∃ i, (x.rcv.frags i).active = true ∧ (x.rcv.frags i).seq = seq ∧
          (x.rcv.frags i).bitmask.testBit j = true) := by
  by_cases hmany : 1 < total
  · have hno : ¬ total ≤ 1 := by omega
    obtain ⟨hre, -⟩ := fragStore_reassembles hok (hfit hmany)
    rcases h.store hok hM hfun htotal hmany hcut hB (hshort hmany) with
      ⟨x1, he, hcol⟩ | ⟨x1, i, he, hasm, hcol, hact, halone, hbits⟩
    · simp only [dataReliable, arrived, if_neg hno, he]
      exact ⟨hcol, .inl trivial⟩
    · simp only [dataReliable, arrived, if_neg hno, he, hasm]
      rw [he] at hre
      have hfree := fragFree_reassembles hre.ok hact
      have hfrags : (fragFree (dataArrived id x1 seq data) i).rcv.frags = (fragFree x1 i).rcv.frags := by
        simp [fragFree, dataArrived_frags]
      refine ⟨hcol.frame hfree.ok.wf hfrags fun k b hb => ?_, .inr ⟨trivial, fun k hk => ?_,
        fun j hj hne => ⟨i, hbits j hj hne⟩⟩⟩
      · have hstore (y : Rx) : (fragFree y i).pool.bytes = y.pool.bytes := by
          refine bytes_of_store ?_
          simp only [fragFree]
          cases (y.rcv.frags i).buf with
          | none => rfl
          | some b => rfl
        rw [hstore, hstore]
        have hki : k ≠ i := by
          rintro rfl
          simp [fragFree] at hb
        simp only [fragFree, Function.update_of_ne hki] at hb
        exact dataArrived_bytes hre.ok seq data hb
      · rw [hfrags] at hk ⊢
        have hki : k ≠ i := by
          rintro rfl
          simp [fragFree] at hk
        simp only [fragFree, Function.update_of_ne hki] at hk ⊢
        exact halone k hki hk
  · have hone : total = 1 := by omega
    subst hone
    obtain rfl : idx = 0 := by omega
    have hwhole : piece fp data 0 = data := by
      have hj := hcut.join
      simpa using hj
    rw [hwhole]
    simp only [dataReliable, arrived, Nat.le_refl, if_true]
    refine ⟨h.frame hok.wf (dataArrived_frags ..) fun k b hb => dataArrived_bytes hok seq data hb,
      .inr ⟨trivial, fun k hk hs => ?_, fun j hj hne => absurd hj (by omega)⟩⟩
    -- a message of one piece has no slot
    rw [dataArrived_frags] at hk hs
    obtain ⟨d, hd, hhas⟩ := h.slots k hk
    rw [hs] at hd
    obtain rfl := hfun d hd
    have h1 := hhas.many
    rw [hhas.total, ← htotal] at h1
    omega

end

end Netchan
