import Netchan.Proof.Change

/-!
# Reassembly

What the reassembly block of `process_data` does to its slots and to the memory.

* `fragStore_cases`: the outcomes of the block; `data_frags`: what every stored fragment keeps, a
  DATA frame keeps of all slots.
* `FragAsm.Counts`: the slot's counter counts the bits of its mask, so a complete slot has every
  fragment (`Counts.complete`).
* `fragWrites`: the byte ranges the block writes. A fragment is checked against its own place in
  the buffer only, and the compaction adds the lengths up: `reassembly_inside` shows that it stays
  in the slot's buffer exactly if the completed message is no longer than a buffer.
-/

namespace Netchan

open Lib

/-! ## Slots -/

/-- No fragment is missing. -/
abbrev FragAsm.Complete (f : FragAsm) : Prop := f.got = f.total

/-- The slot's counter counts the bits of its mask, which are those of its fragments. -/
structure FragAsm.Counts (f : FragAsm) : Prop where
  bits : ∀ j, f.bitmask.testBit j = true → j < f.total
  got : f.got = (List.range f.total).countP fun j => f.bitmask.testBit j

theorem testBit_add (f : FragAsm) (idx len j : Nat) :
    (f.add idx len).bitmask.testBit j = (f.bitmask.testBit j || decide (idx = j)) := by
  simp [FragAsm.add, Nat.testBit_or, Nat.testBit_two_pow]

theorem countP_or_eq {p : Nat → Bool} {a : Nat} (hp : p a = false) : ∀ {l : List Nat}, l.Nodup →
    a ∈ l → l.countP (fun j => p j || decide (a = j)) = l.countP p + 1
  | j :: l, hn, ha => by
    obtain ⟨hj, hn⟩ := List.nodup_cons.1 hn
    by_cases h : a = j
    · subst h
      have : l.countP (fun j => p j || decide (a = j)) = l.countP p :=
        List.countP_congr fun k hk => by
          have : a ≠ k := fun he => hj (he ▸ hk)
          simp [this]
      simp [hp, this]
    · have ha : a ∈ l := by simpa [h] using ha
      have := countP_or_eq hp hn ha
      simp only [List.countP_cons, this, h, decide_false, Bool.or_false]
      omega

namespace FragAsm.Counts

theorem empty {seq : UInt16} {total : Nat} {buf : Option BufIdx} {active : Bool} :
    FragAsm.Counts { seq, total, buf, active } := by
  refine ⟨fun j h => ?_, ?_⟩
  · simp at h
  · simp

theorem add {f : FragAsm} {fp idx len : Nat} (h : f.Counts) (ht : f.Takes fp idx len) :
    (f.add idx len).Counts := by
  obtain ⟨⟨hlt, hb⟩, -⟩ := ht
  refine ⟨fun j hj => ?_, ?_⟩
  · rw [testBit_add] at hj
    rcases Bool.or_eq_true_iff.1 hj with hj | hj
    · exact h.bits j hj
    · exact (of_decide_eq_true hj) ▸ hlt
  · simp only [testBit_add]
    show f.got + 1 = (List.range f.total).countP _
    rw [countP_or_eq (p := fun j => f.bitmask.testBit j) hb (List.nodup_range)
      (List.mem_range.2 hlt), ← h.got]

/-- **A complete slot has every fragment.** -/
theorem complete {f : FragAsm} (h : f.Counts) (hg : f.Complete) {j : Nat} (hj : j < f.total) :
    f.bitmask.testBit j = true := by
  have := h.got
  rw [show f.got = f.total from hg] at this
  have h' := List.countP_eq_length.1 (this.symm.trans (List.length_range).symm)
  exact h' j (List.mem_range.2 hj)

end FragAsm.Counts

/-- The length of the message a slot's fragments add up to. -/
def FragAsm.length (f : FragAsm) : Nat := ((List.range f.total).map f.offsets).sum

/-! ## The outcomes of the reassembly block -/

theorem compactMoves_length (fp : Nat) (offsets : Nat → Nat) : ∀ (is : List Nat) (pos : Nat),
    (compactMoves fp offsets is pos).2 = pos + (is.map offsets).sum
  | [], pos => rfl
  | i :: is, pos => by
    simp only [compactMoves, List.map_cons, List.sum_cons, compactMoves_length fp offsets is]
    omega

/-- **The slot of a fragment**: the one of its message, or a free one with a fresh buffer. -/
theorem fragSlot_cases {x x' : Rx} {seq : UInt16} {total : Nat} {i : Fin ncFragSlots}
    (h : fragSlot x seq total = some (i, x')) :
    (x' = x ∧ (x.rcv.frags i).active = true ∧ (x.rcv.frags i).seq = seq) ∨
    ∃ b p, total ≤ ncMaxFrags ∧ (x.rcv.frags i).active = false ∧ fragFind x.rcv seq = none ∧
      poolGet x.pool = (some b, p) ∧
      x' = { x with pool := p
                    rcv := { x.rcv with
                      frags := Function.update x.rcv.frags i
                        { seq, total, active := true, buf := some b } } } := by
  unfold fragSlot at h
  split at h
  · rename_i j hf
    cases h
    have := List.find?_some hf
    simp only [Bool.and_eq_true, beq_iff_eq] at this
    exact .inl ⟨rfl, this.1, this.2⟩
  · rename_i hf
    unfold fragAlloc at h
    split at h
    · cases h
    · rename_i ht
      split at h
      · cases h
      · rename_i j hj
        split at h
        · cases h
        · rename_i b p hg
          cases h
          have := List.find?_some hj
          exact .inr ⟨b, p, by omega, by simpa using this, hf, hg, rfl⟩

/-- **The outcomes of the reassembly block.** -/
theorem fragStore_cases (fp : Nat) (x : Rx) (seq : UInt16) (idx total : Nat)
    (payload : List UInt8) :
    (fragSlot x seq total = none ∧ fragStore fp x seq idx total payload = (x, none)) ∨
    ∃ i x', fragSlot x seq total = some (i, x') ∧
      ((¬ (x'.rcv.frags i).Takes fp idx payload.length ∧
          fragStore fp x seq idx total payload = (x', none)) ∨
        (x'.rcv.frags i).Takes fp idx payload.length ∧
          ((¬ ((x'.rcv.frags i).add idx payload.length).Complete ∧
              fragStore fp x seq idx total payload = (fragPut fp x' i idx payload, none)) ∨
            (((x'.rcv.frags i).add idx payload.length).Complete ∧
              fragStore fp x seq idx total payload =
                ((fragCompact fp (fragPut fp x' i idx payload) i).1,
                  some (i, ((x'.rcv.frags i).add idx payload.length).length))))) := by
  unfold fragStore
  cases hs : fragSlot x seq total with
  | none => exact .inl ⟨rfl, rfl⟩
  | some r =>
    obtain ⟨i, x'⟩ := r
    refine .inr ⟨i, x', rfl, ?_⟩
    dsimp only
    by_cases ht : (x'.rcv.frags i).Takes fp idx payload.length
    · rw [if_pos ht]
      refine .inr ⟨ht, ?_⟩
      have hf : (fragPut fp x' i idx payload).rcv.frags i =
          (x'.rcv.frags i).add idx payload.length := by simp [fragPut]
      rw [hf]
      by_cases hg : ((x'.rcv.frags i).add idx payload.length).Complete
      · rw [if_pos hg]
        refine .inr ⟨hg, ?_⟩
        have : (fragCompact fp (fragPut fp x' i idx payload) i).2 =
            ((x'.rcv.frags i).add idx payload.length).length := by
          simp only [fragCompact, hf, compactMoves_length, FragAsm.length, Nat.zero_add]
        rw [← this]
      · rw [if_neg hg]
        exact .inl ⟨hg, rfl⟩
    · rw [if_neg ht]
      exact .inl ⟨ht, rfl⟩

/-! ## What a DATA frame does to the slots -/

theorem chanRecvEnqueue_frags (x : Rx) (data : List UInt8) :
    (chanRecvEnqueue x data).2.rcv.frags = x.rcv.frags := by
  unfold chanRecvEnqueue
  dsimp only
  repeat' split
  all_goals rfl

theorem deliverLoop_frags (id : ChanId) : ∀ (fuel : Nat) (x : Rx),
    (deliverLoop id fuel x).rcv.frags = x.rcv.frags
  | 0, _ => rfl
  | fuel + 1, x => by
    unfold deliverLoop
    split
    · rw [deliverLoop_frags id fuel]
      exact chanRecvEnqueue_frags x _
    · rfl

theorem reorderStore_frags (x : Rx) (seq : UInt16) (data : List UInt8) :
    (reorderStore x seq data).rcv.frags = x.rcv.frags := by
  unfold reorderStore
  dsimp only
  repeat' split
  all_goals rfl

theorem dataArrived_frags (id : ChanId) (x : Rx) (seq : UInt16) (data : List UInt8) :
    (dataArrived id x seq data).rcv.frags = x.rcv.frags := by
  unfold dataArrived
  split
  · rw [chanDeliverReordered, deliverLoop_frags]
    exact chanRecvEnqueue_frags x data
  · exact reorderStore_frags x seq data

section
variable {P : FragAsm → Prop} {fp : Nat} {x : Rx} {seq : UInt16} {idx total : Nat}
  {payload : List UInt8}

/-- What a stored fragment keeps, the reassembly block keeps of all slots. -/
theorem fragStore_frags
    (hnew : ∀ b, total ≤ ncMaxFrags → P { seq, total, active := true, buf := some b })
    (hadd : ∀ f, P f → f.active = true → f.seq = seq → f.Takes fp idx payload.length →
      P (f.add idx payload.length))
    (h : ∀ i, P (x.rcv.frags i)) :
    ∀ i, P ((fragStore fp x seq idx total payload).1.rcv.frags i) := by
  rcases fragStore_cases fp x seq idx total payload with ⟨-, he⟩ | ⟨i, x', hs, h'⟩
  · rwa [he]
  -- the slot chosen for the fragment belongs to its message, and all slots keep `P`
  have hx : (∀ j, P (x'.rcv.frags j)) ∧ (x'.rcv.frags i).active = true ∧
      (x'.rcv.frags i).seq = seq := by
    rcases fragSlot_cases hs with ⟨rfl, ha, hq⟩ | ⟨b, p, ht, -, -, -, rfl⟩
    · exact ⟨h, ha, hq⟩
    · refine ⟨fun j => ?_, by simp, by simp⟩
      by_cases hj : j = i
      · subst hj
        simpa using hnew b ht
      · simpa [Function.update_of_ne hj] using h j
  have hput : (x'.rcv.frags i).Takes fp idx payload.length →
      ∀ j, P ((fragPut fp x' i idx payload).rcv.frags j) := by
    intro ht j
    by_cases hj : j = i
    · subst hj
      simpa [fragPut] using hadd _ (hx.1 j) hx.2.1 hx.2.2 ht
    · simpa [fragPut, Function.update_of_ne hj] using hx.1 j
  rcases h' with ⟨-, he⟩ | ⟨ht, ⟨-, he⟩ | ⟨-, he⟩⟩
  · rw [he]; exact hx.1
  · rw [he]; exact hput ht
  · rw [he]; exact hput ht

theorem fragFree_frags (hempty : P {}) (i : Fin ncFragSlots) (h : ∀ j, P (x.rcv.frags j)) :
    ∀ j, P ((fragFree x i).rcv.frags j) := fun j => by
  by_cases hj : j = i
  · subst hj
    simpa [fragFree] using hempty
  · simpa [fragFree, Function.update_of_ne hj] using h j

/-- **What every stored fragment keeps, a DATA frame keeps of all slots** of its channel. -/
theorem data_frags {c : Conn} {id : ChanId} {ch : Chan} (hempty : P {})
    (hnew : ∀ b, 1 < total → total ≤ ncMaxFrags → P { seq, total, active := true, buf := some b })
    (hadd : ∀ f, 1 < total → P f → f.active = true → f.seq = seq →
      f.Takes (maxFragPayload c) idx payload.length → P (f.add idx payload.length))
    (h : ∀ i, P (ch.rcv.frags i)) :
    ∀ i, P ((dataRcv c id ch seq idx total payload).frags i) := by
  have hstore : 1 < total →
      ∀ i, P ((fragStore (maxFragPayload c) (c.rx ch) seq idx total payload).1.rcv.frags i) :=
    fun ht => fragStore_frags (fun b hb => hnew b ht hb) (fun f => hadd f ht) h
  unfold dataRcv
  split
  · unfold dataUnreliable
    split
    · rw [Rx.deliver, chanRecvEnqueue_frags]
      exact h
    · rename_i ht
      have hs := hstore (by omega)
      split
      · rename_i x he
        rwa [he] at hs
      · rename_i x i pos he
        rw [he] at hs
        refine fragFree_frags hempty i ?_
        rw [Rx.deliver, chanRecvEnqueue_frags]
        exact hs
  · show ∀ i, P ((dataReliable _ _ _ _ _ _ _).rcv.frags i)
    unfold dataReliable
    split
    · rw [dataArrived_frags]
      exact h
    · rename_i ht
      have hs := hstore (by omega)
      split
      · rename_i x he
        rwa [he] at hs
      · rename_i x i pos he
        rw [he] at hs
        refine fragFree_frags hempty i ?_
        rw [dataArrived_frags]
        exact hs

end

/-! ## The bytes written -/

/-- The byte ranges the reassembly block writes, as offset into `pool_store` and length: the
fragment, and the moves of the compaction. -/
def fragWrites (fp : Nat) (x : Rx) (seq : UInt16) (idx total : Nat) (payload : List UInt8) :
    List (Nat × Nat) :=
  match fragSlot x seq total with
  | none => []
  | some (i, x') =>
    let f := x'.rcv.frags i
    let g := f.add idx payload.length
    if f.Takes fp idx payload.length then
      (poolPtr f.buf + idx * fp, payload.length) ::
        if g.Complete then
          (compactMoves fp g.offsets (List.range g.total) 0).1.map fun v =>
            (poolPtr f.buf + v.dst, v.len)
        else []
    else []

/-- The pool index of the slot a fragment goes to. -/
def fragBuf (x : Rx) (seq : UInt16) (total : Nat) : Option BufIdx :=
  match fragSlot x seq total with
  | none => none
  | some (i, x') => (x'.rcv.frags i).buf

/-- The length of the message the fragment completes: the lengths recorded in its slot and its
own. -/
def completedLen (fp : Nat) (x : Rx) (seq : UInt16) (idx total len : Nat) : Option Nat :=
  match fragSlot x seq total with
  | none => none
  | some (i, x') =>
    let f := x'.rcv.frags i
    if f.Takes fp idx len ∧ (f.add idx len).Complete then some (f.add idx len).length else none

/-- Every byte of the ranges is one of buffer `b`. -/
def WritesInside (b : BufIdx) (ws : List (Nat × Nat)) : Prop :=
  ∀ w ∈ ws, ∀ y, w.1 ≤ y → y < w.1 + w.2 → b.val * ncMaxMsg ≤ y ∧ y < b.val * ncMaxMsg + ncMaxMsg

theorem runMoves_outside (base : Nat) : ∀ (ms : List Move) (m : Mem) (y : Nat),
    (∀ v ∈ ms, ¬ (base + v.dst ≤ y ∧ y < base + v.dst + v.len)) → runMoves m base ms y = m y
  | [], _, _, _ => rfl
  | v :: ms, m, y, h => by
    show runMoves (m.move (base + v.dst) (base + v.src) v.len) base ms y = m y
    rw [runMoves_outside base ms _ y fun v hv => h v (.tail _ hv)]
    exact if_neg (h v (.head _))

theorem poolGet_store {p p' : Pool} {o : Option BufIdx} (h : poolGet p = (o, p')) :
    p'.poolStore = p.poolStore := by
  unfold poolGet at h
  split at h <;> cases h <;> rfl

theorem fragSlot_store {x x' : Rx} {seq : UInt16} {total : Nat} {i : Fin ncFragSlots}
    (h : fragSlot x seq total = some (i, x')) : x'.pool.poolStore = x.pool.poolStore := by
  rcases fragSlot_cases h with ⟨rfl, -, -⟩ | ⟨b, p, -, -, -, hg, rfl⟩
  · rfl
  · exact poolGet_store hg

/-- **`fragWrites` is all the reassembly block writes.** -/
theorem fragStore_outside (fp : Nat) (x : Rx) (seq : UInt16) (idx total : Nat)
    (payload : List UInt8) {y : Nat}
    (h : ∀ w ∈ fragWrites fp x seq idx total payload, ¬ (w.1 ≤ y ∧ y < w.1 + w.2)) :
    (fragStore fp x seq idx total payload).1.pool.poolStore y = x.pool.poolStore y := by
  rcases fragStore_cases fp x seq idx total payload with ⟨-, he⟩ | ⟨i, x', hs, h'⟩
  · rw [he]
  have hx := fragSlot_store hs
  unfold fragWrites at h
  rw [hs] at h
  dsimp only at h
  rcases h' with ⟨-, he⟩ | ⟨ht, ⟨hg, he⟩ | ⟨hg, he⟩⟩
  · rw [he, hx]
  · rw [he]
    rw [if_pos ht, if_neg hg] at h
    have := h _ (.head _)
    rw [← hx]
    exact if_neg this
  · rw [he]
    rw [if_pos ht, if_pos hg] at h
    have hput : (fragPut fp x' i idx payload).pool.poolStore y = x.pool.poolStore y := by
      rw [← hx]
      exact if_neg (h _ (.head _))
    have hf : (fragPut fp x' i idx payload).rcv.frags i =
        (x'.rcv.frags i).add idx payload.length := by simp [fragPut]
    rw [← hput]
    simp only [fragCompact, hf]
    refine runMoves_outside _ _ _ _ fun v hv => ?_
    have := h (poolPtr (x'.rcv.frags i).buf + v.dst, v.len)
      (.tail _ (List.mem_map.2 ⟨v, hv, rfl⟩))
    exact this

/-- The compaction writes no further than the message is long. -/
theorem compactMoves_le (fp : Nat) (offsets : Nat → Nat) : ∀ (is : List Nat) (pos : Nat),
    ∀ v ∈ (compactMoves fp offsets is pos).1, v.dst + v.len ≤ pos + (is.map offsets).sum
  | [], _, v, hv => by simp [compactMoves] at hv
  | i :: is, pos, v, hv => by
    have ih := compactMoves_le fp offsets is (pos + offsets i)
    simp only [compactMoves] at hv
    simp only [List.map_cons, List.sum_cons]
    split at hv
    · rcases List.mem_cons.1 hv with rfl | hv
      · dsimp only
        omega
      · have := ih v hv
        omega
    · have := ih v hv
      omega

/-- A message longer than `m` makes the compaction write byte `m`, when every fragment was within
`m` at its own place. -/
theorem compactMoves_escape (fp m : Nat) (offsets : Nat → Nat) : ∀ (is : List Nat) (pos : Nat),
    (∀ i ∈ is, i * fp + offsets i ≤ m) → pos ≤ m → m < pos + (is.map offsets).sum →
      ∃ v ∈ (compactMoves fp offsets is pos).1, v.dst ≤ m ∧ m < v.dst + v.len
  | [], pos, _, hp, hm => by simp at hm; omega
  | i :: is, pos, hi, hp, hm => by
    simp only [List.map_cons, List.sum_cons] at hm
    have h0 := hi i (.head _)
    simp only [compactMoves]
    by_cases hlt : m < pos + offsets i
    · -- this fragment crosses the end, so it is not at its own place and is moved
      rw [if_pos (by omega)]
      exact ⟨_, .head _, hp, hlt⟩
    · obtain ⟨v, hv, h⟩ := compactMoves_escape fp m offsets is (pos + offsets i)
        (fun j hj => hi j (.tail _ hj)) (by omega) (by omega)
      refine ⟨v, ?_, h⟩
      split
      · exact .tail _ hv
      · exact hv

/-- The fragments of a slot are within a buffer, each at its own place. -/
def FragAsm.Pitched (fp : Nat) (f : FragAsm) : Prop :=
  f.Counts ∧ ∀ j, f.bitmask.testBit j = true → j * fp + f.offsets j ≤ ncMaxMsg

theorem FragAsm.Pitched.add {fp idx len : Nat} {f : FragAsm} (h : f.Pitched fp)
    (ht : f.Takes fp idx len) : (f.add idx len).Pitched fp := by
  refine ⟨h.1.add ht, fun j hj => ?_⟩
  by_cases he : j = idx
  · subst he
    simpa [FragAsm.add] using ht.2
  · rw [testBit_add] at hj
    have : idx ≠ j := fun h => he h.symm
    simpa [FragAsm.add, Function.update_of_ne he] using h.2 j (by simpa [this] using hj)

theorem FragAsm.Pitched.empty (fp : Nat) {seq : UInt16} {total : Nat} {buf : Option BufIdx}
    {active : Bool} : FragAsm.Pitched fp { seq, total, buf, active } :=
  ⟨.empty, fun j h => by simp at h⟩

/-! ## Whole runs -/

/-- Every slot of every channel is pitched. -/
def FragsPitched (c : Conn) : Prop :=
  ∀ id ch, c.channels id = some ch → ∀ i, (ch.rcv.frags i).Pitched (maxFragPayload c)

/-- `netchan_config` keeps the mtu once there are channels. -/
def KeepsPitch (c : Conn) : Step → Prop
  | .config cfg => cfg.mtu = c.cfg.mtu ∨ ∀ id, c.channels id = none
  | _ => True

theorem step_pitched {c : Conn} {st : Step} (h : FragsPitched c) (hok : KeepsPitch c st) :
    FragsPitched (st.apply c) := by
  intro id ch' hc'
  by_cases hcfg : ∃ cfg, st = .config cfg
  · obtain ⟨cfg, rfl⟩ := hcfg
    have hc : c.channels id = some ch' := hc'
    rcases hok with hm | hn
    · have : maxFragPayload (Step.apply c (.config cfg)) = maxFragPayload c := by
        simp [maxFragPayload, Step.apply, netchanConfig, hm]
      rw [this]
      exact h id ch' hc
    · rw [hn id] at hc
      cases hc
  · have hpitch : maxFragPayload (st.apply c) = maxFragPayload c := by
      rw [maxFragPayload, step_cfg c st fun cfg he => hcfg ⟨cfg, he⟩, maxFragPayload]
    rw [hpitch]
    have hch := step_chan c st id
    rw [hc'] at hch
    generalize hc : c.channels id = o at hch
    cases hch with
    | created hid hs hr =>
      rw [hr]
      exact fun i => .empty _
    | kept hk hr =>
      rename_i ch
      have hp := h id ch hc
      generalize hre : ch'.rcv = r' at hr
      cases hr with
      | flags hf =>
        obtain ⟨a, w, rfl, -, -⟩ := hf
        exact hp
      | read buflen _ _ => exact hp
      | data env seq fragIdx fragTotal payload _ =>
        exact data_frags (.empty _) (fun b _ _ => .empty _) (fun f _ hf _ _ ht => hf.add ht) hp

theorem fragSlot_pitched {fp : Nat} {x x' : Rx} {seq : UInt16} {total : Nat} {i : Fin ncFragSlots}
    (h : fragSlot x seq total = some (i, x')) (hp : ∀ i, (x.rcv.frags i).Pitched fp) :
    (x'.rcv.frags i).Pitched fp := by
  rcases fragSlot_cases h with ⟨rfl, -, -⟩ | ⟨b, p, -, -, -, -, rfl⟩
  · exact hp i
  · simpa using FragAsm.Pitched.empty fp

/-- **Reassembly stays in its buffer** whenever the message a fragment completes is no longer than
a buffer, and then nothing else in memory changes; as long as the mtu is not changed under open
channels, it stays there only then. -/
theorem reassembly_inside {server : Bool} {sts : List Step} {id : ChanId} {ch : Chan}
    (hch : (runConn server sts).channels id = some ch) {seq : UInt16} {total : Nat} {b : BufIdx}
    (hb : fragBuf ((runConn server sts).rx ch) seq total = some b) (idx : Nat)
    (payload : List UInt8) :
    let fp := maxFragPayload (runConn server sts)
    let x := (runConn server sts).rx ch
    ((∀ n, completedLen fp x seq idx total payload.length = some n → n ≤ ncMaxMsg) →
      WritesInside b (fragWrites fp x seq idx total payload) ∧
      ∀ y, ¬ (b.val * ncMaxMsg ≤ y ∧ y < b.val * ncMaxMsg + ncMaxMsg) →
        (fragStore fp x seq idx total payload).1.pool.poolStore y = x.pool.poolStore y) ∧
    (Along Step.apply KeepsPitch (netchanOpen server) sts →
      WritesInside b (fragWrites fp x seq idx total payload) →
      ∀ n, completedLen fp x seq idx total payload.length = some n → n ≤ ncMaxMsg) := by
  intro fp x
  replace hb : fragBuf x seq total = some b := hb
  have inside : (∀ n, completedLen fp x seq idx total payload.length = some n → n ≤ ncMaxMsg) →
      WritesInside b (fragWrites fp x seq idx total payload) := by
    intro hn w hw y h1 h2
    unfold fragBuf at hb
    unfold completedLen at hn
    unfold fragWrites at hw
    cases hs : fragSlot x seq total with
    | none => simp [hs] at hw
    | some r =>
      obtain ⟨i, x'⟩ := r
      rw [hs] at hb hn hw
      dsimp only at hb hn hw
      rw [hb] at hw
      split at hw
      · rename_i ht
        rcases List.mem_cons.1 hw with rfl | hw
        · have := ht.2
          simp only [poolPtr] at h1 h2
          omega
        · split at hw
          · rename_i hg
            rw [if_pos ⟨ht, hg⟩] at hn
            have hlen := hn _ rfl
            obtain ⟨v, hv, rfl⟩ := List.mem_map.1 hw
            have := compactMoves_le fp _ _ 0 v hv
            simp only [FragAsm.length] at hlen
            simp only [poolPtr] at h1 h2
            omega
          · simp at hw
      · simp at hw
  refine ⟨fun hn => ⟨inside hn, fun y hy => ?_⟩, fun hrun hin n hn => ?_⟩
  · exact fragStore_outside fp x seq idx total payload fun w hw hy' =>
      hy (inside hn w hw y hy'.1 hy'.2)
  · have hp : FragsPitched (runConn server sts) :=
      run_invariant (fun c st => step_pitched) (fun id ch h => by simp [netchanOpen] at h) hrun
    have hp : ∀ i, (x.rcv.frags i).Pitched fp := hp id ch hch
    unfold fragBuf at hb
    unfold completedLen at hn
    unfold fragWrites at hin
    cases hs : fragSlot x seq total with
    | none => simp [hs] at hn
    | some r =>
      obtain ⟨i, x'⟩ := r
      rw [hs] at hb hn hin
      dsimp only at hb hn hin
      rw [hb] at hin
      have hpi := fragSlot_pitched hs hp
      split at hn
      · rename_i hg
        cases hn
        rw [if_pos hg.1, if_pos hg.2] at hin
        by_contra hlt
        -- every fragment is there and was checked, so the compaction writes just past the buffer
        have hadd := hpi.add hg.1
        obtain ⟨v, hv, h1, h2⟩ := compactMoves_escape fp ncMaxMsg _ (List.range _) 0
          (fun j hj => hadd.2 j (hadd.1.complete hg.2 (List.mem_range.1 hj))) (by omega)
          (by rw [Nat.zero_add]; exact Nat.not_le.1 hlt)
        have := hin _ (.tail _ (List.mem_map.2 ⟨v, hv, rfl⟩)) (b.val * ncMaxMsg + ncMaxMsg)
          (by simp only [poolPtr]; omega) (by simp only [poolPtr]; omega)
        omega
      · cases hn

/-- A server with one reliable channel it receives on. -/
def listenSteps : List Step :=
  [.frame { entropy := 9 } (.connectInit 7), .call .accept,
    .frame {} (.channelOpen 0 .reliable .send [])]

theorem reassembly_inside_first :
    ∃ ch, (runConn true listenSteps).channels 0 = some ch ∧
      fragBuf ((runConn true listenSteps).rx ch) 0 2 = some 63 ∧
      WritesInside 63 (fragWrites (maxFragPayload (runConn true listenSteps))
        ((runConn true listenSteps).rx ch) 0 1 2 [1, 2, 3]) := by
  obtain ⟨ch, hch⟩ : ∃ ch, (runConn true listenSteps).channels 0 = some ch :=
    Option.isSome_iff_exists.1 (by decide +kernel)
  have hv : (((runConn true listenSteps).channels 0).map fun ch =>
      (fragBuf ((runConn true listenSteps).rx ch) 0 2,
        completedLen (maxFragPayload (runConn true listenSteps))
          ((runConn true listenSteps).rx ch) 0 1 2 3)) = some (some 63, none) := by
    decide +kernel
  rw [hch, Option.map_some, Option.some_inj, Prod.mk.injEq] at hv
  refine ⟨ch, hch, hv.1, ((reassembly_inside hch hv.1 1 [1, 2, 3]).1 fun n hn => ?_).1⟩
  rw [show completedLen _ _ 0 1 2 [(1 : UInt8), 2, 3].length = none from hv.2] at hn
  cases hn

/-- That server with the second of two fragments, which fills its place to the end of the buffer. -/
def secondSteps : List Step :=
  listenSteps ++ [.frame {} (.data 0 0 1 2 (List.replicate 863 0))]

/-- **A first fragment longer than its place** passes its own check and makes the compaction write
past the buffer: here it is the last buffer of the pool, and the 863 bytes are those after
`pool_store`. -/
theorem reassembly_escapes :
    (((runConn true secondSteps).channels 0).map fun ch =>
      (fragBuf ((runConn true secondSteps).rx ch) 0 2,
        fragWrites (maxFragPayload (runConn true secondSteps)) ((runConn true secondSteps).rx ch)
          0 0 2 (List.replicate 2048 0))) =
      some (some 63, [(63 * ncMaxMsg, 2048), (poolBytes, 863)]) ∧
    ¬ WritesInside 63 [(63 * ncMaxMsg, 2048), (poolBytes, 863)] := by
  refine ⟨by decide +kernel, fun h => ?_⟩
  have := h (poolBytes, 863) (by simp) poolBytes (by decide) (by decide)
  exact absurd this.2 (by decide)

end Netchan
