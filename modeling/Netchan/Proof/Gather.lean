import Netchan.Proof.Pool
import Netchan.Proof.Owners

/-!
# Gathering the fragments of a message

What the reassembly slots make of a stream of fragments.

* `rx_ok_run`: in every reachable state no buffer has two owners and what a channel holds fits its
  buffers, whatever was fed to it.
* `Gathers`: a reassembly slot has some of the pieces of a message. `Gathers.pieces`: it gathers
  them in any order, repeated or not; `Gathers.finish`: the last missing one enqueues the message
  and frees the slot.
* `pieces_whole`: all pieces of a message that has no slot yet; `pieces_dropped`: there is no slot
  for it.
-/

namespace Netchan

open Lib

/-! ## Buffers in every reachable state -/

section
variable {ch : Chan} {b : BufIdx}

theorem mem_chanTokens {l : Loc} (h : ch.holds l = some b) : b ∈ chanTokens (some ch) := by
  cases l with
  | out k => exact Multiset.mem_add.2 (.inl (mem_tokens (f := fun k => (ch.snd.outgoing k).buf) h))
  | queue k =>
    exact Multiset.mem_add.2 (.inr (Multiset.mem_add.2 (.inl (Multiset.mem_add.2 (.inl
      (mem_tokens (f := fun k => (ch.rcv.recvQueue.slots k).buf) h))))))
  | reorder k => exact Multiset.mem_add.2 (.inr (mem_reorder h))
  | frag i => exact Multiset.mem_add.2 (.inr (mem_frags h))

theorem holds_inj (h : (chanTokens (some ch)).Nodup) {l l' : Loc} (hl : ch.holds l = some b)
    (hl' : ch.holds l' = some b) : l = l' := by
  obtain ⟨hs, hr, hsr⟩ := Multiset.nodup_add.1 h
  obtain ⟨hqr, hf, hqrf⟩ := Multiset.nodup_add.1 hr
  obtain ⟨hq, hre, hqre⟩ := Multiset.nodup_add.1 hqr
  have apart {s t : Multiset BufIdx} (hd : Disjoint s t) (h1 : b ∈ s) (h2 : b ∈ t) : l = l' :=
    (Multiset.disjoint_left.1 hd h1 h2).elim
  have inQueue {k : Fin ncRecvQueue} (hk : ch.holds (.queue k) = some b) :
      b ∈ tokens fun k => (ch.rcv.recvQueue.slots k).buf :=
    mem_tokens (f := fun k => (ch.rcv.recvQueue.slots k).buf) hk
  have inReorder {k : Fin ncReorderSlots} (hk : ch.holds (.reorder k) = some b) :
      b ∈ tokens fun k => (ch.rcv.reorder k).buf :=
    mem_tokens (f := fun k => (ch.rcv.reorder k).buf) hk
  have inFrags {i : Fin ncFragSlots} (hi : ch.holds (.frag i) = some b) :
      b ∈ tokens fun i => (ch.rcv.frags i).buf :=
    mem_tokens (f := fun i => (ch.rcv.frags i).buf) hi
  have inOut {k : Fin ncOutgoingSlots} (hk : ch.holds (.out k) = some b) : b ∈ sndTokens ch.snd :=
    mem_tokens (f := fun k => (ch.snd.outgoing k).buf) hk
  have inRcv {m : Loc} (hm : ch.holds m = some b) (hi : m.Inbound) : b ∈ rcvTokens ch.rcv := by
    cases m with
    | out k => exact hi.elim
    | queue k => exact Multiset.mem_add.2 (.inl (Multiset.mem_add.2 (.inl (inQueue hm))))
    | reorder k => exact mem_reorder hm
    | frag i => exact mem_frags hm
  cases l with
  | out k =>
    cases l' with
    | out k' => exact congrArg Loc.out (tokens_inj hs hl hl')
    | _ => exact apart hsr (inOut hl) (inRcv hl' trivial)
  | queue k =>
    cases l' with
    | out k' => exact apart hsr.symm (inRcv hl trivial) (inOut hl')
    | queue k' => exact congrArg Loc.queue (tokens_inj hq hl hl')
    | reorder k' => exact apart hqre (inQueue hl) (inReorder hl')
    | frag i' => exact apart hqrf (Multiset.mem_add.2 (.inl (inQueue hl))) (inFrags hl')
  | reorder k =>
    cases l' with
    | out k' => exact apart hsr.symm (inRcv hl trivial) (inOut hl')
    | queue k' => exact apart hqre.symm (inReorder hl) (inQueue hl')
    | reorder k' => exact congrArg Loc.reorder (tokens_inj hre hl hl')
    | frag i' => exact apart hqrf (Multiset.mem_add.2 (.inr (inReorder hl))) (inFrags hl')
  | frag i =>
    cases l' with
    | out k' => exact apart hsr.symm (inRcv hl trivial) (inOut hl')
    | queue k' => exact apart hqrf.symm (inFrags hl) (Multiset.mem_add.2 (.inl (inQueue hl')))
    | reorder k' => exact apart hqrf.symm (inFrags hl) (Multiset.mem_add.2 (.inr (inReorder hl')))
    | frag i' => exact congrArg Loc.frag (tokens_inj hf hl hl')

/-- **No buffer has two owners**, where the pool is in order. -/
theorem PoolOk.arena {c : Conn} (h : PoolOk c) : c.arena.Ok := by
  have hnd : c.tokens.Nodup := by
    rw [h.total]
    exact Finset.univ.nodup
  obtain ⟨hfree, hchans, hapart⟩ := Multiset.nodup_add.1 hnd
  have split (id : ChanId) : chanTokens (c.channels id) +
      ∑ j ∈ Finset.univ.erase id, chanTokens (c.channels j) = ∑ j, chanTokens (c.channels j) :=
    Finset.add_sum_erase _ (fun j => chanTokens (c.channels j)) (Finset.mem_univ id)
  have hmem {o : Owner} {b : BufIdx} (ho : c.arena.holds o = some b) :
      b ∈ chanTokens (c.channels o.1) ∧ ∃ ch, c.channels o.1 = some ch ∧ ch.holds o.2 = some b := by
    simp only [Conn.arena, tableHolds] at ho
    split at ho
    · cases ho
    · rename_i ch hc
      exact ⟨hc ▸ mem_chanTokens ho, ch, hc, ho⟩
  refine ⟨Multiset.coe_nodup.1 hfree, fun o b ho hb => ?_, fun o o' b ho ho' => ?_⟩
  · refine Multiset.disjoint_left.1 hapart (Multiset.mem_coe.2 hb) ?_
    rw [← split o.1]
    exact Multiset.mem_add.2 (.inl (hmem ho).1)
  · obtain ⟨hb, ch, hc, hl⟩ := hmem ho
    obtain ⟨hb', ch', hc', hl'⟩ := hmem ho'
    rw [← split o.1] at hchans
    obtain ⟨hown, -, hothers⟩ := Multiset.nodup_add.1 hchans
    have hid : o'.1 = o.1 := by
      by_contra hne
      refine Multiset.disjoint_left.1 hothers hb ?_
      exact Multiset.mem_sum.2 ⟨o'.1, Finset.mem_erase.2 ⟨hne, Finset.mem_univ _⟩, hb'⟩
    rw [hid, hc] at hc'
    cases hc'
    rw [hc] at hown
    exact Prod.ext hid.symm (holds_inj hown hl hl')

end

/-- What waits in the receive queue and in the reorder table fits a buffer. -/
structure RcvLens (r : Receiver) : Prop where
  queue : ∀ e ∈ r.recvQueue.toList, e.len ≤ ncMaxMsg
  reorder : ∀ k, (r.reorder k).valid = true → (r.reorder k).len ≤ ncMaxMsg

section
variable {x : Rx}

theorem RcvLens.congr {r r' : Receiver} (h : RcvLens r) (hq : r'.recvQueue = r.recvQueue)
    (hr : r'.reorder = r.reorder) : RcvLens r' :=
  ⟨by rw [hq]; exact h.queue, by rw [hr]; exact h.reorder⟩

theorem RcvLens.deliver (h : RcvLens x.rcv) (id : ChanId) (data : List UInt8) :
    RcvLens (x.deliver id data).rcv := by
  rcases deliver_cases x id data with ⟨hr, b, fs, -, he⟩ | ⟨-, he⟩
  · rw [he]
    refine ⟨fun e hm => ?_, h.reorder⟩
    simp only [Rx.enqueued] at hm
    rw [Ring.toList_push (by decide) hr.queue, List.mem_append, List.mem_singleton] at hm
    rcases hm with hm | rfl
    · exact h.queue e hm
    · exact hr.small
  · rw [he]
    exact h

theorem RcvLens.deliverNext (h : RcvLens x.rcv) (id : ChanId) :
    RcvLens (Netchan.deliverNext id x).rcv := by
  rw [deliverNext_eq]
  have hd := h.deliver id (x.slotBytes (reorderSlot x.rcv.recvSeq))
  refine ⟨hd.queue, fun k hk => ?_⟩
  by_cases he : k = reorderSlot x.rcv.recvSeq
  · subst he
    simp [Rx.slotFreed] at hk
  · simp only [Rx.slotFreed, Function.update_of_ne he] at hk ⊢
    exact hd.reorder k hk

theorem RcvLens.deliverLoop (id : ChanId) : ∀ (fuel : Nat) {x : Rx}, RcvLens x.rcv →
    RcvLens (Netchan.deliverLoop id fuel x).rcv
  | 0, _, h => h
  | fuel + 1, x, h => by
    unfold Netchan.deliverLoop
    split
    · exact deliverLoop id fuel (h.deliverNext id)
    · exact h

theorem RcvLens.dataArrived (h : RcvLens x.rcv) (id : ChanId) (seq : UInt16) (data : List UInt8) :
    RcvLens (Netchan.dataArrived id x seq data).rcv := by
  unfold Netchan.dataArrived
  split
  · have hd : RcvLens { (x.deliver id data).rcv with
        recvSeq := (x.deliver id data).rcv.recvSeq + 1 } := (h.deliver id data).congr rfl rfl
    exact RcvLens.deliverLoop id ncReorderSlots
      (x := { x.deliver id data with rcv := { (x.deliver id data).rcv with
        recvSeq := (x.deliver id data).rcv.recvSeq + 1 } }) hd
  · unfold reorderStore
    dsimp only
    split
    · split
      · rename_i hv
        split
        · exact h
        · refine ⟨h.queue, fun k hk => ?_⟩
          by_cases he : k = reorderSlot seq
          · subst he
            simp only [Function.update_self]
            exact hv.2
          · simp only [Function.update_of_ne he] at hk ⊢
            exact h.reorder k hk
      · exact h
    · exact h

theorem RcvLens.fragStore (h : RcvLens x.rcv) (fp : Nat) (seq : UInt16) (idx total : Nat)
    (payload : List UInt8) : RcvLens (Netchan.fragStore fp x seq idx total payload).1.rcv := by
  rcases fragStore_cases fp x seq idx total payload with ⟨-, he⟩ | ⟨i, x', hs, h'⟩
  · rw [he]
    exact h
  have hx : RcvLens x'.rcv := by
    rcases fragSlot_cases hs with ⟨rfl, -, -⟩ | ⟨b, p, -, -, -, -, rfl⟩
    · exact h
    · exact h.congr rfl rfl
  rcases h' with ⟨-, he⟩ | ⟨-, ⟨-, he⟩ | ⟨-, he⟩⟩ <;> rw [he]
  · exact hx
  · exact hx.congr rfl rfl
  · exact hx.congr rfl rfl

theorem RcvLens.data {c : Conn} {ch : Chan} (h : RcvLens ch.rcv) (id : ChanId) (seq : UInt16)
    (idx total : Nat) (payload : List UInt8) :
    RcvLens (dataRcv c id ch seq idx total payload) := by
  have hx : RcvLens (c.rx ch).rcv := h
  have hf := hx.fragStore (maxFragPayload c) seq idx total payload
  unfold dataRcv
  split
  · unfold dataUnreliable
    split
    · exact hx.deliver id payload
    · split
      · rename_i x' hs
        rwa [hs] at hf
      · rename_i x' i pos hs
        rw [hs] at hf
        exact (hf.deliver id (assembled x' i pos)).congr rfl rfl
  · unfold dataReliable
    split
    · exact (hx.dataArrived id seq payload).congr rfl rfl
    · split
      · rename_i x' hs
        rw [hs] at hf
        exact hf.congr rfl rfl
      · rename_i x' i pos hs
        rw [hs] at hf
        exact (hf.dataArrived id seq (assembled x' i pos)).congr rfl rfl

end

theorem lens_step {c : Conn} (h : ∀ id ch, c.channels id = some ch → RcvLens ch.rcv) (st : Step)
    (id : ChanId) (ch' : Chan) (hc' : (st.apply c).channels id = some ch') : RcvLens ch'.rcv := by
  have hchange := step_chan c st id
  rw [hc'] at hchange
  generalize ho : c.channels id = o at hchange
  cases hchange with
  | created hid hs hr =>
    rw [hr]
    exact ⟨by simp, fun k hk => by cases hk⟩
  | @kept ch _ hk hr =>
    have hch := h id ch ho
    generalize ch'.rcv = r at hr
    cases hr with
    | flags hf =>
      obtain ⟨a, w, rfl, -⟩ := hf
      exact hch.congr rfl rfl
    | read buflen hr hq =>
      refine ⟨fun e he => hch.queue e ?_, hch.reorder⟩
      simp only [readRcv] at he
      have hl := Ring.toList_pop (by decide) hq ({} : RecvEntry)
      rw [hl]
      exact .tail _ he
    | data env seq idx total payload hr => exact hch.data id seq idx total payload

/-- **In every reachable state** the buffers of a channel that receives are its own and what it
holds fits them, whatever was fed to it. -/
theorem rx_ok_run (server : Bool) (sts : List Step) {id : ChanId} {ch : Chan}
    (hc : (runConn server sts).channels id = some ch) :
    ((runConn server sts).rx ch).Ok (runConn server sts) id ch := by
  have hpool : PoolOk (runConn server sts) :=
    run_invariant (I := PoolOk) (A := fun _ _ => True) (fun c st h _ => pool_step h st)
      (pool_open server) (along_true sts)
  have hlens : ∀ id ch, (runConn server sts).channels id = some ch → RcvLens ch.rcv :=
    run_invariant (I := fun c : Conn => ∀ id ch, c.channels id = some ch → RcvLens ch.rcv)
      (A := fun _ _ => True) (fun c st h _ => lens_step h st) (fun id ch hc => by cases hc)
      (along_true sts)
  generalize runConn server sts = c at hc hpool hlens
  have hslots := hpool.rcv id ch hc
  have hself : c.withRx id ch (c.rx ch) = c := setChan_self c hc
  refine ⟨?_, fun e he => ?_, fun k hk => ?_, fun i hi => ?_⟩
  · rw [Rx.arena, hself]
    exact hpool.arena
  · refine ⟨?_, (hlens id ch hc).queue e he⟩
    obtain ⟨k, hk, rfl⟩ := Ring.mem_toList_between he
    exact Option.isSome_iff_exists.1 ((hslots.queue k).trans (decide_eq_true hk))
  · exact ⟨Option.isSome_iff_exists.1 ((hslots.reorder k).trans hk), (hlens id ch hc).reorder k hk⟩
  · exact Option.isSome_iff_exists.1 ((hslots.frags i).trans hi)

/-! ## The pieces of a message -/

/-- Fragment `j` of a message that is cut every `fp` bytes. -/
def piece (fp : Nat) (data : List UInt8) (j : Nat) : List UInt8 := (data.drop (j * fp)).take fp

/-- The message is cut into `total` pieces, none of them empty. -/
structure Cut (fp : Nat) (data : List UInt8) (total : Nat) : Prop where
  small : data.length ≤ ncMaxMsg
  covers : data.length ≤ total * fp
  tight : ∀ j < total, j * fp < data.length

section
variable {fp total : Nat} {data : List UInt8}

theorem length_piece (fp : Nat) (data : List UInt8) (j : Nat) :
    (piece fp data j).length = min fp (data.length - j * fp) := by
  simp [piece]

theorem Cut.inside (h : Cut fp data total) {j : Nat} (hj : j < total) :
    j * fp + (piece fp data j).length ≤ data.length := by
  have := h.tight j hj
  rw [length_piece]
  omega

theorem Cut.full (h : Cut fp data total) {j : Nat} (hj : j + 1 < total) :
    (piece fp data j).length = fp := by
  have := h.tight (j + 1) hj
  rw [length_piece]
  rw [Nat.succ_mul] at this
  omega

theorem Cut.last (h : Cut fp data total) {j : Nat} (hj : j + 1 = total) :
    j * fp + (piece fp data j).length = data.length := by
  have h1 := h.tight j (by omega)
  have h2 := h.covers
  rw [← hj, Nat.succ_mul] at h2
  rw [length_piece]
  omega

/-- The compaction of pieces that are all in their places moves nothing. -/
theorem Cut.compact (h : Cut fp data total) {offsets : Nat → Nat}
    (ho : ∀ j < total, offsets j = (piece fp data j).length) : ∀ (n s : Nat), s + n = total →
    0 < n → compactMoves fp offsets (List.range' s n) (s * fp) = ([], data.length)
  | 0, _, _, hn => absurd hn (Nat.lt_irrefl 0)
  | 1, s, hs, _ => by
    have hlast := h.last hs
    simp only [List.range', compactMoves, ne_eq, not_true_eq_false, if_false]
    rw [ho s (by omega), hlast]
  | n + 2, s, hs, _ => by
    have hfull := h.full (j := s) (by omega)
    have ih := Cut.compact h ho (n + 1) (s + 1) (by omega) (Nat.succ_pos n)
    rw [Nat.succ_mul] at ih
    rw [List.range'_succ, compactMoves, ho s (by omega), hfull, ih]
    simp

theorem Cut.sum (h : Cut fp data total) (ht : 0 < total) {offsets : Nat → Nat}
    (ho : ∀ j < total, offsets j = (piece fp data j).length) :
    ((List.range total).map offsets).sum = data.length := by
  have hlen := compactMoves_length fp offsets (List.range total) 0
  have hc := h.compact ho total 0 (by omega) ht
  rw [← List.range_eq_range', Nat.zero_mul] at hc
  rw [hc, Nat.zero_add] at hlen
  exact hlen.symm

theorem Cut.assembled (h : Cut fp data total) (hfp : 0 < fp) {p : Pool} {b : Option BufIdx}
    (hb : ∀ j < total, p.read b (j * fp) (piece fp data j).length = piece fp data j) :
    p.read b 0 data.length = data := by
  apply List.ext_getElem (by simp [Pool.read])
  intro y h1 h2
  have hy : y / fp < total := by
    have hc := h.covers
    exact (Nat.div_lt_iff_lt_mul hfp).2 (by omega)
  have hdiv : y / fp * fp + y % fp = y := Nat.div_add_mod' y fp
  have hmod := Nat.mod_lt y hfp
  have hr : y % fp < (piece fp data (y / fp)).length := by
    rw [length_piece]
    omega
  have hget := List.getElem_of_eq (hb (y / fp) hy) (i := y % fp) (by simpa [Pool.read] using hr)
  simp only [Pool.read, Mem.read, List.getElem_map, List.getElem_range] at hget ⊢
  rw [show poolPtr b + 0 + y = poolPtr b + y / fp * fp + y % fp by omega, hget]
  simp only [piece, List.getElem_take, List.getElem_drop, hdiv]

theorem piece_apart {k j : Nat} (h : k ≠ j) (p : Pool) (b : Option BufIdx) :
    (p.write b (j * fp) (piece fp data j)).read b (k * fp) (piece fp data k).length =
      p.read b (k * fp) (piece fp data k).length := by
  have hk : (piece fp data k).length ≤ fp := by simp [length_piece]
  have hj : (piece fp data j).length ≤ fp := by simp [length_piece]
  have hsep : k * fp + fp ≤ j * fp ∨ j * fp + fp ≤ k * fp := by
    rcases Nat.lt_or_gt_of_ne h with hlt | hlt
    · exact .inl (by rw [← Nat.succ_mul]; exact Nat.mul_le_mul_right fp hlt)
    · exact .inr (by rw [← Nat.succ_mul]; exact Nat.mul_le_mul_right fp hlt)
  refine Mem.read_congr fun y h1 h2 => if_neg ?_
  omega

end

/-! ## Collecting the pieces -/

/-- From `x0` on slot `i` was taken for the message and has its pieces `js`. -/
structure Gathers (c : Conn) (id : ChanId) (ch : Chan) (fp : Nat) (data : List UInt8) (seq : UInt16)
    (total : Nat) (x0 : Rx) (i : Fin ncFragSlots) (js : List Nat) (x : Rx) : Prop where
  re : Reassembles c id ch x0 x
  free : ∃ b, x0.pool.poolFree = b :: x.pool.poolFree
  others : ∀ k, k ≠ i → x.rcv.frags k = x0.rcv.frags k
  idle : (x0.rcv.frags i).active = false
  find : fragFind x.rcv seq = some i
  total : (x.rcv.frags i).total = total
  counts : (x.rcv.frags i).Counts
  bits : ∀ j, (x.rcv.frags i).bitmask.testBit j = true ↔ j ∈ js
  lens : ∀ j ∈ js, (x.rcv.frags i).offsets j = (piece fp data j).length
  bytes : ∀ j ∈ js, x.pool.read (x.rcv.frags i).buf (j * fp) (piece fp data j).length =
    piece fp data j

theorem find?_unique {α : Type} {p : α → Bool} {l : List α} {a : α} (ha : a ∈ l) (hp : p a = true)
    (h : ∀ b ∈ l, p b = true → b = a) : l.find? p = some a := by
  cases hf : l.find? p with
  | none => exact absurd hp (by simpa using List.find?_eq_none.1 hf a ha)
  | some b => rw [h b (List.mem_of_find?_eq_some hf) (List.find?_some hf)]

section
variable {c : Conn} {id : ChanId} {ch : Chan} {fp total : Nat} {data : List UInt8} {seq : UInt16}
  {x0 x : Rx} {i : Fin ncFragSlots} {js : List Nat}

theorem fragFind_spec {r : Receiver} (h : fragFind r seq = some i) :
    (r.frags i).active = true ∧ (r.frags i).seq = seq := by
  have := List.find?_some h
  simpa only [Bool.and_eq_true, beq_iff_eq] using this

theorem Reassembles.congr {x' : Rx} (h : Reassembles c id ch x0 x) (hp : x'.pool = x.pool)
    (hq : x'.rcv.recvQueue = x.rcv.recvQueue) (hr : x'.rcv.reorder = x.rcv.reorder)
    (hf : x'.rcv.frags = x.rcv.frags) (hs : x'.rcv.recvSeq = x.rcv.recvSeq) :
    Reassembles c id ch x0 x' := by
  have ha : x'.arena c id ch = x.arena c id ch := arena_congr hp hq hr hf
  have hw : RcvWf x'.rcv :=
    ⟨hq ▸ h.ok.wf.queue, hr ▸ h.ok.wf.reorder, hf ▸ h.ok.wf.frags⟩
  exact ⟨⟨ha ▸ h.ok.arena, hw⟩, ha ▸ h.change, hq.trans h.ring, hr.trans h.reorder,
    hs.trans h.recvSeq⟩

theorem Gathers.ack (h : Gathers c id ch fp data seq total x0 i js x) :
    Gathers c id ch fp data seq total x0 i js { x with rcv := x.rcv.ack } :=
  ⟨h.re.congr rfl rfl rfl rfl rfl, h.free, h.others, h.idle, h.find, h.total, h.counts, h.bits,
    h.lens, h.bytes⟩

theorem Gathers.mem {js' : List Nat} (h : Gathers c id ch fp data seq total x0 i js x)
    (hm : ∀ j, j ∈ js ↔ j ∈ js') : Gathers c id ch fp data seq total x0 i js' x :=
  { h with
    bits := fun j => (h.bits j).trans (hm j)
    lens := fun j hj => h.lens j ((hm j).2 hj)
    bytes := fun j hj => h.bytes j ((hm j).2 hj) }

/-- A free slot is taken for a message that has none. -/
theorem gathers_alloc (fp : Nat) (data : List UInt8) (hok : x0.Ok c id ch) (hnew : fragFind x0.rcv seq = none)
    (hslot : ∃ i, (x0.rcv.frags i).active = false) (hpool : x0.pool.poolFree ≠ [])
    (ht : total ≤ ncMaxFrags) : ∃ i x, fragSlot x0 seq total = some (i, x) ∧
      Gathers c id ch fp data seq total x0 i [] x := by
  obtain ⟨b, fs, hfs⟩ := List.exists_cons_of_ne_nil hpool
  obtain ⟨i, hi⟩ : ∃ i, (List.finRange ncFragSlots).find? (fun i => !(x0.rcv.frags i).active) =
      some i := by
    obtain ⟨k, hk⟩ := hslot
    cases hf : (List.finRange ncFragSlots).find? (fun i => !(x0.rcv.frags i).active) with
    | some i => exact ⟨i, rfl⟩
    | none => exact absurd hk (by simpa using List.find?_eq_none.1 hf k (List.mem_finRange k))
  have hidle : (x0.rcv.frags i).active = false := by simpa using List.find?_some hi
  let f : FragAsm := { seq, total, active := true, buf := some b }
  let x : Rx := { x0 with
    pool := { x0.pool with poolFree := fs }
    rcv := { x0.rcv with frags := Function.update x0.rcv.frags i f } }
  have hstep : fragSlot x0 seq total = some (i, x) := by
    simp only [fragSlot, hnew, fragAlloc, if_neg (Nat.not_lt.2 ht), hi, poolGet, hfs]
    rfl
  have hf : x.rcv.frags i = f := Function.update_self ..
  refine ⟨i, x, hstep, (fragSlot_reassembles hok hstep).1, ⟨b, hfs⟩,
    fun k hk => Function.update_of_ne hk .., hidle, ?_, by rw [hf], by rw [hf]; exact .empty, ?_,
    by simp, by simp⟩
  · refine find?_unique (List.mem_finRange i) ?_ fun k _ hk => ?_
    · rw [hf]
      simp [f]
    · by_contra hne
      have hold := List.find?_eq_none.1 hnew k (List.mem_finRange k)
      have hsame : x.rcv.frags k = x0.rcv.frags k := Function.update_of_ne hne ..
      rw [hsame] at hk
      exact hold hk
  · intro j
    rw [hf]
    simp [f]

theorem Gathers.slot (h : Gathers c id ch fp data seq total x0 i js x) (t : Nat) :
    fragSlot x seq t = some (i, x) := by
  rw [fragSlot, h.find]

/-- A piece that is there already is dropped. -/
theorem Gathers.again (h : Gathers c id ch fp data seq total x0 i js x) {j : Nat} (hj : j ∈ js)
    (t : Nat) (payload : List UInt8) : fragStore fp x seq j t payload = (x, none) := by
  rcases fragStore_cases fp x seq j t payload with ⟨-, he⟩ | ⟨i', x', hs, h'⟩
  · exact he
  rw [h.slot] at hs
  cases hs
  rcases h' with ⟨-, he⟩ | ⟨ht, -⟩
  · exact he
  · have := (h.bits j).2 hj
    rw [ht.1.2] at this
    cases this

theorem Gathers.put (h : Gathers c id ch fp data seq total x0 i js x) (hcut : Cut fp data total)
    {j : Nat} (hj : j < total) (hnew : j ∉ js) :
    (x.rcv.frags i).Takes fp j (piece fp data j).length ∧
      Gathers c id ch fp data seq total x0 i (j :: js) (fragPut fp x i j (piece fp data j)) := by
  obtain ⟨hact, hseq⟩ := fragFind_spec h.find
  have htakes : (x.rcv.frags i).Takes fp j (piece fp data j).length := by
    refine ⟨⟨by rw [h.total]; exact hj, ?_⟩, (hcut.inside hj).trans hcut.small⟩
    by_contra hb
    exact hnew ((h.bits j).1 (by simpa using hb))
  have hf : (fragPut fp x i j (piece fp data j)).rcv.frags i =
      (x.rcv.frags i).add j (piece fp data j).length := by simp [fragPut]
  have hother (k : Fin ncFragSlots) (hk : k ≠ i) :
      (fragPut fp x i j (piece fp data j)).rcv.frags k = x.rcv.frags k := by
    simp [fragPut, Function.update_of_ne hk]
  refine ⟨htakes, h.re.trans (fragPut_reassembles h.re.ok hact htakes), h.free,
    fun k hk => (hother k hk).trans (h.others k hk), h.idle, ?_, by rw [hf]; exact h.total,
    by rw [hf]; exact h.counts.add htakes, fun k => ?_, fun k hk => ?_, fun k hk => ?_⟩
  · rw [← h.find]
    refine congrArg (fun p => (List.finRange ncFragSlots).find? p) (funext fun k => ?_)
    by_cases hk : k = i
    · subst hk
      rw [hf]
      rfl
    · rw [hother k hk]
  · rw [hf, testBit_add, Bool.or_eq_true, decide_eq_true_iff, h.bits k, List.mem_cons, or_comm,
      eq_comm]
  · rw [hf]
    by_cases he : k = j
    · subst he
      simp [FragAsm.add]
    · have hk' : k ∈ js := (List.mem_cons.1 hk).resolve_left he
      simp only [FragAsm.add, Function.update_of_ne he]
      exact h.lens k hk'
  · rw [hf]
    by_cases he : k = j
    · subst he
      exact Mem.read_write_self ..
    · have hk' : k ∈ js := (List.mem_cons.1 hk).resolve_left he
      exact (piece_apart he x.pool (x.rcv.frags i).buf).trans (h.bytes k hk')

theorem Gathers.complete (h : Gathers c id ch fp data seq total x0 i js x) :
    (x.rcv.frags i).Complete ↔ ∀ k < total, k ∈ js := by
  refine ⟨fun hg k hk => (h.bits k).1 (h.counts.complete hg (by rw [h.total]; exact hk)),
    fun hall => ?_⟩
  have hgot := h.counts.got
  rw [List.countP_eq_length.2, List.length_range] at hgot
  · exact hgot
  · intro k hk
    rw [h.total] at hk
    exact (h.bits k).2 (hall k (List.mem_range.1 hk))

/-- A new piece, and others are still missing. -/
theorem Gathers.more (h : Gathers c id ch fp data seq total x0 i js x) (hcut : Cut fp data total)
    {j : Nat} (hj : j < total) (hnew : j ∉ js) (hmiss : ∃ k < total, k ∉ j :: js) (t : Nat) :
    fragStore fp x seq j t (piece fp data j) = (fragPut fp x i j (piece fp data j), none) := by
  obtain ⟨htakes, hput⟩ := h.put hcut hj hnew
  have hf : (fragPut fp x i j (piece fp data j)).rcv.frags i =
      (x.rcv.frags i).add j (piece fp data j).length := by simp [fragPut]
  rcases fragStore_cases fp x seq j t (piece fp data j) with ⟨hs, -⟩ | ⟨i', x', hs, h'⟩ <;>
    rw [h.slot] at hs <;> cases hs
  rcases h' with ⟨hno, -⟩ | ⟨-, ⟨-, he⟩ | ⟨hc, -⟩⟩
  · exact absurd htakes hno
  · exact he
  · obtain ⟨k, hk, hkn⟩ := hmiss
    rw [← hf] at hc
    exact absurd (hput.complete.1 hc k hk) hkn

/-- **The last missing piece**: the slot holds the message. -/
theorem Gathers.done (h : Gathers c id ch fp data seq total x0 i js x) (hcut : Cut fp data total)
    (hfp : 0 < fp) {j : Nat} (hj : j < total) (hnew : j ∉ js) (hall : ∀ k < total, k ∈ j :: js)
    (t : Nat) :
    fragStore fp x seq j t (piece fp data j) =
      (fragPut fp x i j (piece fp data j), some (i, data.length)) ∧
    assembled (fragPut fp x i j (piece fp data j)) i data.length = data := by
  obtain ⟨htakes, hput⟩ := h.put hcut hj hnew
  have hf : (fragPut fp x i j (piece fp data j)).rcv.frags i =
      (x.rcv.frags i).add j (piece fp data j).length := by simp [fragPut]
  have hc := hput.complete.2 hall
  have hlens : ∀ k < total, ((fragPut fp x i j (piece fp data j)).rcv.frags i).offsets k =
      (piece fp data k).length := fun k hk => hput.lens k (hall k hk)
  have hmoves := hcut.compact hlens total 0 (Nat.zero_add _) (by omega)
  rw [← List.range_eq_range', Nat.zero_mul] at hmoves
  have hcompact : fragCompact fp (fragPut fp x i j (piece fp data j)) i =
      (fragPut fp x i j (piece fp data j), data.length) := by
    simp only [fragCompact, hput.total, hmoves]
    rfl
  refine ⟨?_, hcut.assembled hfp fun k hk => hput.bytes k (hall k hk)⟩
  rw [fragStore, h.slot]
  simp only [if_pos htakes]
  rw [if_pos hc, hcompact]

end

/-! ## A stream of fragments -/

/-- The receiving side of a channel after a DATA frame. -/
def Rx.data (fp : Nat) (type : ChanType) (id : ChanId) (seq : UInt16) (total : Nat) (x : Rx)
    (idx : Nat) (payload : List UInt8) : Rx :=
  if type = .unreliable then dataUnreliable fp id x seq idx total payload
  else
    let x := dataReliable fp id x seq idx total payload
    { x with rcv := x.rcv.ack }

/-- The receiving side of a channel after the pieces `js` of a message. -/
def Rx.pieces (fp : Nat) (type : ChanType) (id : ChanId) (seq : UInt16) (total : Nat)
    (data : List UInt8) (x : Rx) (js : List Nat) : Rx :=
  js.foldl (fun x j => x.data fp type id seq total j (piece fp data j)) x

/-- The frame of a piece. -/
def pieceFrame (fp : Nat) (id : ChanId) (seq : UInt16) (total : Nat) (data : List UInt8) (j : Nat) :
    Frame :=
  .data id seq j total (piece fp data j)

section
variable {c : Conn} {id : ChanId} {ch : Chan} {fp total : Nat} {data : List UInt8} {seq : UInt16}
  {x0 x : Rx} {i : Fin ncFragSlots} {js : List Nat}

theorem withRx_self (hc : c.channels id = some ch) : c.withRx id ch (c.rx ch) = c :=
  setChan_self c hc

theorem queued_withRx (c : Conn) (id : ChanId) (ch : Chan) (x : Rx) : queued (c.withRx id ch x) id = x.queue := by
  simp [queued, Conn.withRx, Conn.setChan, Rx.queue]

theorem dataReceived_withRx (c : Conn) (id : ChanId) (hr : ch.role = .receiver) (x : Rx)
    (seq : UInt16) (idx total : Nat) (payload : List UInt8) :
    dataReceived (c.withRx id ch x) id seq idx total payload =
      c.withRx id ch (x.data (maxFragPayload c) ch.type id seq total idx payload) := by
  have hch : (c.withRx id ch x).channels id = some { ch with rcv := x.rcv } := Table.set_same ..
  have hrx : (c.withRx id ch x).rx { ch with rcv := x.rcv } = x := rfl
  have hfp : maxFragPayload (c.withRx id ch x) = maxFragPayload c := rfl
  have hset (y : Rx) : (c.withRx id ch x).withRx id { ch with rcv := x.rcv } y =
      c.withRx id ch y := by
    simp [Conn.withRx, Conn.setChan, Table.set]
  unfold dataReceived Rx.data
  rw [hch]
  dsimp only
  rw [if_neg (by simp [hr]), hrx, hfp]
  split
  · exact hset _
  · exact hset _

/-- A run of the pieces' frames is a run of the channel's receiving side. -/
theorem run_pieces (c : Conn) (id : ChanId) (hr : ch.role = .receiver) (env : Env) (seq : UInt16)
    (total : Nat) (data : List UInt8) (js : List Nat) (x : Rx) :
    run (stepFrame env) (c.withRx id ch x)
        (js.map (pieceFrame (maxFragPayload c) id seq total data)) =
      c.withRx id ch (x.pieces (maxFragPayload c) ch.type id seq total data js) := by
  induction js generalizing x with
  | nil => rfl
  | cons j js ih =>
    rw [List.map_cons, run_cons]
    have hstep : stepFrame env (c.withRx id ch x)
        (pieceFrame (maxFragPayload c) id seq total data j) =
        dataReceived (c.withRx id ch x) id seq j total (piece (maxFragPayload c) data j) := rfl
    rw [hstep, dataReceived_withRx c id hr]
    exact ih _

/-- A fragment that completes nothing leaves what the reassembly block left. -/
theorem data_quiet {x' : Rx} (type : ChanType) (id : ChanId) {idx : Nat} {payload : List UInt8}
    (ht : 1 < total)
    (h : fragStore fp x seq idx total payload = (x', none)) :
    x.data fp type id seq total idx payload = x' ∨
      x.data fp type id seq total idx payload = { x' with rcv := x'.rcv.ack } := by
  unfold Rx.data dataUnreliable dataReliable
  rw [if_neg (Nat.not_le.2 ht), if_neg (Nat.not_le.2 ht), h]
  split
  · exact .inl rfl
  · exact .inr rfl

/-- What is fed to a channel with no slot for the message is fed to it with the slot taken. -/
theorem data_taken {x1 : Rx} {type : ChanType} (ht : 1 < total)
    (hs : fragSlot x0 seq total = some (i, x1)) (hs1 : fragSlot x1 seq total = some (i, x1))
    (idx : Nat) (payload : List UInt8) :
    x0.data fp type id seq total idx payload = x1.data fp type id seq total idx payload := by
  have he : fragStore fp x0 seq idx total payload = fragStore fp x1 seq idx total payload := by
    rw [fragStore, fragStore, hs, hs1]
  unfold Rx.data dataUnreliable dataReliable
  rw [if_neg (Nat.not_le.2 ht), if_neg (Nat.not_le.2 ht), if_neg (Nat.not_le.2 ht),
    if_neg (Nat.not_le.2 ht), he]

/-- **A piece, and others are still missing.** -/
theorem Gathers.step (h : Gathers c id ch fp data seq total x0 i js x) (hcut : Cut fp data total)
    (ht : 1 < total) {j : Nat} (hj : j < total) (hmiss : ∃ k < total, k ∉ j :: js)
    (type : ChanType) :
    Gathers c id ch fp data seq total x0 i (j :: js)
      (x.data fp type id seq total j (piece fp data j)) := by
  obtain ⟨x', hx', hs⟩ : ∃ x', Gathers c id ch fp data seq total x0 i (j :: js) x' ∧
      fragStore fp x seq j total (piece fp data j) = (x', none) := by
    by_cases hold : j ∈ js
    · refine ⟨x, h.mem fun k => ?_, h.again hold ..⟩
      rw [List.mem_cons]
      exact ⟨.inr, fun hk => hk.elim (fun he => he ▸ hold) fun hk => hk⟩
    · exact ⟨_, (h.put hcut hj hold).2, h.more hcut hj hold hmiss ..⟩
  rcases data_quiet type id ht hs with he | he
  · rw [he]
    exact hx'
  · rw [he]
    exact hx'.ack

/-- **Pieces in any order, repeated or not**, as long as one is missing. -/
theorem Gathers.pieces (hcut : Cut fp data total) (ht : 1 < total) (type : ChanType)
    (ks : List Nat) : ∀ {js : List Nat} {x : Rx}, Gathers c id ch fp data seq total x0 i js x →
      (∀ k ∈ ks, k < total) → (∃ k < total, k ∉ js ∧ k ∉ ks) →
      ∃ js', (∀ k, k ∈ js' ↔ k ∈ ks ∨ k ∈ js) ∧
        Gathers c id ch fp data seq total x0 i js' (x.pieces fp type id seq total data ks) := by
  induction ks with
  | nil => exact fun h _ _ => ⟨_, fun k => by simp, h⟩
  | cons j ks ih =>
    intro js x h hlt hmiss
    obtain ⟨k, hk, hk1, hk2⟩ := hmiss
    rw [List.mem_cons, not_or] at hk2
    have hmiss : ∃ k < total, k ∉ j :: js := ⟨k, hk, by simp [hk1, hk2.1]⟩
    have hstep := h.step hcut ht (hlt j (.head _)) hmiss type
    obtain ⟨js', hmem, hg⟩ := ih hstep (fun k hk => hlt k (.tail _ hk))
      ⟨k, hk, by simp [hk1, hk2.1], hk2.2⟩
    refine ⟨js', fun k => ?_, hg⟩
    rw [hmem k, List.mem_cons, List.mem_cons]
    tauto

theorem Gathers.lined (h : Gathers c id ch fp data seq total x0 i js x) (hok : x0.Ok c id ch) :
    x.behind = x0.behind ∧ x.lined (x.rcv.recvSeq + 1) x.behind =
      x0.lined (x0.rcv.recvSeq + 1) x0.behind := by
  have hb : x.behind = x0.behind := by
    unfold Rx.behind
    rw [h.re.reorder, h.re.recvSeq]
  refine ⟨hb, ?_⟩
  rw [hb, h.re.recvSeq]
  refine List.map_congr_left fun j hj => h.re.slotBytes hok.wf ?_
  have hw := waits_of_lt_waiting _ _ _ (List.mem_range.1 hj)
  simp only [waits, Bool.and_eq_true] at hw
  exact hw.1

theorem Gathers.room (h : Gathers c id ch fp data seq total x0 i js x) (hcut : Cut fp data total)
    (hfull : ¬ x0.rcv.recvQueue.Full) (hpool : 2 ≤ x0.pool.poolFree.length) :
    x.Room data.length := by
  refine ⟨by rw [h.re.ring]; exact hfull, hcut.small, ?_⟩
  obtain ⟨b, hb⟩ := h.free
  rw [hb, List.length_cons] at hpool
  exact List.ne_nil_of_length_pos (by omega)

/-- **The last missing piece** enqueues the message, on a reliable channel with what waits behind
it, and frees the slot. -/
theorem Gathers.finish (h : Gathers c id ch fp data seq total x0 i js x) (hok : x0.Ok c id ch)
    (hcut : Cut fp data total) (hfp : 0 < fp) (ht : 1 < total) {j : Nat} (hj : j < total)
    (hnew : j ∉ js) (hall : ∀ k < total, k ∈ j :: js) (hfull : ¬ x0.rcv.recvQueue.Full)
    (hpool : 2 ≤ x0.pool.poolFree.length) {type : ChanType}
    (hseq : type ≠ .unreliable → seq = x0.rcv.recvSeq) :
    ∃ ms, (x.data fp type id seq total j (piece fp data j)).queue = x0.queue ++ data :: ms ∧
      (type = .unreliable → ms = []) ∧
      ms.Sublist (x0.lined (x0.rcv.recvSeq + 1) x0.behind) ∧
      (x.data fp type id seq total j (piece fp data j)).rcv.frags =
        Function.update x0.rcv.frags i {} := by
  obtain ⟨hs, hasm⟩ := h.done hcut hfp hj hnew hall total
  obtain ⟨-, hput⟩ := h.put hcut hj hnew
  generalize fragPut fp x i j (piece fp data j) = x1 at hs hasm hput
  have hroom := hput.room hcut hfull hpool
  have hact := (fragFind_spec hput.find).1
  have hfrags {y : Rx} (hy : y.rcv.frags = x1.rcv.frags) :
      (fragFree y i).rcv.frags = Function.update x0.rcv.frags i {} := by
    funext k
    by_cases hk : k = i
    · subst hk
      simp [fragFree]
    · simp only [fragFree, Function.update_of_ne hk, hy]
      exact hput.others k hk
  have hfree {y : Rx} {l : List (List UInt8)} (hy : Delivers c id ch x1 y l) :
      (fragFree y i).queue = x0.queue ++ l := by
    have hf := fragFree_reassembles (i := i) hy.ok (by rw [hy.frags]; exact hact)
    rw [hf.queue hy.ok.wf, hy.queue, hput.re.queue hok.wf]
  unfold Rx.data
  by_cases htype : type = .unreliable
  · rw [if_pos htype]
    have hx : dataUnreliable fp id x seq j total (piece fp data j) =
        fragFree (x1.deliver id data) i := by
      unfold dataUnreliable
      rw [if_neg (Nat.not_le.2 ht), hs]
      dsimp only
      rw [hasm]
    rw [hx]
    rcases deliver_delivers hput.re.ok data with ⟨-, hd⟩ | ⟨hno, -⟩
    · exact ⟨[], hfree hd, fun _ => rfl, List.nil_sublist _, hfrags hd.frags⟩
    · exact absurd hroom hno
  · rw [if_neg htype]
    have hx : dataReliable fp id x seq j total (piece fp data j) =
        fragFree (dataArrived id x1 seq data) i := by
      unfold dataReliable
      rw [if_neg (Nat.not_le.2 ht), hs]
      dsimp only
      rw [hasm]
    rw [hx]
    have hseq1 : seq = x1.rcv.recvSeq := (hseq htype).trans hput.re.recvSeq.symm
    obtain ⟨⟨l, hd, -, -, hms⟩, -⟩ := dataArrived_passed data hput.re.ok hseq1
    obtain ⟨ms, rfl, hsub⟩ := hms hroom
    rw [(hput.lined hok).2] at hsub
    exact ⟨ms, hfree hd, fun hu => absurd hu htype, hsub, hfrags hd.frags⟩

/-- **The whole message**: until its last missing piece it is not there, and then it is. -/
theorem pieces_whole (hok : x0.Ok c id ch) (hcut : Cut fp data total) (hfp : 0 < fp)
    (ht : 1 < total) (hfew : total ≤ ncMaxFrags) (hnew : fragFind x0.rcv seq = none)
    (hslot : ∃ i, (x0.rcv.frags i).active = false) (hfull : ¬ x0.rcv.recvQueue.Full)
    (hpool : 2 ≤ x0.pool.poolFree.length) (type : ChanType)
    (hseq : type ≠ .unreliable → seq = x0.rcv.recvSeq) {j : Nat} (hlt : ∀ k ∈ js, k < total)
    (hj : j < total) (hjs : j ∉ js) (hall : ∀ k < total, k ∈ js ++ [j]) :
    (x0.pieces fp type id seq total data js).queue = x0.queue ∧
    ∃ i ms, (x0.rcv.frags i).active = false ∧
      (x0.pieces fp type id seq total data (js ++ [j])).queue = x0.queue ++ data :: ms ∧
      (type = .unreliable → ms = []) ∧
      ms.Sublist (x0.lined (x0.rcv.recvSeq + 1) x0.behind) ∧
      (x0.pieces fp type id seq total data (js ++ [j])).rcv.frags =
        Function.update x0.rcv.frags i {} := by
  obtain ⟨i, x1, hs, hg⟩ := gathers_alloc fp data hok hnew hslot
    (List.ne_nil_of_length_pos (by omega)) hfew
  have htaken : x0.pieces fp type id seq total data js =
      x1.pieces fp type id seq total data js := by
    cases js with
    | nil =>
      have h0 := hall 0 (by omega)
      have h1 := hall 1 ht
      simp only [List.nil_append, List.mem_singleton] at h0 h1
      omega
    | cons k ks =>
      simp only [Rx.pieces, List.foldl_cons]
      rw [data_taken ht hs (hg.slot total)]
  obtain ⟨js', hmem, hg'⟩ := hg.pieces hcut ht type js hlt ⟨j, hj, by simp, hjs⟩
  rw [← htaken] at hg'
  have hsame (k : Nat) : k ∈ js' ↔ k ∈ js := by simpa using hmem k
  refine ⟨hg'.re.queue hok.wf, i, ?_⟩
  obtain ⟨ms, hms⟩ := hg'.finish hok hcut hfp ht hj (fun h => hjs ((hsame j).1 h))
    (fun k hk => by have := hall k hk; simp only [List.mem_append, List.mem_cons] at *; grind)
    hfull hpool hseq
  refine ⟨ms, hg.idle, ?_⟩
  simp only [Rx.pieces, List.foldl_append] at hms ⊢
  exact hms

/-- **When a fragment gets no slot.** -/
theorem fragSlot_none : fragSlot x seq total = none ↔ fragFind x.rcv seq = none ∧
    (ncMaxFrags < total ∨ (∀ i, (x.rcv.frags i).active = true) ∨ x.pool.poolFree = []) := by
  unfold fragSlot
  cases hf : fragFind x.rcv seq with
  | some i => simp
  | none =>
    simp only [true_and]
    unfold fragAlloc
    by_cases ht : ncMaxFrags < total
    · simp [ht]
    · rw [if_neg ht]
      cases hi : (List.finRange ncFragSlots).find? fun i => !(x.rcv.frags i).active with
      | none =>
        have hall : ∀ i, (x.rcv.frags i).active = true := fun i => by
          simpa using List.find?_eq_none.1 hi i (List.mem_finRange i)
        simp [hall]
      | some i =>
        have hidle : (x.rcv.frags i).active = false := by simpa using List.find?_some hi
        have hno : ¬ ∀ i, (x.rcv.frags i).active = true := fun h => by simp [h i] at hidle
        cases hp : x.pool.poolFree with
        | nil => simp [poolGet, hp]
        | cons b fs => simp [poolGet, hp, ht, hno]

theorem pieces_dropped (ht : 1 < total) (type : ChanType) (js : List Nat) : ∀ {x : Rx},
    fragSlot x seq total = none →
      (x.pieces fp type id seq total data js).queue = x.queue := by
  induction js with
  | nil => exact fun _ => rfl
  | cons j js ih =>
    intro x hno
    have hs : fragStore fp x seq j total (piece fp data j) = (x, none) := by
      rw [fragStore, hno]
    simp only [Rx.pieces, List.foldl_cons]
    rcases data_quiet type id ht hs with he | he
    · rw [he]
      exact ih hno
    · rw [he]
      have hno' : fragSlot { x with rcv := x.rcv.ack } seq total = none :=
        (fragSlot_none (x := { x with rcv := x.rcv.ack })).2 ((fragSlot_none (x := x)).1 hno)
      exact ih hno'

end

end Netchan
