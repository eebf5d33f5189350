import Mathlib.Data.List.Basic

/-!
# Lists in blocks

`blocks n l` are the full blocks of `n` elements of a list, from its start. `Split n l bs r` says
that `l` is the full blocks `bs` and a rest `r` that is shorter than one; `Split.blocks_eq` ties the
two. `Split.short` and `Split.full` say how a list that grows is split.

`Absorbed f n s0 l s r`: a machine that started in `s0` has taken the full blocks of `l` by `f` and
holds the rest; this is the invariant of a digest, or of any other function that works on whole
blocks and is fed in pieces.
-/

namespace Lib

variable {α σ : Type} {n : Nat} {l d r r' : List α} {bs bs' : List (List α)}

/-- The full blocks of `n` elements. -/
def blocks (n : Nat) (l : List α) : List (List α) :=
  (List.range (l.length / n)).map fun i => (l.drop (i * n)).take n

/-- The list is full blocks and a rest. -/
structure Split (n : Nat) (l : List α) (bs : List (List α)) (r : List α) : Prop where
  eq : l = bs.flatten ++ r
  whole : ∀ b ∈ bs, b.length = n
  rest : r.length < n

theorem Split.nil (hn : 0 < n) : Split n ([] : List α) [] [] := ⟨rfl, by simp, hn⟩

theorem Split.short (h : Split n l bs r) (hd : (r ++ d).length < n) :
    Split n (l ++ d) bs (r ++ d) :=
  ⟨by rw [h.eq, List.append_assoc], h.whole, hd⟩

theorem Split.full (h : Split n l bs r) (hn : 0 < n) (hd : (r ++ d).length = n) :
    Split n (l ++ d) (bs ++ [r ++ d]) [] := by
  refine ⟨?_, fun b hb => ?_, hn⟩
  · rw [h.eq, List.flatten_append, List.flatten_singleton, List.append_nil, List.append_assoc]
  · rcases List.mem_append.1 hb with hb | hb
    · exact h.whole b hb
    · rw [List.mem_singleton.1 hb, hd]

theorem length_flatten_whole (h : ∀ b ∈ bs, b.length = n) : bs.flatten.length = bs.length * n := by
  induction bs with
  | nil => simp
  | cons b bs ih =>
    rw [List.flatten_cons, List.length_append, h b (.head _), ih fun b hb => h b (.tail _ hb),
      List.length_cons, Nat.succ_mul, Nat.add_comm]

theorem Split.length_eq (h : Split n l bs r) : l.length = bs.length * n + r.length := by
  rw [h.eq, List.length_append, length_flatten_whole h.whole]

/-- The rest is what the length leaves. -/
theorem Split.length_rest (h : Split n l bs r) : r.length = l.length % n := by
  rw [h.length_eq, Nat.add_comm, Nat.add_mul_mod_self_right, Nat.mod_eq_of_lt h.rest]

theorem blocks_append {b : List α} (hn : 0 < n) (hb : b.length = n) (l : List α) :
    blocks n (b ++ l) = b :: blocks n l := by
  have hdiv : (b ++ l).length / n = l.length / n + 1 := by
    rw [List.length_append, hb, Nat.add_comm, Nat.add_div_right _ hn]
  rw [blocks, hdiv, List.range_succ_eq_map, List.map_cons, List.map_map]
  congr 1
  · rw [Nat.zero_mul, List.drop_zero, ← hb, List.take_left]
  · refine List.map_congr_left fun i _ => ?_
    have hdrop : (i + 1) * n = b.length + i * n := by
      rw [hb, Nat.succ_mul, Nat.add_comm]
    show ((b ++ l).drop ((i + 1) * n)).take n = _
    rw [hdrop, ← List.drop_drop, List.drop_left]

/-- **The full blocks of a list are those it is split into.** -/
theorem Split.blocks_eq (h : Split n l bs r) : blocks n l = bs := by
  have hn : 0 < n := Nat.zero_lt_of_lt h.rest
  induction bs generalizing l with
  | nil =>
    have hl : l.length / n = 0 := by
      rw [h.eq]
      exact Nat.div_eq_of_lt h.rest
    rw [blocks, hl]
    rfl
  | cons b bs ih =>
    have hl : l = b ++ (bs.flatten ++ r) := by
      rw [h.eq, List.flatten_cons, List.append_assoc]
    rw [hl, blocks_append hn (h.whole b (.head _)),
      ih ⟨rfl, fun b hb => h.whole b (.tail _ hb), h.rest⟩]

/-- The rest is what stands after the full blocks. -/
theorem Split.drop_eq (h : Split n l bs r) : l.drop (l.length / n * n) = r := by
  have hn : 0 < n := Nat.zero_lt_of_lt h.rest
  have hdiv : l.length / n * n = bs.flatten.length := by
    rw [h.length_eq, Nat.mul_comm bs.length, Nat.mul_add_div hn, Nat.div_eq_of_lt h.rest,
      length_flatten_whole h.whole, Nat.add_zero]
  rw [hdiv]
  conv_lhs => rw [h.eq]
  exact List.drop_left

/-! ## Machines that take whole blocks -/

/-- The full blocks of `l` are taken, and the rest is held. -/
def Absorbed (f : σ → List α → σ) (n : Nat) (s0 : σ) (l : List α) (s : σ) (r : List α) : Prop :=
  ∃ bs, Split n l bs r ∧ s = bs.foldl f s0

section
variable {f : σ → List α → σ} {s0 s : σ}

theorem Absorbed.nil (hn : 0 < n) : Absorbed f n s0 [] s0 [] := ⟨[], .nil hn, rfl⟩

theorem Absorbed.length_rest (h : Absorbed f n s0 l s r) : r.length = l.length % n := by
  obtain ⟨bs, hs, -⟩ := h
  exact hs.length_rest

theorem Absorbed.short (h : Absorbed f n s0 l s r) (hd : (r ++ d).length < n) :
    Absorbed f n s0 (l ++ d) s (r ++ d) := by
  obtain ⟨bs, hs, he⟩ := h
  exact ⟨bs, hs.short hd, he⟩

/-- A block that is full is taken. -/
theorem Absorbed.full (h : Absorbed f n s0 l s r) (hn : 0 < n) (hd : (r ++ d).length = n) :
    Absorbed f n s0 (l ++ d) (f s (r ++ d)) [] := by
  obtain ⟨bs, hs, he⟩ := h
  refine ⟨bs ++ [r ++ d], hs.full hn hd, ?_⟩
  rw [List.foldl_append, he]
  rfl

theorem Absorbed.block (h : Absorbed f n s0 l s []) (hn : 0 < n) (hd : d.length = n) :
    Absorbed f n s0 (l ++ d) (f s d) [] := by
  simpa using h.full hn (d := d) (by simpa using hd)

/-- **The state is the fold over the full blocks.** -/
theorem Absorbed.eq_foldl (h : Absorbed f n s0 l s r) : s = (blocks n l).foldl f s0 := by
  obtain ⟨bs, hs, he⟩ := h
  rw [hs.blocks_eq, he]

/-- What a machine has taken when it is fed in pieces. -/
theorem fed_pieces {I : σ → List α → Prop} {g : σ → List α → σ}
    (step : ∀ s l d, I s l → I (g s d) (l ++ d)) (h : I s l) (pieces : List (List α)) :
    I (pieces.foldl g s) (l ++ pieces.flatten) := by
  induction pieces generalizing s l with
  | nil => simpa using h
  | cons d pieces ih =>
    rw [List.foldl_cons, List.flatten_cons, ← List.append_assoc]
    exact ih (step s l d h)

end

end Lib
