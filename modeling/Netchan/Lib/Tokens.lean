import Mathlib.Algebra.BigOperators.Fin
import Mathlib.Data.Fintype.Basic
import Mathlib.Data.List.FinRange
import Mathlib.Data.Multiset.UnionInter

/-!
# Tokens in slots

A family of slots, each with a token or without one. `tokens f` is the multiset of the tokens in
the slots `f`. Tokens that move between slots and a free list keep the sum, so that every token is
in one place: `tokens_set` and `tokens_clear` say what filling and emptying a slot does to it, and
`tokens_inj` that a token of which there is one is in one slot.
-/

namespace Lib

section
variable {ι β : Type} [Fintype ι]

/-- The token of one slot. -/
def token (o : Option β) : Multiset β := o.elim 0 fun b => {b}

@[simp] theorem token_none : token (none : Option β) = 0 := rfl

@[simp] theorem token_some (b : β) : token (some b) = {b} := rfl

/-- The tokens in the slots `f`. -/
def tokens (f : ι → Option β) : Multiset β := ∑ i, token (f i)

theorem tokens_none {f : ι → Option β} (h : ∀ i, f i = none) : tokens f = 0 :=
  Finset.sum_eq_zero fun i _ => by rw [h i, token_none]

variable [DecidableEq ι]

theorem sum_slot {M : Type} [AddCommMonoid M] (f : ι → M) (i : ι) (g : ι → M)
    (h : ∀ j, j ≠ i → g j = f j) : f i + ∑ j, g j = g i + ∑ j, f j := by
  rw [← Finset.add_sum_erase _ g (Finset.mem_univ i), ← Finset.add_sum_erase _ f (Finset.mem_univ i),
    Finset.sum_congr rfl fun j hj => h j (Finset.ne_of_mem_erase hj)]
  exact add_left_comm ..

theorem tokens_slot {f g : ι → Option β} (i : ι) (h : ∀ j, j ≠ i → g j = f j) :
    token (f i) + tokens g = token (g i) + tokens f :=
  sum_slot (fun j => token (f j)) i (fun j => token (g j)) fun j hj => congrArg token (h j hj)

/-- An empty slot is filled. -/
theorem tokens_set {f g : ι → Option β} {i : ι} {b : β} (hf : f i = none) (hg : g i = some b)
    (h : ∀ j, j ≠ i → g j = f j) : tokens g = {b} + tokens f := by
  have := tokens_slot i h
  rwa [hf, hg, token_none, zero_add, token_some] at this

/-- A slot is emptied. -/
theorem tokens_clear {f g : ι → Option β} {i : ι} (hg : g i = none)
    (h : ∀ j, j ≠ i → g j = f j) : token (f i) + tokens g = tokens f := by
  have := tokens_slot i h
  rwa [hg, token_none, zero_add] at this

theorem mem_tokens {f : ι → Option β} {i : ι} {b : β} (h : f i = some b) : b ∈ tokens f := by
  have hle : token (f i) ≤ tokens f := by
    unfold tokens
    rw [← Finset.add_sum_erase _ _ (Finset.mem_univ i)]
    exact Multiset.le_add_right _ _
  exact Multiset.mem_of_le hle (by simp [h])

/-- Where no token is twice, a token is in one slot. -/
theorem tokens_inj {f : ι → Option β} (h : (tokens f).Nodup) {i j : ι} {b : β} (hi : f i = some b)
    (hj : f j = some b) : i = j := by
  by_contra hne
  let g := fun k => if k = i then none else f k
  have hg : token (f i) + tokens g = tokens f :=
    tokens_clear (g := g) (if_pos rfl) fun k hk => if_neg hk
  rw [← hg, hi, token_some] at h
  have hmem : b ∈ tokens g := mem_tokens (i := j) (by simp [g, Ne.symm hne, hj])
  exact Multiset.disjoint_left.1 (Multiset.nodup_add.1 h).2.2 (Multiset.mem_singleton_self b) hmem

end

/-- The tokens of numbered slots, listed by the slots in use. -/
theorem map_some_tokens {β : Type} {n : Nat} {f : Fin n → Option β} {inUse : Fin n → Bool}
    (h : ∀ i, (f i).isSome = inUse i) :
    (tokens f).map some = (((List.finRange n).filter inUse).map f : List (Option β)) := by
  have hsum : tokens f = ((List.finRange n).map fun i => token (f i)).sum := by
    exact Fin.sum_univ_def _
  rw [hsum]
  generalize List.finRange n = l
  induction l with
  | nil => rfl
  | cons i l ih =>
    rw [List.map_cons, List.sum_cons, Multiset.map_add, ih]
    cases hi : f i with
    | none =>
      have : inUse i = false := by rw [← h i, hi]; rfl
      simp [this]
    | some b =>
      have : inUse i = true := by rw [← h i, hi]; rfl
      rw [List.filter_cons_of_pos (by simp [this]), List.map_cons, hi]
      rfl

end Lib
