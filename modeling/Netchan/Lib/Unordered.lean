import Mathlib.Data.List.Basic
import Mathlib.Data.List.Perm.Basic

/-!
# Arrays whose order does not matter

`swapRemove l i` takes entry `i` out by moving the last entry into its place. `prune p l 0` walks an
array once and takes out so what does not satisfy `p`, looking again at each entry that was moved:
what is left is `l.filter p`, in another order (`prune_perm`).
-/

namespace Lib

variable {α : Type}

/-- Entry `i` is replaced by the last one, which is dropped. -/
def swapRemove (l : List α) (i : Nat) : List α :=
  match l.getLast? with
  | none => l
  | some x => (l.set i x).dropLast

theorem swapRemove_concat (l : List α) (x : α) (i : Nat) :
    swapRemove (l ++ [x]) i = if i < l.length then l.set i x else l := by
  simp only [swapRemove, List.getLast?_concat]
  by_cases hi : i < l.length
  · rw [if_pos hi, List.set_append_left _ _ hi, List.dropLast_concat]
  · rw [if_neg hi, List.set_append_right _ _ (Nat.le_of_not_lt hi)]
    cases h : i - l.length <;> simp

@[simp] theorem length_swapRemove (l : List α) (i : Nat) :
    (swapRemove l i).length = l.length - 1 := by
  rcases List.eq_nil_or_concat l with h | ⟨l, x, h⟩
  · subst h; rfl
  · rw [h, List.concat_eq_append, swapRemove_concat]
    split_ifs <;> simp

theorem perm_swapRemove {l : List α} {i : Nat} (hi : i < l.length) :
    (l[i] :: swapRemove l i).Perm l := by
  rcases List.eq_nil_or_concat l with h | ⟨l', x, h⟩
  · subst h; simp at hi
  · rw [List.concat_eq_append] at h
    subst h
    rw [swapRemove_concat]
    split_ifs with hlt
    · rw [List.getElem_append_left hlt]
      have hset := List.set_eq_take_append_cons_drop (l := l') (i := i) (a := x)
      rw [if_pos hlt] at hset
      have hl : l' ++ [x] = l'.take i ++ l'[i] :: (l'.drop (i + 1) ++ [x]) := by
        rw [← List.cons_append, ← List.drop_eq_getElem_cons hlt, ← List.append_assoc,
          List.take_append_drop]
      rw [hset, hl]
      have h1 : (l'[i] :: (l'.take i ++ x :: l'.drop (i + 1))).Perm
          (l'.take i ++ l'[i] :: x :: l'.drop (i + 1)) := List.perm_middle.symm
      exact h1.trans (.append_left _ (.cons _ (List.perm_append_singleton x _).symm))
    · have hi' : i = l'.length := by simp at hi; omega
      subst hi'
      simpa using (List.perm_append_singleton x l').symm

theorem take_swapRemove {l : List α} {i : Nat} (hi : i < l.length) :
    (swapRemove l i).take i = l.take i := by
  rcases List.eq_nil_or_concat l with h | ⟨l', x, h⟩
  · subst h; simp at hi
  · rw [List.concat_eq_append] at h
    subst h
    rw [swapRemove_concat]
    split_ifs with hlt
    · rw [List.take_set_of_le (Nat.le_refl i), List.take_append_of_le_length (Nat.le_of_lt hlt)]
    · rw [List.take_append_of_le_length (by simp at hi; omega)]

/-- Take out what does not satisfy `p`, from entry `i` on. -/
def prune (p : α → Bool) (l : List α) (i : Nat) : List α :=
  if h : i < l.length then
    if p l[i] then prune p l (i + 1) else prune p (swapRemove l i) i
  else l
termination_by l.length - i
decreasing_by
  · omega
  · simp; omega

theorem prune_perm (p : α → Bool) (l : List α) (i : Nat) (h : ∀ x ∈ l.take i, p x = true) :
    (prune p l i).Perm (l.filter p) := by
  induction l, i using prune.induct p with
  | case1 l i hi hp ih =>
    rw [prune, dif_pos hi, if_pos hp]
    refine ih fun x hx => ?_
    rw [List.take_succ_eq_append_getElem hi, List.mem_append, List.mem_singleton] at hx
    rcases hx with hx | hx
    · exact h x hx
    · exact hx ▸ hp
  | case2 l i hi hp ih =>
    rw [prune, dif_pos hi, if_neg hp]
    have hperm := (perm_swapRemove hi).filter p
    rw [List.filter_cons_of_neg hp] at hperm
    exact (ih (by rw [take_swapRemove hi]; exact h)).trans hperm
  | case3 l i hi =>
    rw [prune, dif_neg hi]
    rw [List.take_of_length_le (Nat.le_of_not_lt hi)] at h
    rw [List.filter_eq_self.2 h]

end Lib
