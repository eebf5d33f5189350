import Mathlib.Data.ZMod.Defs
import Mathlib.Logic.Function.Basic

/-!
# Ring buffers

`Ring α n` is an array of `n` slots with a read index `head` and a write index `tail`, both taken
modulo `n`; one slot always stays free, so `head = tail` is empty and `tail + 1 = head` is full.
`Ring.toList` is the queue it holds, oldest first: `toList_push` and `toList_pop` say that the two
operations are those of a FIFO list, `full_iff` when a push is possible.
-/

namespace Lib

/-! ## Indices modulo `n` -/

section
variable {n : Nat}

theorem mod_of_lt_two_mul {x : Nat} (h : x < n + n) : x % n = if x < n then x else x - n := by
  split
  · exact Nat.mod_eq_of_lt ‹_›
  · rw [Nat.mod_eq_sub_mod (by omega), Nat.mod_eq_of_lt (by omega)]

theorem fin_add_val (a b : Fin n) :
    (a + b).val = if a.val + b.val < n then a.val + b.val else a.val + b.val - n := by
  rw [Fin.val_add, mod_of_lt_two_mul (by omega)]

theorem fin_sub_val (a b : Fin n) :
    (a - b).val = if b.val ≤ a.val then a.val - b.val else n + a.val - b.val := by
  rw [Fin.sub_def]
  show (n - b.val + a.val) % n = _
  rw [mod_of_lt_two_mul (by omega)]
  split <;> split <;> omega

variable [NeZero n]

theorem fin_ofNat_val {k : Nat} (h : k < n) : (Fin.ofNat n k).val = k := by
  simp [Fin.ofNat, Nat.mod_eq_of_lt h]

theorem fin_one_val (h : 2 ≤ n) : (1 : Fin n).val = 1 := by
  rw [Fin.val_one', Nat.mod_eq_of_lt (by omega)]

theorem fin_ofNat_succ (k : Nat) : Fin.ofNat n (k + 1) = Fin.ofNat n k + 1 := by
  apply Fin.ext
  simp [Fin.ofNat, Fin.val_add]

end

/-! ## The indices in use -/

section
variable {n : Nat} {h t k : Fin n}

/-- `k` is one of the indices from `h` on up to `t`. -/
def Between (h t k : Fin n) : Prop := (k - h).val < (t - h).val

theorem not_between_end : ¬ Between h t t := Nat.lt_irrefl _

theorem between_push [NeZero n] (hn : 2 ≤ n) (hf : t + 1 ≠ h) :
    Between h (t + 1) k ↔ Between h t k ∨ k = t := by
  have h1 := h.isLt
  have h2 := t.isLt
  have h3 := k.isLt
  have hf : (t + 1).val ≠ h.val := fun he => hf (Fin.ext he)
  rw [fin_add_val, fin_one_val hn] at hf
  simp only [Between, fin_sub_val, fin_add_val, fin_one_val hn, Fin.ext_iff]
  repeat' split
  all_goals first | omega | (split at hf <;> omega)

theorem between_advance [NeZero n] (hn : 2 ≤ n) (hne : h ≠ t) :
    Between h t k ↔ k = h ∨ Between (h + 1) t k := by
  have h1 := h.isLt
  have h2 := t.isLt
  have h3 := k.isLt
  have hne : h.val ≠ t.val := fun he => hne (Fin.ext he)
  simp only [Between, fin_sub_val, fin_add_val, fin_one_val hn, Fin.ext_iff]
  repeat' split
  all_goals omega

end

/-! ## The ring -/

structure Ring (α : Type) (n : Nat) where
  slots : Fin n → α
  head : Fin n
  tail : Fin n

namespace Ring

variable {α : Type} {n : Nat} [NeZero n]

/-- `n` blank slots. -/
def blank (x : α) : Ring α n := ⟨fun _ => x, 0, 0⟩

/-- The number of queued elements. -/
def size (r : Ring α n) : Nat := (r.tail - r.head).val

/-- The queued elements, oldest first. -/
def toList (r : Ring α n) : List α :=
  (List.range r.size).map fun k => r.slots (r.head + Fin.ofNat n k)

/-- No slot can be written without making the ring look empty. -/
def Full (r : Ring α n) : Prop := r.tail + 1 = r.head

instance (r : Ring α n) : Decidable r.Full := inferInstanceAs (Decidable (_ = _))

/-- Nothing is queued. -/
def Empty (r : Ring α n) : Prop := r.head = r.tail

instance (r : Ring α n) : Decidable r.Empty := inferInstanceAs (Decidable (_ = _))

/-- Write the slot at `tail`. -/
def push (r : Ring α n) (x : α) : Ring α n :=
  { r with slots := Function.update r.slots r.tail x, tail := r.tail + 1 }

/-- Write the slot at `tail` unless the ring is full. -/
def offer (r : Ring α n) (x : α) : Ring α n := if r.Full then r else r.push x

/-- The slot at `head`. -/
def front (r : Ring α n) : α := r.slots r.head

/-- Leave `x` in the slot at `head` and advance past it. -/
def pop (r : Ring α n) (x : α) : Ring α n :=
  { r with slots := Function.update r.slots r.head x, head := r.head + 1 }

@[simp] theorem length_toList (r : Ring α n) : r.toList.length = r.size := by simp [toList]

omit [NeZero n] in
theorem size_lt (r : Ring α n) : r.size < n := (r.tail - r.head).isLt

@[simp] theorem toList_blank (x : α) : (blank x : Ring α n).toList = [] := by
  simp [toList, size, blank]

theorem toList_eq_nil (r : Ring α n) : r.toList = [] ↔ r.Empty := by
  rw [← List.length_eq_zero_iff, length_toList, size, fin_sub_val, Empty, Fin.ext_iff]
  have := r.head.isLt
  split <;> omega

/-- A queued element is in a slot of the window. -/
theorem mem_toList_between {r : Ring α n} {e : α} (h : e ∈ r.toList) :
    ∃ k, Between r.head r.tail k ∧ r.slots k = e := by
  obtain ⟨j, hj, rfl⟩ := List.mem_map.1 h
  have hlt : j < r.size := List.mem_range.1 hj
  refine ⟨_, ?_, rfl⟩
  have hn : j < n := Nat.lt_trans hlt (r.tail - r.head).isLt
  have hval : (r.head + Fin.ofNat n j - r.head).val = j := by
    have h1 := r.head.isLt
    rw [fin_sub_val, fin_add_val, fin_ofNat_val hn]
    split <;> split <;> omega
  rw [Between, hval]
  exact hlt

theorem full_iff (hn : 2 ≤ n) (r : Ring α n) : r.Full ↔ r.size + 1 = n := by
  have h1 := r.head.isLt
  have h2 := r.tail.isLt
  rw [Full, Fin.ext_iff, fin_add_val, fin_one_val hn, size, fin_sub_val]
  split <;> split <;> omega

theorem size_push (hn : 2 ≤ n) {r : Ring α n} (h : ¬ r.Full) (x : α) :
    (r.push x).size = r.size + 1 := by
  rw [full_iff hn] at h
  have h1 := r.head.isLt
  have h2 := r.tail.isLt
  simp only [size, push, fin_sub_val, fin_add_val, fin_one_val hn] at h ⊢
  split <;> split <;> split <;> split at h <;> omega

/-- **A push appends**: the slot at `tail` is none of the queued ones. -/
theorem toList_push (hn : 2 ≤ n) {r : Ring α n} (h : ¬ r.Full) (x : α) :
    (r.push x).toList = r.toList ++ [x] := by
  have hs := size_push hn h x
  have hlt : r.size + 1 < n := by
    rw [full_iff hn] at h
    have := r.size_lt
    omega
  have h1 := r.head.isLt
  have h2 := r.tail.isLt
  rw [toList, hs, List.range_succ, List.map_append, List.map_singleton]
  congr 1
  · refine List.map_congr_left fun k hk => ?_
    have hk := List.mem_range.1 hk
    have hne : r.head + Fin.ofNat n k ≠ r.tail := by
      rw [size, fin_sub_val] at hk
      rw [ne_eq, Fin.ext_iff, fin_add_val, fin_ofNat_val (by split at hk <;> omega)]
      split at hk <;> split <;> omega
    exact Function.update_of_ne hne _ _
  · have he : r.head + Fin.ofNat n r.size = r.tail := by
      rw [Fin.ext_iff, fin_add_val, fin_ofNat_val r.size_lt, size, fin_sub_val]
      split <;> split <;> omega
    simp only [push, he, Function.update_self]

theorem toList_offer (hn : 2 ≤ n) (r : Ring α n) (x : α) :
    (r.offer x).toList = if r.Full then r.toList else r.toList ++ [x] := by
  unfold offer
  split
  · rfl
  · exact toList_push hn ‹_› x

/-- **A pop removes the oldest element.** -/
theorem toList_pop (hn : 2 ≤ n) {r : Ring α n} (h : ¬ r.Empty) (x : α) :
    r.toList = r.front :: (r.pop x).toList := by
  have h1 := r.head.isLt
  have h2 := r.tail.isLt
  have hne : r.head.val ≠ r.tail.val := fun he => h (Fin.ext he)
  have hs : r.size = (r.pop x).size + 1 := by
    simp only [size, pop, fin_sub_val, fin_add_val, fin_one_val hn]
    split <;> split <;> split <;> omega
  have hsl := r.size_lt
  rw [toList, hs, List.range_succ_eq_map, List.map_cons, List.map_map]
  congr 1
  · simp [front]
  · refine List.map_congr_left fun k hk => ?_
    have hk := List.mem_range.1 hk
    have he : r.head + Fin.ofNat n (k + 1) = (r.pop x).head + Fin.ofNat n k := by
      rw [fin_ofNat_succ, pop, add_assoc, add_comm 1]
    have hh : r.head + Fin.ofNat n (k + 1) ≠ r.head := by
      rw [ne_eq, Fin.ext_iff, fin_add_val, fin_ofNat_val (by omega)]
      split <;> omega
    show r.slots (r.head + Fin.ofNat n (k + 1)) = (r.pop x).slots _
    rw [← he]
    exact (Function.update_of_ne hh _ _).symm

end Ring

end Lib
