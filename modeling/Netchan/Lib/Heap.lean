import Mathlib.Data.Finset.Image
import Mathlib.Logic.Equiv.Basic

/-!
# Binary heaps in an array

The entries `a 0`, …, `a (n - 1)` of an array are the nodes of a binary tree, with `parent i` above
`i`. `deeper x y` says that `x` belongs below `y`; `Ordered` says that no parent belongs below its
child. `UpTo` and `DownTo` are the two ways in which one entry may be out of place: the swap with
its parent, or with its higher child, moves the fault one level (`UpTo.swap`, `DownTo.swap`) and
keeps what the array holds (`contents_swap`).
-/

namespace Lib

/-- `deeper` is a strict weak order. -/
structure StrictWeak {α : Type} (deeper : α → α → Bool) : Prop where
  asymm : ∀ {x y}, deeper x y = true → deeper y x = false
  trans : ∀ {x y z}, deeper x y = false → deeper y z = false → deeper x z = false

theorem StrictWeak.of_key {α κ : Type} [LinearOrder κ] (key : α → κ) :
    StrictWeak fun x y => decide (key y < key x) where
  asymm h := by simpa using (of_decide_eq_true h).le
  trans h h' := by
    simpa using (not_lt.1 (of_decide_eq_false h)).trans (not_lt.1 (of_decide_eq_false h'))

namespace Heap

variable {α : Type}

def parent (i : Nat) : Nat := (i - 1) / 2

theorem parent_lt {i : Nat} (h : 0 < i) : parent i < i := by unfold parent; omega

theorem parent_eq_iff {i j : Nat} (h : 0 < j) : parent j = i ↔ j = 2 * i + 1 ∨ j = 2 * i + 2 := by
  unfold parent; omega

/-! ## What the array holds -/

/-- The first `n` entries, in no order. -/
def contents (n : Nat) (a : Nat → α) : Multiset α := (Multiset.range n).map a

@[simp] theorem card_contents (n : Nat) (a : Nat → α) : (contents n a).card = n := by
  simp [contents]

@[simp] theorem contents_zero (a : Nat → α) : contents 0 a = 0 := rfl

theorem contents_succ (n : Nat) (a : Nat → α) : contents (n + 1) a = a n ::ₘ contents n a := by
  simp [contents, Multiset.range_succ]

theorem mem_contents {n : Nat} {a : Nat → α} {x : α} :
    x ∈ contents n a ↔ ∃ i, i < n ∧ a i = x := by
  simp [contents]

theorem contents_congr {n : Nat} {a b : Nat → α} (h : ∀ i < n, a i = b i) :
    contents n a = contents n b :=
  Multiset.map_congr rfl fun i hi => h i (Multiset.mem_range.1 hi)

theorem swap_lt {n i j k : Nat} (hi : i < n) (hj : j < n) (hk : k < n) : Equiv.swap i j k < n := by
  rw [Equiv.swap_apply_def]
  split_ifs <;> assumption

theorem contents_swap {n i j : Nat} (a : Nat → α) (hi : i < n) (hj : j < n) :
    contents n (a ∘ Equiv.swap i j) = contents n a := by
  have hperm : (Multiset.range n).map (Equiv.swap i j) = Multiset.range n := by
    have hnodup := (Multiset.nodup_range n).map (Equiv.swap i j).injective
    refine (Multiset.Nodup.ext hnodup (Multiset.nodup_range n)).2 fun k => ?_
    simp only [Multiset.mem_map, Multiset.mem_range]
    constructor
    · intro ⟨m, hm, hk⟩
      exact hk ▸ swap_lt hi hj hm
    · intro hk
      exact ⟨Equiv.swap i j k, swap_lt hi hj hk, Equiv.swap_apply_self i j k⟩
  rw [contents, ← Multiset.map_map, hperm, contents]

/-- Writing one entry takes the old one out and puts the new one in. -/
theorem contents_update {n i : Nat} (a : Nat → α) (hi : i < n) (x : α) :
    a i ::ₘ contents n (Function.update a i x) = x ::ₘ contents n a := by
  induction n with
  | zero => omega
  | succ n ih =>
    rw [contents_succ, contents_succ]
    rcases Nat.lt_succ_iff_lt_or_eq.1 hi with h | h
    · rw [Function.update_of_ne (by omega), Multiset.cons_swap, ih h, Multiset.cons_swap]
    · subst h
      rw [Function.update_self, contents_congr fun j hj => Function.update_of_ne (by omega) x a,
        Multiset.cons_swap]

/-- A hole that moves from `i` to `j` swaps the two entries. -/
theorem fill_move {i j : Nat} (a : Nat → α) (x : α) (h : i ≠ j) :
    Function.update (Function.update a i (a j)) j x = Function.update a i x ∘ Equiv.swap i j := by
  funext k
  by_cases hi : k = i
  · subst hi; simp [Function.update_of_ne h, Function.update_of_ne h.symm]
  · by_cases hj : k = j
    · subst hj; simp
    · simp [Equiv.swap_apply_of_ne_of_ne hi hj, Function.update_of_ne hi, Function.update_of_ne hj]

/-! ## The order -/

variable (deeper : α → α → Bool)

/-- No parent belongs below its child. -/
def Ordered (n : Nat) (a : Nat → α) : Prop :=
  ∀ i, 0 < i → i < n → deeper (a (parent i)) (a i) = false

/-- The parent of `i` belongs above the children of `i`. -/
def Skip (n i : Nat) (a : Nat → α) : Prop :=
  0 < i → ∀ j, 0 < j → j < n → parent j = i → deeper (a (parent i)) (a j) = false

/-- Entry `i` may belong above its parent; all else is in order. -/
structure UpTo (n i : Nat) (a : Nat → α) : Prop where
  edges : ∀ j, 0 < j → j < n → j ≠ i → deeper (a (parent j)) (a j) = false
  skip : Skip deeper n i a

/-- Entry `i` may belong below its children; all else is in order. -/
structure DownTo (n i : Nat) (a : Nat → α) : Prop where
  edges : ∀ j, 0 < j → j < n → parent j ≠ i → deeper (a (parent j)) (a j) = false
  skip : Skip deeper n i a

variable {deeper} {n i : Nat} {a : Nat → α}

/-- The root of a heap belongs above every entry. -/
theorem Ordered.root (hw : StrictWeak deeper) (h : Ordered deeper n a) (hi : i < n) :
    deeper (a 0) (a i) = false := by
  induction i using Nat.strong_induction_on with
  | _ i ih =>
    rcases Nat.eq_zero_or_pos i with h0 | h0
    · subst h0
      cases hd : deeper (a 0) (a 0) with
      | false => rfl
      | true => rw [← hd, hw.asymm hd]
    · have hp := parent_lt h0
      exact hw.trans (ih _ hp (by omega)) (h i h0 hi)

theorem Ordered.mono {m : Nat} (h : Ordered deeper n a) (hm : m ≤ n) : Ordered deeper m a :=
  fun i h0 hi => h i h0 (by omega)

theorem Ordered.congr {b : Nat → α} (h : Ordered deeper n a) (hb : ∀ i < n, b i = a i) :
    Ordered deeper n b := by
  intro i h0 hi
  rw [hb i hi, hb _ ((parent_lt h0).trans hi)]
  exact h i h0 hi

/-- A fault at `i` is none if `i` belongs below its parent. -/
theorem UpTo.ordered (h : UpTo deeper n i a)
    (hi : 0 < i → deeper (a (parent i)) (a i) = false) : Ordered deeper n a := by
  intro j h0 hj
  by_cases hji : j = i
  · subst hji; exact hi h0
  · exact h.edges j h0 hj hji

/-- A fault at `i` is none if `i` belongs above its children. -/
theorem DownTo.ordered (h : DownTo deeper n i a)
    (hi : ∀ j, 0 < j → j < n → parent j = i → deeper (a i) (a j) = false) :
    Ordered deeper n a := by
  intro j h0 hj
  by_cases hji : parent j = i
  · rw [hji]; exact hi j h0 hj hji
  · exact h.edges j h0 hj hji

theorem UpTo.swap (hw : StrictWeak deeper) (h : UpTo deeper n i a) (h0 : 0 < i) (hi : i < n)
    (hd : deeper (a (parent i)) (a i) = true) :
    UpTo deeper n (parent i) (a ∘ Equiv.swap i (parent i)) := by
  have hp := parent_lt h0
  have at_i : (a ∘ Equiv.swap i (parent i)) i = a (parent i) := by simp
  have at_p : (a ∘ Equiv.swap i (parent i)) (parent i) = a i := by simp
  have other : ∀ k, k ≠ i → k ≠ parent i → (a ∘ Equiv.swap i (parent i)) k = a k := by
    intro k hki hkp; simp [Equiv.swap_apply_of_ne_of_ne hki hkp]
  constructor
  · intro j hj0 hj hjp
    have hjp' := parent_lt hj0
    by_cases hji : j = i
    · subst hji; rw [at_p, at_i]; exact hw.asymm hd
    · rw [other j hji hjp]
      by_cases hpi : parent j = i
      · rw [hpi, at_i]; exact h.skip h0 j hj0 hj hpi
      · by_cases hpp : parent j = parent i
        · rw [hpp, at_p]
          have hedge := h.edges j hj0 hj hji
          rw [hpp] at hedge
          exact hw.trans (hw.asymm hd) hedge
        · rw [other _ hpi hpp]; exact h.edges j hj0 hj hji
  · intro hp0 j hj0 hj hpj
    have hpp := parent_lt hp0
    have hgrand := h.edges _ hp0 (by omega) hp.ne
    rw [other (parent (parent i)) (by omega) (by omega)]
    by_cases hji : j = i
    · subst hji; rw [at_i]; exact hgrand
    · have hjp := parent_lt hj0
      rw [other j hji (by omega)]
      have hedge := h.edges j hj0 hj hji
      rw [hpj] at hedge
      exact hw.trans hgrand hedge

theorem DownTo.swap (hw : StrictWeak deeper) (h : DownTo deeper n i a) {c : Nat} (h0 : 0 < c)
    (hc : c < n) (hp : parent c = i) (hd : deeper (a i) (a c) = true)
    (hmin : ∀ j, 0 < j → j < n → parent j = i → deeper (a c) (a j) = false) :
    DownTo deeper n c (a ∘ Equiv.swap i c) := by
  have hic : i < c := hp ▸ parent_lt h0
  have at_i : (a ∘ Equiv.swap i c) i = a c := by simp
  have at_c : (a ∘ Equiv.swap i c) c = a i := by simp
  have other : ∀ k, k ≠ i → k ≠ c → (a ∘ Equiv.swap i c) k = a k := by
    intro k hki hkc; simp [Equiv.swap_apply_of_ne_of_ne hki hkc]
  constructor
  · intro j hj0 hj hpc
    have hjp := parent_lt hj0
    by_cases hjc : j = c
    · subst hjc; rw [hp, at_i, at_c]; exact hw.asymm hd
    · by_cases hji : j = i
      · subst hji
        rw [at_i, other _ (by omega) hpc]
        exact h.skip hj0 c h0 hc hp
      · rw [other j hji hjc]
        by_cases hpi : parent j = i
        · rw [hpi, at_i]; exact hmin j hj0 hj hpi
        · rw [other _ hpi hpc]; exact h.edges j hj0 hj hpi
  · intro _ j hj0 hj hpj
    have hjp := parent_lt hj0
    rw [hp, at_i, other j (by omega) (by omega)]
    have hedge := h.edges j hj0 hj (by omega)
    rwa [hpj] at hedge

end Heap

end Lib
