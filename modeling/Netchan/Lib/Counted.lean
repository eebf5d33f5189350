import Netchan.Lib.Ring

/-!
# Ring buffers with a count

`Counted α n` is an array of `n` slots with a read index `head` and the number `count` of queued
elements, both bytes; the write index is `head + count` modulo `n`, and no slot stays free.
`Counted.Ok` says that the two are within the array. `Counted.toList` is the queue, oldest first:
`toList_push` and `toList_pop` say that the two operations are those of a FIFO list.
-/

namespace Lib

structure Counted (α : Type) (n : Nat) where
  slots : Nat → α
  head : UInt8
  count : UInt8

namespace Counted

variable {α : Type} {n : Nat}

/-- `n` blank slots. -/
def blank (x : α) : Counted α n := ⟨fun _ => x, 0, 0⟩

/-- The queued elements, oldest first. -/
def toList (q : Counted α n) : List α :=
  (List.range q.count.toNat).map fun k => q.slots ((q.head.toNat + k) % n)

/-- The slot at `head`. -/
def front (q : Counted α n) : α := q.slots q.head.toNat

/-- Write the slot behind the queued ones. -/
def push (q : Counted α n) (x : α) : Counted α n :=
  { q with slots := Function.update q.slots ((q.head.toNat + q.count.toNat) % n) x
           count := q.count + 1 }

/-- Advance past the slot at `head`. -/
def pop (q : Counted α n) : Counted α n :=
  { q with head := UInt8.ofNat ((q.head.toNat + 1) % n), count := q.count - 1 }

/-- The indices are within the array. -/
structure Ok (q : Counted α n) : Prop where
  head : q.head.toNat < n
  count : q.count.toNat ≤ n

@[simp] theorem length_toList (q : Counted α n) : q.toList.length = q.count.toNat := by
  simp [toList]

@[simp] theorem toList_blank (x : α) : (blank x : Counted α n).toList = [] := rfl

theorem ok_blank (hn : 0 < n) (x : α) : (blank x : Counted α n).Ok := ⟨hn, Nat.zero_le n⟩

theorem toList_eq_nil (q : Counted α n) : q.toList = [] ↔ q.count = 0 := by
  rw [← List.length_eq_zero_iff, length_toList, ← UInt8.toNat_inj]
  rfl

section
variable {q : Counted α n} (hn : n < 256)
include hn

theorem count_push (hc : q.count.toNat < n) (x : α) :
    (q.push x).count.toNat = q.count.toNat + 1 := by
  have h1 : (1 : UInt8).toNat = 1 := rfl
  rw [push, UInt8.toNat_add, h1]
  omega

theorem Ok.push (h : q.Ok) (hc : q.count.toNat < n) (x : α) : (q.push x).Ok :=
  ⟨h.head, by rw [count_push hn hc]; exact hc⟩

/-- **A push appends**: the slot it writes is none of the queued ones. -/
theorem toList_push (h : q.Ok) (hc : q.count.toNat < n) (x : α) :
    (q.push x).toList = q.toList ++ [x] := by
  have hh := h.head
  rw [toList, count_push hn hc, List.range_succ, List.map_append, List.map_singleton]
  congr 1
  · refine List.map_congr_left fun k hk => ?_
    have hk := List.mem_range.1 hk
    refine Function.update_of_ne ?_ _ _
    -- two indices less than a round apart
    intro he
    have h1 : (q.head.toNat + k) % n = (q.head.toNat + q.count.toNat) % n := he
    rw [mod_of_lt_two_mul (by omega), mod_of_lt_two_mul (by omega)] at h1
    split at h1 <;> split at h1 <;> omega
  · exact congrArg (fun y => [y]) (Function.update_self _ _ _)

theorem head_pop (h : q.Ok) : q.pop.head.toNat = (q.head.toNat + 1) % n := by
  have := h.head
  have hlt := Nat.mod_lt (q.head.toNat + 1) (by omega : 0 < n)
  rw [pop, UInt8.toNat_ofNat']
  exact Nat.mod_eq_of_lt (by omega)

omit hn in
theorem count_pop (hc : q.count ≠ 0) : q.pop.count.toNat + 1 = q.count.toNat := by
  have h0 : q.count.toNat ≠ 0 := fun he => hc (UInt8.toNat_inj.1 he)
  have h1 : (1 : UInt8).toNat = 1 := rfl
  have := q.count.toNat_lt
  rw [pop, UInt8.toNat_sub, h1]
  omega

theorem Ok.pop (h : q.Ok) (hc : q.count ≠ 0) : q.pop.Ok := by
  have h1 := h.head
  have h2 := h.count
  have h3 := count_pop hc
  exact ⟨by rw [head_pop hn h]; exact Nat.mod_lt _ (by omega), by omega⟩

/-- **A pop removes the oldest element.** -/
theorem toList_pop (h : q.Ok) (hc : q.count ≠ 0) : q.toList = q.front :: q.pop.toList := by
  rw [toList, ← count_pop hc, List.range_succ_eq_map, List.map_cons, List.map_map]
  congr 1
  · rw [Nat.add_zero, Nat.mod_eq_of_lt h.head, front]
  · refine List.map_congr_left fun k _ => ?_
    have hk : (q.head.toNat + (k + 1)) % n = (q.pop.head.toNat + k) % n := by
      rw [head_pop hn h, Nat.mod_add_mod, Nat.add_assoc, Nat.add_comm 1]
    exact congrArg q.slots hk

end

end Counted

end Lib
