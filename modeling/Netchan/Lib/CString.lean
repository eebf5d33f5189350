import Netchan.Lib.Bytes
import Mathlib.Data.List.TakeWhile

/-!
# C strings

* `CStr`: a string without NUL. `CStr.ofBytes` is what C reads of an array that a NUL ends.
* `cstrs` reads a run of NUL-terminated strings, one after another; `flatMap_cstrs`: they fill every
  region that ends with a NUL.
* `wrLe16`/`rdLe16`: a little-endian length; `rdLe16_append` is the round trip.
-/

namespace Lib

/-- A C string, without its terminator. -/
abbrev CStr := { s : List UInt8 // 0 ∉ s }

theorem zero_notMem_nil : (0 : UInt8) ∉ ([] : List UInt8) := List.not_mem_nil

/-- The string that starts an array. -/
def CStr.ofBytes (l : List UInt8) : CStr :=
  ⟨l.takeWhile (· ≠ 0), fun h => by simpa using List.mem_takeWhile_imp h⟩

theorem ofBytes_val (s : CStr) : CStr.ofBytes s.val = s := by
  apply Subtype.ext
  apply List.takeWhile_eq_self_iff.2
  intro b hb
  refine decide_eq_true ?_
  rintro rfl
  exact s.property hb

theorem ofBytes_of_notMem {l : List UInt8} (h : 0 ∉ l) : (CStr.ofBytes l).val = l :=
  congrArg Subtype.val (ofBytes_val ⟨l, h⟩)

theorem ofBytes_append_of_mem {l : List UInt8} (h : 0 ∈ l) (t : List UInt8) :
    CStr.ofBytes (l ++ t) = CStr.ofBytes l := by
  apply Subtype.ext
  have hne : (l.takeWhile fun b => decide (b ≠ 0)).length ≠ l.length := by
    intro hlen
    have hall := List.takeWhile_eq_self_iff.1
      ((List.takeWhile_prefix fun b => decide (b ≠ 0)).eq_of_length hlen) 0 h
    simp at hall
  exact (List.takeWhile_append ..).trans (if_neg hne)

/-- A string in front of another byte. -/
def CStr.cons (b : UInt8) (hb : b ≠ 0) (s : CStr) : CStr :=
  ⟨b :: s.val, fun h => (List.mem_cons.1 h).elim (fun h => hb h.symm) s.property⟩

/-- The NUL-terminated strings that fill a region. -/
def cstrs : List UInt8 → List CStr
  | [] => []
  | b :: rest =>
    if hb : b = 0 then ⟨[], zero_notMem_nil⟩ :: cstrs rest
    else
      match cstrs rest with
      | [] => [CStr.cons b hb ⟨[], zero_notMem_nil⟩]
      | s :: ss => CStr.cons b hb s :: ss

@[simp] theorem cstrs_nil : cstrs [] = [] := rfl

theorem cstrs_append (s : CStr) (rest : List UInt8) : cstrs (s.val ++ 0 :: rest) = s :: cstrs rest := by
  obtain ⟨l, hl⟩ := s
  induction l with
  | nil => rfl
  | cons b l ih =>
    have hb : b ≠ 0 := fun h => hl (h ▸ .head _)
    have ih := ih fun h => hl (.tail _ h)
    simp only [List.cons_append, cstrs, dif_neg hb]
    rw [show cstrs (l ++ 0 :: rest) = _ from ih]
    rfl

theorem cstrs_flatMap (ss : List CStr) : cstrs (ss.flatMap fun s => s.val ++ [0]) = ss := by
  induction ss with
  | nil => rfl
  | cons s ss ih => rw [List.flatMap_cons, List.append_assoc, List.singleton_append, cstrs_append, ih]

/-- A region that is empty or ends with a NUL. -/
def Terminated (l : List UInt8) : Prop := l = [] ∨ ∃ t, l = t ++ [0]

theorem Terminated.append {l l' : List UInt8} (h : Terminated l) (h' : Terminated l') :
    Terminated (l ++ l') := by
  rcases h' with rfl | ⟨t, rfl⟩
  · rwa [List.append_nil]
  · exact .inr ⟨l ++ t, (List.append_assoc ..).symm⟩

/-- Strings fill such a region, whatever NULs it has inside. -/
theorem flatMap_cstrs : ∀ {l : List UInt8}, Terminated l →
    (cstrs l).flatMap (fun s => s.val ++ [0]) = l
  | [], _ => rfl
  | b :: rest, h => by
    have hrest : Terminated rest ∧ (rest = [] → b = 0) := by
      rcases h with h | ⟨t, ht⟩
      · cases h
      · cases t with
        | nil =>
          cases ht
          exact ⟨.inl rfl, fun _ => rfl⟩
        | cons c t =>
          cases ht
          exact ⟨.inr ⟨t, rfl⟩, fun h => absurd h (List.append_ne_nil_of_right_ne_nil _ nofun)⟩
    have ih := flatMap_cstrs hrest.1
    unfold cstrs
    split
    · rename_i hb
      rw [List.flatMap_cons, ih, hb]
      rfl
    · rename_i hb
      cases hs : cstrs rest with
      | nil =>
        rw [hs, List.flatMap_nil] at ih
        exact absurd (hrest.2 ih.symm) hb
      | cons s ss =>
        rw [hs, List.flatMap_cons] at ih
        dsimp only
        rw [List.flatMap_cons, ← ih]
        rfl

/-- The string that starts a terminated array, and what follows it. -/
theorem ofBytes_append (l rest : List UInt8) :
    ∃ rest', l ++ 0 :: rest = (CStr.ofBytes l).val ++ 0 :: rest' := by
  induction l with
  | nil => exact ⟨rest, rfl⟩
  | cons b l ih =>
    obtain ⟨rest', h⟩ := ih
    by_cases hb : b = 0
    · refine ⟨l ++ 0 :: rest, ?_⟩
      rw [hb]
      rfl
    · refine ⟨rest', ?_⟩
      have hcons : (CStr.ofBytes (b :: l)).val = b :: (CStr.ofBytes l).val := by
        simp [CStr.ofBytes, hb]
      rw [hcons, List.cons_append, h, List.cons_append]

/-! ## Little-endian lengths -/

def wrLe16 (n : Nat) : List UInt8 := [UInt8.ofNat n, UInt8.ofNat (n / 256)]

/-- The length in two bytes. -/
def rdLe16 (lo hi : UInt8) : Nat := lo.toNat + 256 * hi.toNat

theorem rdLe16_wrLe16 {n : Nat} (h : n < 65536) :
    rdLe16 (UInt8.ofNat n) (UInt8.ofNat (n / 256)) = n := by
  simp only [rdLe16, UInt8.toNat_ofNat']
  omega

end Lib
