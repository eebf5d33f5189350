import Netchan.Transport.Ws

/-!
# The frame parser and the end of its buffer

* `Within`: what a call of `nc_ws_frame_parse` may do to a buffer of `len` bytes.
* `declaredSize`: the size that a header declares, before any machine word holds it.
* `parse_within_iff`: the parser keeps to its buffer exactly where that size is below `2 ^ 63`, or its
  low 64 bits are more than has arrived.
-/

namespace Netchan.Transport

open Lib

section
variable {buf rx : Mem} {len n plen hdr : Nat} {f : NcWsFrame} {used : Int}

/-- Nothing is touched, or the call takes `n` bytes of the buffer: the payload is the end of them,
and no byte outside the payload is altered. -/
def Within (buf : Mem) (len : Nat) : Prop :=
  ncWsFrameParse buf len = none ∨ ∃ (rx : Mem) (f : NcWsFrame) (n : Nat),
    ncWsFrameParse buf len = some (rx, f, (n : Int)) ∧ 2 ≤ n ∧ n ≤ len ∧
    f.payload + f.payloadLen = n ∧ ∀ x, x < f.payload ∨ n ≤ x → rx x = buf x

/-- The bytes before the payload, with the masking key if there is one. -/
def payloadStart (buf : Mem) (hdr : Nat) : Nat := if buf 1 &&& 0x80 != 0 then hdr + 4 else hdr

/-- The size that the header declares, if the length field has arrived. -/
def declaredSize (buf : Mem) (len : Nat) : Option Nat :=
  if len < 2 then none
  else (extendedLen buf len (buf 1 &&& 0x7f).toNat).map fun e => payloadStart buf e.2 + e.1

theorem extendedLen_hdr (h : extendedLen buf len n = some (plen, hdr)) :
    2 ≤ hdr ∧ hdr ≤ 10 := by
  unfold extendedLen at h
  split at h
  · split at h
    · cases h
    · cases h
      decide
  · split at h
    · split at h
      · cases h
      · cases h
        decide
    · cases h
      decide

/-- The buffer that the parser leaves behind when the frame has arrived. -/
def afterParse (buf : Mem) (hdr plen : Nat) : Mem :=
  if buf 1 &&& 0x80 != 0 then unmask buf (hdr + 4) hdr plen else buf

/-- **The parser by the size that the header declares.** -/
theorem parse_declared (h2 : 2 ≤ len)
    (h : extendedLen buf len (buf 1 &&& 0x7f).toNat = some (plen, hdr)) :
    ncWsFrameParse buf len =
      if len < (payloadStart buf hdr + plen) % 2 ^ 64 then none
      else some (afterParse buf hdr plen,
        ⟨afterParse buf hdr plen 0 &&& 0x0f, afterParse buf hdr plen 0 &&& 0x80 != 0,
          payloadStart buf hdr, plen⟩,
        toLong ((payloadStart buf hdr + plen) % 2 ^ 64)) := by
  unfold ncWsFrameParse afterParse payloadStart
  rw [if_neg (Nat.not_lt.2 h2), h]
  dsimp only
  by_cases hm : (buf 1 &&& 0x80 != 0) = true
  · simp only [hm, if_true, Nat.add_sub_cancel]
  · simp only [hm, if_false, Bool.false_eq_true]

theorem afterParse_outside {x : Nat}
    (hx : x < payloadStart buf hdr ∨ payloadStart buf hdr + plen ≤ x) :
    afterParse buf hdr plen x = buf x := by
  unfold afterParse
  unfold payloadStart at hx
  split
  · rename_i hm
    rw [if_pos hm] at hx
    rw [unmask_eq (Nat.le_refl _), if_neg (by omega)]
  · rfl

/-- The conversion to `long` gives the number back if it is below `2 ^ 63`. -/
theorem toLong_eq_natCast {s : Nat} (hs : s < 2 ^ 64) : toLong s = (n : Int) ↔ s < 2 ^ 63 ∧ s = n := by
  unfold toLong
  split <;> omega

/-- **The parser keeps to its buffer** exactly where the declared size is below `2 ^ 63`, or is more
than has arrived even by its low 64 bits. -/
theorem parse_within_iff (buf : Mem) (len : Nat) :
    Within buf len ↔ ∀ s ∈ declaredSize buf len, s < 2 ^ 63 ∨ len < s % 2 ^ 64 := by
  unfold Within declaredSize
  by_cases h2 : len < 2
  · have hnone : ncWsFrameParse buf len = none := if_pos h2
    rw [if_pos h2]
    exact ⟨fun _ s hs => absurd hs (Option.not_mem_none s), fun _ => .inl hnone⟩
  rw [if_neg h2]
  have h2' : 2 ≤ len := Nat.not_lt.1 h2
  cases hext : extendedLen buf len (buf 1 &&& 0x7f).toNat with
  | none =>
    have hnone : ncWsFrameParse buf len = none := by
      unfold ncWsFrameParse
      rw [if_neg h2, hext]
    exact ⟨fun _ s hs => absurd hs (Option.not_mem_none s), fun _ => .inl hnone⟩
  | some e =>
    obtain ⟨plen, hdr⟩ := e
    obtain ⟨hlow, hhigh⟩ := extendedLen_hdr hext
    have hstart : hdr ≤ payloadStart buf hdr := by
      unfold payloadStart
      split <;> omega
    rw [parse_declared h2' hext]
    simp only [Option.map_some, Option.mem_some_iff, forall_eq']
    generalize hs : payloadStart buf hdr + plen = s
    by_cases hwait : len < s % 2 ^ 64
    · rw [if_pos hwait]
      exact ⟨fun _ => .inr hwait, fun _ => .inl rfl⟩
    rw [if_neg hwait]
    have hmod : s % 2 ^ 64 < 2 ^ 64 := Nat.mod_lt _ (by decide)
    constructor
    · intro h
      obtain h | ⟨rx, f, n, h, -, -, hend, -⟩ := h
      · cases h
      -- the frame ends at `s`, so the number returned is `s` only if it has not wrapped
      · obtain ⟨-, hf, hn⟩ := by simpa only [Option.some.injEq, Prod.mk.injEq] using h
        obtain ⟨hlong, hback⟩ := (toLong_eq_natCast hmod).1 hn
        rw [← hf, hs] at hend
        omega
    · intro h
      have hsmall : s < 2 ^ 63 := h.resolve_right hwait
      have hself : s % 2 ^ 64 = s := Nat.mod_eq_of_lt (by omega)
      rw [hself] at hwait ⊢
      have hlong : toLong s = (s : Int) := (toLong_eq_natCast (by omega)).2 ⟨hsmall, rfl⟩
      rw [hlong]
      refine .inr ⟨_, _, s, rfl, by omega, by omega, hs, fun x hx => ?_⟩
      exact afterParse_outside (by rw [hs]; exact hx)

/-- A header of ten bytes that declares a payload of `2 ^ 64 - 1`. -/
def hugeFrame : Mem := fun i => [0x82, 0x7f, 0xff, 0xff, 0xff, 0xff, 0xff, 0xff, 0xff, 0xff].getD i 0

/-- The call takes nine bytes of the ten, and places the payload behind them. -/
theorem hugeFrame_leaves_buffer : ¬ Within hugeFrame 10 := by
  have hext : extendedLen hugeFrame 10 (hugeFrame 1 &&& 0x7f).toNat = some (2 ^ 64 - 1, 10) := by
    decide
  have hstart : payloadStart hugeFrame 10 = 10 := rfl
  have hparse := parse_declared (by decide) hext
  rw [hstart, if_neg (by decide)] at hparse
  intro h
  obtain h | ⟨rx, f, n, h, -, hle, hend, -⟩ := h
  · rw [hparse] at h
    cases h
  · rw [hparse] at h
    obtain ⟨-, hf, -⟩ := by simpa only [Option.some.injEq, Prod.mk.injEq] using h
    rw [← hf] at hend
    dsimp only at hend
    omega

end

end Netchan.Transport
