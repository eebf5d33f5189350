import Mathlib.Data.List.Basic

/-!
# Positions along a queue

`Climb R a xs b`: the entries of the queue `xs`, from its front on, take a position from `a` to at
most `b`, where `R a x m` says that the entry `x` takes it from `a` to `m`. What enters at the back
starts from `b`, what is taken from the front leaves the rest climbing from where it got to, and
entries can be lost on the way.
-/

namespace Lib

variable {α : Type} {R R' : Nat → α → Nat → Prop} {a b : Nat} {x : α} {xs ys : List α}

def Climb (R : Nat → α → Nat → Prop) : Nat → List α → Nat → Prop
  | a, [], b => a ≤ b
  | a, x :: xs, b => ∃ m, R a x m ∧ Climb R m xs b

/-- An entry does not take a position back, and it does from a lower position what it does from a
higher one. -/
structure Climbing (R : Nat → α → Nat → Prop) : Prop where
  le : ∀ {a x m}, R a x m → a ≤ m
  lower : ∀ {a a' x m}, a' ≤ a → R a x m → R a' x m

namespace Climb

theorem mono (h : ∀ a x m, R a x m → R' a x m) : ∀ {xs : List α} {a : Nat}, Climb R a xs b →
    Climb R' a xs b
  | [], _, hc => hc
  | _ :: _, _, hc => by
    obtain ⟨m, hx, hxs⟩ := hc
    exact ⟨m, h _ _ _ hx, mono h hxs⟩

theorem weaken {b' : Nat} (h : b ≤ b') : ∀ {xs : List α} {a : Nat}, Climb R a xs b → Climb R a xs b'
  | [], _, hc => Nat.le_trans hc h
  | _ :: _, _, hc => by
    obtain ⟨m, hx, hxs⟩ := hc
    exact ⟨m, hx, weaken h hxs⟩

theorem push {b' : Nat} (hx : R b x b') (hR : Climbing R) : ∀ {xs : List α} {a : Nat}, Climb R a xs b →
    Climb R a (xs ++ [x]) b'
  | [], _, hc => ⟨b', hR.lower hc hx, Nat.le_refl b'⟩
  | _ :: _, _, hc => by
    obtain ⟨m, hy, hys⟩ := hc
    exact ⟨m, hy, push hx hR hys⟩

theorem le (hR : Climbing R) : ∀ {xs : List α} {a : Nat}, Climb R a xs b → a ≤ b
  | [], _, hc => hc
  | _ :: _, _, hc => by
    obtain ⟨m, hx, hxs⟩ := hc
    exact Nat.le_trans (hR.le hx) (le hR hxs)

theorem lower (hR : Climbing R) {a' : Nat} (h : a' ≤ a) (hc : Climb R a xs b) : Climb R a' xs b := by
  cases xs with
  | nil => exact Nat.le_trans h hc
  | cons x xs =>
    obtain ⟨m, hx, hxs⟩ := hc
    exact ⟨m, hR.lower h hx, hxs⟩

theorem sublist (hR : Climbing R) (h : ys.Sublist xs) : ∀ {a : Nat}, Climb R a xs b → Climb R a ys b := by
  induction h with
  | slnil => exact fun hc => hc
  | cons x _ ih =>
    intro a hc
    obtain ⟨m, hx, hxs⟩ := hc
    exact ih (lower hR (hR.le hx) hxs)
  | cons_cons x _ ih =>
    intro a hc
    obtain ⟨m, hx, hxs⟩ := hc
    exact ⟨m, hx, ih hxs⟩

end Climb

end Lib
