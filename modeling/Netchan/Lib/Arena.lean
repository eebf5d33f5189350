import Mathlib.Data.Set.Insert
import Mathlib.Data.List.Nodup

/-!
# Buffers and their owners

An `Arena` is a stack of free buffers, the buffer each owner holds and what each buffer contains.
`Arena.Ok`: no buffer has two owners, or an owner and a place on the free stack. `Change S a a'`
says that only the owners in `S` were touched between `a` and `a'`: the others hold the same
buffers with the same contents. `alloc`, `release` and `write` are the elementary changes, `trans`
composes them.
-/

namespace Lib

structure Arena (O B C : Type) where
  free : List B
  holds : O → Option B
  cont : B → C

namespace Arena

variable {O B C : Type}

/-- Every buffer has at most one owner, counting the free stack as one. -/
structure Ok (a : Arena O B C) : Prop where
  nodup : a.free.Nodup
  held : ∀ o b, a.holds o = some b → b ∉ a.free
  inj : ∀ o o' b, a.holds o = some b → a.holds o' = some b → o = o'

/-- Only the owners in `S` were touched. -/
structure Change (S : Set O) (a a' : Arena O B C) : Prop where
  ok : a'.Ok
  holds : ∀ o, o ∉ S → a'.holds o = a.holds o
  cont : ∀ o, o ∉ S → ∀ b, a.holds o = some b → a'.cont b = a.cont b

namespace Change

variable {S S' : Set O} {a a' a'' : Arena O B C} {o : O} {b : B}

theorem refl (h : a.Ok) : Change S a a := ⟨h, fun _ _ => rfl, fun _ _ _ _ => rfl⟩

theorem mono (h : Change S a a') (hS : S ⊆ S') : Change S' a a' :=
  ⟨h.ok, fun o ho => h.holds o fun h' => ho (hS h'), fun o ho => h.cont o fun h' => ho (hS h')⟩

theorem trans (h1 : Change S a a') (h2 : Change S a' a'') : Change S a a'' := by
  refine ⟨h2.ok, fun o ho => (h2.holds o ho).trans (h1.holds o ho), fun o ho b hb => ?_⟩
  have hb' : a'.holds o = some b := (h1.holds o ho).trans hb
  exact (h2.cont o ho b hb').trans (h1.cont o ho b hb)

/-- The owner `o` takes the buffer on top of the stack and fills it. -/
theorem alloc {l : List B} (h : a.Ok) (hf : a.free = b :: l) (hfree : a'.free = l)
    (ho : a'.holds o = some b) (hne : ∀ o', o' ≠ o → a'.holds o' = a.holds o')
    (hc : ∀ b', b' ≠ b → a'.cont b' = a.cont b') : Change {o} a a' := by
  have hnd := h.nodup
  rw [hf] at hnd
  obtain ⟨hb, hfs⟩ := List.nodup_cons.1 hnd
  have hother : ∀ o' b', a.holds o' = some b' → b' ≠ b ∧ b' ∉ l := by
    intro o' b' hh
    have := h.held o' b' hh
    rw [hf, List.mem_cons, not_or] at this
    exact this
  refine ⟨⟨hfree ▸ hfs, fun o' b' hh => ?_, fun o1 o2 b' h1 h2 => ?_⟩, fun o' ho' => hne o' ho',
    fun o' ho' b' hh => hc b' (hother o' b' hh).1⟩
  · rw [hfree]
    by_cases he : o' = o
    · subst he
      rw [ho] at hh
      cases hh
      exact hb
    · exact (hother o' b' (hne o' he ▸ hh)).2
  · by_cases e1 : o1 = o <;> by_cases e2 : o2 = o
    · rw [e1, e2]
    · subst e1
      rw [ho] at h1
      cases h1
      exact absurd rfl (hother o2 b (hne o2 e2 ▸ h2)).1
    · subst e2
      rw [ho] at h2
      cases h2
      exact absurd rfl (hother o1 b (hne o1 e1 ▸ h1)).1
    · exact h.inj o1 o2 b' (hne o1 e1 ▸ h1) (hne o2 e2 ▸ h2)

/-- The owner `o` gives its buffer back. -/
theorem release (h : a.Ok) (hb : a.holds o = some b) (hfree : a'.free = b :: a.free)
    (ho : a'.holds o = none) (hne : ∀ o', o' ≠ o → a'.holds o' = a.holds o')
    (hc : a'.cont = a.cont) : Change {o} a a' := by
  have hsome : ∀ o' b', a'.holds o' = some b' → o' ≠ o ∧ a.holds o' = some b' := by
    intro o' b' hh
    have he : o' ≠ o := fun he => by subst he; rw [ho] at hh; cases hh
    exact ⟨he, hne o' he ▸ hh⟩
  refine ⟨⟨?_, fun o' b' hh => ?_, fun o1 o2 b' h1 h2 => ?_⟩, fun o' ho' => hne o' ho',
    fun _ _ b' _ => by rw [hc]⟩
  · rw [hfree]
    exact List.nodup_cons.2 ⟨h.held o b hb, h.nodup⟩
  · obtain ⟨he, hh⟩ := hsome o' b' hh
    rw [hfree, List.mem_cons, not_or]
    exact ⟨fun e => he (h.inj o' o b (e ▸ hh) hb), h.held o' b' hh⟩
  · exact h.inj o1 o2 b' (hsome o1 b' h1).2 (hsome o2 b' h2).2

theorem write (h : a.Ok) (hb : a.holds o = some b) (hfree : a'.free = a.free)
    (hh : ∀ o', a'.holds o' = a.holds o') (hc : ∀ b', b' ≠ b → a'.cont b' = a.cont b') :
    Change {o} a a' := by
  refine ⟨⟨hfree ▸ h.nodup, fun o' b' h' => hfree ▸ h.held o' b' (hh o' ▸ h'),
    fun o1 o2 b' h1 h2 => h.inj o1 o2 b' (hh o1 ▸ h1) (hh o2 ▸ h2)⟩, fun o' _ => hh o',
    fun o' ho' b' h' => hc b' fun e => ho' ?_⟩
  exact h.inj o' o b (e ▸ h') hb

theorem same (h : a.Ok) (hfree : a'.free = a.free) (hh : ∀ o, a'.holds o = a.holds o)
    (hc : a'.cont = a.cont) : Change S a a' :=
  ⟨⟨hfree ▸ h.nodup, fun o b h' => hfree ▸ h.held o b (hh o ▸ h'),
    fun o1 o2 b h1 h2 => h.inj o1 o2 b (hh o1 ▸ h1) (hh o2 ▸ h2)⟩, fun o _ => hh o,
    fun _ _ b _ => by rw [hc]⟩

end Change

end Arena

end Lib
