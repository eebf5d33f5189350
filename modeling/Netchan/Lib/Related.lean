import Mathlib.Data.List.Forall2

/-!
# Lists related element by element

What `List.Forall₂ R l l'` says of one element, of all and of the first; and what the two lists have
in common when related elements do.
-/

namespace Lib

variable {α β γ : Type*} {R : α → β → Prop} {l : List α} {l' : List β}

theorem forall₂_mem (h : List.Forall₂ R l l') {a : α} (ha : a ∈ l) : ∃ b ∈ l', R a b := by
  induction h with
  | nil => cases ha
  | cons hr _ ih =>
    rcases List.mem_cons.1 ha with rfl | ha
    · exact ⟨_, .head _, hr⟩
    · obtain ⟨b, hb, hab⟩ := ih ha
      exact ⟨b, .tail _ hb, hab⟩

theorem forall₂_forall {P : α → Prop} {Q : β → Prop} (h : List.Forall₂ R l l')
    (hpq : ∀ a b, a ∈ l → R a b → (P a ↔ Q b)) :
    (∀ a ∈ l, P a) ↔ ∀ b ∈ l', Q b := by
  induction h with
  | nil => simp
  | cons hr hrs ih =>
    rw [List.forall_mem_cons, List.forall_mem_cons, hpq _ _ List.mem_cons_self hr,
      ih fun a b ha => hpq a b (List.mem_cons_of_mem _ ha)]

theorem forall₂_map_eq {f : α → γ} {g : β → γ} (h : List.Forall₂ R l l')
    (hfg : ∀ a b, R a b → f a = g b) : l.map f = l'.map g := by
  induction h with
  | nil => rfl
  | cons hr hrs ih => rw [List.map_cons, List.map_cons, hfg _ _ hr, ih]

theorem forall₂_modifyHead {f : α → α} {g : β → β} (h : List.Forall₂ R l l')
    (hfg : ∀ a b bs, l' = b :: bs → R a b → R (f a) (g b)) :
    List.Forall₂ R (l.modifyHead f) (l'.modifyHead g) := by
  cases h with
  | nil => exact .nil
  | cons hr hrs => exact .cons (hfg _ _ _ rfl hr) hrs

end Lib
