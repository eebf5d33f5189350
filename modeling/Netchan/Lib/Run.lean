import Mathlib.Data.List.Induction

/-!
# Runs of a transition function

`run step s as` is the state after the actions `as`, `Along step A s as` says that each action of
the run is taken in a state where `A` allows it. `run_invariant` is the invariant rule;
`run_history` the one for an invariant that also speaks about the actions taken so far;
`run_simulates` relates the runs of two systems.
-/

namespace Lib

section
variable {σ α : Type} (step : σ → α → σ)

/-- The state after the actions `as`. -/
def run (s : σ) (as : List α) : σ := as.foldl step s

/-- Every action is taken in a state where `A` allows it. -/
def Along (A : σ → α → Prop) : σ → List α → Prop
  | _, [] => True
  | s, a :: as => A s a ∧ Along A (step s a) as

instance decidableAlong {A : σ → α → Prop} [∀ s a, Decidable (A s a)] :
    ∀ s as, Decidable (Along step A s as)
  | _, [] => .isTrue trivial
  | s, a :: as =>
    have := decidableAlong (A := A) (step s a) as
    inferInstanceAs (Decidable (A s a ∧ Along step A (step s a) as))

@[simp] theorem run_nil (s : σ) : run step s [] = s := rfl

@[simp] theorem run_cons (s : σ) (a : α) (as : List α) :
    run step s (a :: as) = run step (step s a) as := rfl

theorem run_append (s : σ) (as bs : List α) : run step s (as ++ bs) = run step (run step s as) bs :=
  List.foldl_append

theorem run_concat (s : σ) (as : List α) (a : α) :
    run step s (as ++ [a]) = step (run step s as) a := by
  rw [run_append]; rfl

variable {step}

theorem along_append {A : σ → α → Prop} :
    ∀ {s : σ} {as bs : List α},
      Along step A s (as ++ bs) ↔ Along step A s as ∧ Along step A (run step s as) bs
  | _, [], _ => by simp [Along, run]
  | s, a :: as, bs => by
    simp only [List.cons_append, Along, along_append (s := step s a), run_cons, and_assoc]

theorem Along.mono {A A' : σ → α → Prop} (h : ∀ s a, A s a → A' s a) :
    ∀ {s : σ} {as : List α}, Along step A s as → Along step A' s as
  | _, [], _ => trivial
  | _, _ :: _, hs => ⟨h _ _ hs.1, hs.2.mono h⟩

theorem Along.and {A B : σ → α → Prop} :
    ∀ {s : σ} {as : List α}, Along step A s as → Along step B s as →
      Along step (fun s a => A s a ∧ B s a) s as
  | _, [], _, _ => trivial
  | _, _ :: _, h, h' => ⟨⟨h.1, h'.1⟩, h.2.and h'.2⟩

theorem along_true : ∀ {s : σ} (as : List α), Along step (fun _ _ => True) s as
  | _, [] => trivial
  | _, _ :: as => ⟨trivial, along_true as⟩

theorem along_of_forall {A : α → Prop} :
    ∀ {s : σ} {as : List α}, (∀ a ∈ as, A a) → Along step (fun _ => A) s as
  | _, [], _ => trivial
  | _, _ :: _, h => ⟨h _ (.head _), along_of_forall fun a ha => h a (.tail _ ha)⟩

/-- A run is allowed if each of its actions is, in the state it is taken in. -/
theorem along_iff {A : σ → α → Prop} {s : σ} {as : List α} :
    Along step A s as ↔ ∀ pre a suf, as = pre ++ a :: suf → A (run step s pre) a := by
  constructor
  · rintro h pre a suf rfl
    exact (along_append.1 h).2.1
  · intro h
    induction as generalizing s with
    | nil => trivial
    | cons b bs ih =>
      refine ⟨h [] b bs rfl, ih fun pre a suf he => ?_⟩
      have := h (b :: pre) a suf (by rw [he]; rfl)
      rwa [run_cons] at this

/-- Two conditions on the actions of a run agree if they agree wherever an invariant holds that the
second one keeps. -/
theorem along_congr {A B C : σ → α → Prop} {I : σ → Prop}
    (hiff : ∀ s a, I s → A s a → (B s a ↔ C s a)) (hstep : ∀ s a, I s → A s a → C s a → I (step s a)) :
    ∀ {s : σ} {as : List α}, I s → Along step A s as → (Along step B s as ↔ Along step C s as)
  | _, [], _, _ => Iff.rfl
  | s, a :: _, h, hs =>
    (and_congr_left' (hiff s a h hs.1)).trans
      (and_congr_right fun hc => along_congr hiff hstep (hstep s a h hs.1 hc) hs.2)

/-- **The invariant rule**: what holds at the start and is kept by every allowed step holds after
every allowed run. -/
theorem run_invariant {A : σ → α → Prop} {I : σ → Prop}
    (hstep : ∀ s a, I s → A s a → I (step s a)) :
    ∀ {s : σ} {as : List α}, I s → Along step A s as → I (run step s as)
  | _, [], h, _ => h
  | s, a :: _, h, hs => run_invariant (s := step s a) hstep (hstep s a h hs.1) hs.2

/-- The invariant rule with the actions taken so far. -/
theorem run_history {A : σ → α → Prop} {I : List α → σ → Prop} {s : σ} (h0 : I [] s)
    (hstep : ∀ as a, Along step A s as → I as (run step s as) → A (run step s as) a →
      I (as ++ [a]) (step (run step s as) a))
    {as : List α} (h : Along step A s as) : I as (run step s as) := by
  induction as using List.reverseRecOn with
  | nil => exact h0
  | append_singleton as a ih =>
    obtain ⟨h1, h2, -⟩ := along_append.1 h
    rw [run_concat]
    exact hstep as a h1 (ih h1) h2

/-- **The simulation rule**: two systems that take the same actions stay related if every action
keeps them so. -/
theorem run_simulates {τ : Type} {step' : τ → α → τ} {R : σ → τ → Prop}
    (hstep : ∀ s t a, R s t → R (step s a) (step' t a)) {s : σ} {t : τ} (h : R s t) (as : List α) :
    R (run step s as) (run step' t as) := by
  induction as generalizing s t with
  | nil => exact h
  | cons a as ih => exact ih (hstep s t a h)

end

end Lib
