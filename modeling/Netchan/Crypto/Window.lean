import Netchan.Crypto.Core
import Netchan.Lib.Replay
import Netchan.Lib.Run

/-!
# The replay window of a session

`Accepted` relates `rx_max` and `rx_window` to all counters accepted so far; `replay_exact` says that
`replay_check_and_update` keeps it, and `replay_takes` which counters it takes.
`replay_window_exact` follows for every sequence of counters.
-/

namespace Netchan.Crypto

open Lib

/-! ## One counter -/

section
variable {c c' : Session} {n : UInt64} {seen : List UInt64}

/-- The replay window takes a counter only once. -/
theorem replay_exact (h : Replay.Exact c.rxMax c.rxWindow seen)
    (hr : replayCheckAndUpdate c n = some c') :
    n ∉ seen ∧ Replay.Exact c'.rxMax c'.rxWindow (seen ++ [n]) := by
  unfold replayCheckAndUpdate at hr
  split at hr
  · cases hr
  rename_i h0
  split at hr
  · rename_i hlt
    cases hr
    refine ⟨fun hm => ?_, Replay.exact_advance h hlt⟩
    have := (h.le n hm).2
    have := UInt64.lt_iff_toNat_lt.1 hlt
    omega
  rename_i hle
  have hle : n ≤ c.rxMax := UInt64.not_lt.1 hle
  dsimp only at hr
  split at hr
  · cases hr
  rename_i hd
  have hd : (c.rxMax - n).toNat < 64 := UInt64.lt_iff_toNat_lt.1 (UInt64.not_le.1 hd)
  split at hr
  · cases hr
  rename_i hbit
  cases hr
  exact ⟨fun hm => hbit ((Replay.bit_iff h hle hd).2 hm), Replay.exact_mark h h0 hle hd⟩

/-- **The counters the window takes.** -/
theorem replay_takes (h : Replay.Exact c.rxMax c.rxWindow seen) :
    (replayCheckAndUpdate c n).isSome = true ↔
      n ≠ 0 ∧ n ∉ seen ∧ c.rxMax.toNat < n.toNat + 64 := by
  unfold replayCheckAndUpdate
  by_cases h0 : n = 0
  · simp [h0]
  rw [if_neg h0]
  by_cases hlt : c.rxMax < n
  · have hlt' := UInt64.lt_iff_toNat_lt.1 hlt
    rw [if_pos hlt]
    refine iff_of_true rfl ⟨h0, fun hm => ?_, by omega⟩
    have := (h.le n hm).2
    omega
  rw [if_neg hlt]
  have hle : n ≤ c.rxMax := UInt64.not_lt.1 hlt
  have hle' := UInt64.le_iff_toNat_le.1 hle
  have hsub : (c.rxMax - n).toNat = c.rxMax.toNat - n.toNat := UInt64.toNat_sub_of_le _ _ hle
  have hge : c.rxMax - n ≥ 64 ↔ 64 ≤ c.rxMax.toNat - n.toNat := by
    rw [ge_iff_le, UInt64.le_iff_toNat_le, hsub]
    rfl
  dsimp only
  by_cases hd : c.rxMax - n ≥ 64
  · have hd' := hge.1 hd
    rw [if_pos hd]
    exact iff_of_false (by simp) fun hn => by have := hn.2.2; omega
  have hd' : (c.rxMax - n).toNat < 64 := by
    have := mt hge.2 hd
    omega
  rw [if_neg hd]
  have hbit := Replay.bit_iff h hle hd'
  by_cases hm : n ∈ seen
  · rw [if_pos (hbit.2 hm)]
    exact iff_of_false (by simp) fun hn => hn.2.1 hm
  · rw [if_neg fun hb => hm (hbit.1 hb)]
    exact iff_of_true rfl ⟨h0, hm, by omega⟩

theorem replay_max (hr : replayCheckAndUpdate c n = some c') :
    n ≠ 0 ∧ (c'.rxMax = n ∨ c'.rxMax = c.rxMax ∧ n ≤ c.rxMax) := by
  unfold replayCheckAndUpdate at hr
  split at hr
  · cases hr
  rename_i h0
  split at hr
  · cases hr
    exact ⟨h0, .inl rfl⟩
  rename_i hle
  dsimp only at hr
  split at hr
  · cases hr
  split at hr
  · cases hr
  cases hr
  exact ⟨h0, .inr ⟨rfl, UInt64.not_lt.1 hle⟩⟩

/-- The counters `seen` are those accepted: `rx_max` is the largest of them, 0 when there is none. -/
structure Accepted (c : Session) (seen : List UInt64) : Prop where
  exact : Replay.Exact c.rxMax c.rxWindow seen
  top : c.rxMax ∈ seen ∨ seen = [] ∧ c.rxMax = 0

/-- **A counter that is taken** joins those accepted. -/
theorem Accepted.step (h : Accepted c seen) (hr : replayCheckAndUpdate c n = some c') :
    Accepted c' (seen ++ [n]) := by
  refine ⟨(replay_exact h.exact hr).2, .inl ?_⟩
  obtain ⟨h0, hmax | ⟨hmax, hle⟩⟩ := replay_max hr
  · rw [hmax]
    exact List.mem_append_right _ (List.mem_singleton_self n)
  · rw [hmax]
    rcases h.top with htop | ⟨-, hz⟩
    · exact List.mem_append_left _ htop
    · -- no counter but 0 is at most 0
      rw [hz] at hle
      exact absurd (UInt64.le_antisymm hle (UInt64.le_iff_toNat_le.2 (Nat.zero_le _))) h0

/-- **In terms of the counters accepted**: what is less than 64 below the largest, or above it. -/
theorem Accepted.near_iff (h : Accepted c seen) :
    c.rxMax.toNat < n.toNat + 64 ∧ n ≠ 0 ↔ n ≠ 0 ∧ ((∀ m ∈ seen, m < n) ∨
      ∃ m ∈ seen, (∀ k ∈ seen, k ≤ m) ∧ n ≤ m ∧ m.toNat - n.toNat < 64) := by
  have hle : ∀ k ∈ seen, k ≤ c.rxMax := fun k hk => UInt64.le_iff_toNat_le.2 (h.exact.le k hk).2
  constructor
  · rintro ⟨hnear, h0⟩
    refine ⟨h0, ?_⟩
    by_cases hlt : c.rxMax < n
    · refine .inl fun m hm => UInt64.lt_iff_toNat_lt.2 ?_
      have h1 := UInt64.le_iff_toNat_le.1 (hle m hm)
      have h2 := UInt64.lt_iff_toNat_lt.1 hlt
      omega
    · have hnle : n ≤ c.rxMax := UInt64.not_lt.1 hlt
      rcases h.top with htop | ⟨-, hz⟩
      · exact .inr ⟨c.rxMax, htop, hle, hnle, by omega⟩
      · rw [hz] at hnle
        exact absurd (UInt64.le_antisymm hnle (UInt64.le_iff_toNat_le.2 (Nat.zero_le _))) h0
  · rintro ⟨h0, hnew | ⟨m, hm, hall, hnm, hd⟩⟩
    · refine ⟨?_, h0⟩
      rcases h.top with htop | ⟨-, hz⟩
      · have := UInt64.lt_iff_toNat_lt.1 (hnew _ htop)
        omega
      · rw [hz]
        exact Nat.lt_of_lt_of_le (by decide) (Nat.le_add_left 64 n.toNat)
    · have h1 := UInt64.le_iff_toNat_le.1 hnm
      rcases h.top with htop | ⟨hnil, -⟩
      · have h2 := UInt64.le_iff_toNat_le.1 (hall _ htop)
        exact ⟨by omega, h0⟩
      · rw [hnil] at hm
        cases hm

end

/-! ## All sequences of counters -/

/-- A counter is checked: the session, and the counters accepted. -/
def takeCounter (s : Session × List UInt64) (n : UInt64) : Session × List UInt64 :=
  match replayCheckAndUpdate s.1 n with
  | some c => (c, s.2 ++ [n])
  | none => s

/-- **The replay window is exact**: after any counters from a fresh window on, a counter is accepted
exactly if it is not zero, was not accepted before, and exceeds every counter accepted or is less
than 64 below the highest; and a bit of the window is set exactly if the counter that far below
`rx_max` was accepted. -/
theorem replay_window_exact (c : Session) (ns : List UInt64) (n : UInt64) :
    let s := run takeCounter ({ c with rxMax := 0, rxWindow := 0 }, []) ns
    ((replayCheckAndUpdate s.1 n).isSome = true ↔
      n ≠ 0 ∧ n ∉ s.2 ∧ ((∀ m ∈ s.2, m < n) ∨
        ∃ m ∈ s.2, (∀ k ∈ s.2, k ≤ m) ∧ n ≤ m ∧ m.toNat - n.toNat < 64)) ∧
    ∀ i < 64, Replay.bit s.1.rxWindow i = true ↔ ∃ m ∈ s.2, m.toNat + i = s.1.rxMax.toNat := by
  intro s
  have hacc : Accepted s.1 s.2 := by
    refine run_invariant (A := fun _ _ => True) (I := fun s : Session × List UInt64 => Accepted s.1 s.2)
      (fun s n hs _ => ?_) ⟨Replay.exact_nil, .inr ⟨rfl, rfl⟩⟩ (along_true ns)
    unfold takeCounter
    split
    · rename_i c' hr
      exact hs.step hr
    · exact hs
  refine ⟨?_, hacc.exact.bits⟩
  have hnear := hacc.near_iff (n := n)
  rw [replay_takes hacc.exact]
  constructor
  · rintro ⟨h0, hm, hn⟩
    exact ⟨h0, hm, (hnear.1 ⟨hn, h0⟩).2⟩
  · rintro ⟨h0, hm, hn⟩
    exact ⟨h0, hm, (hnear.2 ⟨h0, hn⟩).1⟩

end Netchan.Crypto
