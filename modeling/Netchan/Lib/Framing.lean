import Mathlib.Data.List.Basic

/-!
# Frames in a stream that arrives in chunks

* `PartOf`: what a receiver may be left with between two chunks.
* `exists_split`: where a prefix of a stream of frames ends.
* `feedAll_accepted`, `feedAll_frames`: a receiver that takes the whole frames of each chunk takes
  those of the stream, however it is cut.
* `feedAll_map`: a receiver that does more work on the same frames.
-/

namespace Lib

variable {α β γ σ : Type}

/-- The bytes are a part of the next frame, but not all of it; there are none when no frame comes. -/
def PartOf (enc : α → List UInt8) (left : List UInt8) : List α → Prop
  | [] => left = []
  | a :: _ => left <+: enc a ∧ left ≠ enc a

theorem partOf_nil {enc : α → List UInt8} (h : ∀ a, enc a ≠ []) : ∀ frames, PartOf enc [] frames
  | [] => rfl
  | a :: _ => ⟨List.nil_prefix, (h a).symm⟩

theorem length_le_flatMap {enc : α → List UInt8} (h : ∀ a, enc a ≠ []) (frames : List α) :
    frames.length ≤ (frames.flatMap enc).length := by
  induction frames with
  | nil => exact Nat.le_refl _
  | cons a frames ih =>
    have := List.length_pos_iff.2 (h a)
    rw [List.flatMap_cons, List.length_append, List.length_cons]
    omega

/-- **A prefix of the stream** ends in front of a frame or inside it. -/
theorem exists_split (enc : α → List UInt8) : ∀ {frames : List α} {l : List UInt8},
    l <+: frames.flatMap enc → ∃ done rest left, frames = done ++ rest ∧
      l = done.flatMap enc ++ left ∧ PartOf enc left rest
  | [], l, h => ⟨[], [], l, rfl, rfl, List.prefix_nil.1 h⟩
  | a :: frames, l, h => by
    rw [List.flatMap_cons] at h
    have ha : enc a <+: enc a ++ frames.flatMap enc := List.prefix_append ..
    by_cases hle : (enc a).length ≤ l.length
    · obtain ⟨t, rfl⟩ := List.prefix_of_prefix_length_le ha h hle
      obtain ⟨done, rest, left, rfl, rfl, hp⟩ :=
        exists_split enc ((List.prefix_append_right_inj _).1 h)
      refine ⟨a :: done, rest, left, rfl, ?_, hp⟩
      rw [List.flatMap_cons, List.append_assoc]
    · refine ⟨[], a :: frames, l, rfl, rfl, List.prefix_of_prefix_length_le h ha (by omega), ?_⟩
      rintro rfl
      exact hle (Nat.le_refl _)

theorem split_whole {enc : α → List UInt8} {done rest : List α} {left : List UInt8}
    (hp : PartOf enc left rest) (h : done.flatMap enc ++ left = (done ++ rest).flatMap enc) :
    rest = [] ∧ left = [] := by
  rw [List.flatMap_append] at h
  replace h := List.append_cancel_left h
  cases rest with
  | nil => exact ⟨rfl, hp⟩
  | cons a rest =>
    obtain ⟨⟨t, ht⟩, hne⟩ := hp
    rw [List.flatMap_cons, ← ht, List.append_assoc] at h
    have : t = [] := (List.append_eq_nil_iff.1 (List.append_right_eq_self.1 h.symm)).1
    rw [this, List.append_nil] at ht
    exact absurd ht hne

/-- A receiver that is given one chunk after the other. -/
def feedAll (feed : σ → List UInt8 → List β × σ) : σ → List (List UInt8) → List β × σ
  | s, [] => ([], s)
  | s, chunk :: chunks =>
    let r := feed s chunk
    let t := feedAll feed r.2 chunks
    (r.1 ++ t.1, t.2)

/-- **Every cut of the stream gives the same frames**, if the receiver takes all that are whole with
each chunk that it accepts and holds the rest. -/
theorem feedAll_accepted {enc : α → List UInt8} {view : α → β}
    {feed : σ → List UInt8 → List β × σ} {Holds Accepts : σ → List UInt8 → Prop}
    (hfeed : ∀ s chunk l (done rest : List α) left, Holds s l → Accepts s chunk →
      l ++ chunk = done.flatMap enc ++ left → PartOf enc left rest →
      (feed s chunk).1 = done.map view ∧ Holds (feed s chunk).2 left) :
    ∀ {chunks : List (List UInt8)} {s : σ} {l : List UInt8} {frames : List α}, Holds s l →
      PartOf enc l frames → l ++ chunks.flatten <+: frames.flatMap enc →
      (∀ pre chunk post, chunks = pre ++ chunk :: post → Accepts (feedAll feed s pre).2 chunk) →
      ∃ done rest left, frames = done ++ rest ∧ l ++ chunks.flatten = done.flatMap enc ++ left ∧
        PartOf enc left rest ∧ (feedAll feed s chunks).1 = done.map view ∧
        Holds (feedAll feed s chunks).2 left
  | [], s, l, frames, hs, hp, _, _ => ⟨[], frames, l, rfl, by simp, hp, rfl, hs⟩
  | chunk :: chunks, s, l, frames, hs, hp, h, hok => by
    rw [List.flatten_cons, ← List.append_assoc] at h ⊢
    obtain ⟨done, rest, left, rfl, hl, hp1⟩ :=
      exists_split enc ((List.prefix_append ..).trans h)
    obtain ⟨hout, hs1⟩ := hfeed s chunk l done rest left hs (hok [] chunk chunks rfl) hl hp1
    rw [hl, List.flatMap_append, List.append_assoc, List.prefix_append_right_inj] at h
    have hok1 : ∀ pre next post, chunks = pre ++ next :: post →
        Accepts (feedAll feed (feed s chunk).2 pre).2 next :=
      fun pre next post hsplit => hok (chunk :: pre) next post (congrArg (chunk :: ·) hsplit)
    obtain ⟨done', rest', left', rfl, hl', hp', hout', hs'⟩ := feedAll_accepted hfeed hs1 hp1 h hok1
    refine ⟨done ++ done', rest', left', (List.append_assoc ..).symm, ?_, hp', ?_, hs'⟩
    · rw [hl, List.flatMap_append, List.append_assoc, hl', List.append_assoc]
    · rw [List.map_append, feedAll, hout, hout']

theorem feedAll_frames {enc : α → List UInt8} {view : α → β} {feed : σ → List UInt8 → List β × σ}
    {Holds : σ → List UInt8 → Prop}
    (hfeed : ∀ s chunk l (done rest : List α) left, Holds s l → l ++ chunk = done.flatMap enc ++ left →
      PartOf enc left rest → (feed s chunk).1 = done.map view ∧ Holds (feed s chunk).2 left)
    {chunks : List (List UInt8)} {s : σ} {l : List UInt8} {frames : List α} (hs : Holds s l)
    (hp : PartOf enc l frames) (h : l ++ chunks.flatten <+: frames.flatMap enc) :
    ∃ done rest left, frames = done ++ rest ∧ l ++ chunks.flatten = done.flatMap enc ++ left ∧
      PartOf enc left rest ∧ (feedAll feed s chunks).1 = done.map view ∧
      Holds (feedAll feed s chunks).2 left :=
  feedAll_accepted (fun s chunk l done rest left hs (_ : True) => hfeed s chunk l done rest left hs)
    hs hp h fun _ _ _ _ => trivial

/-- A receiver that takes the frames of another one and makes something of each. -/
theorem feedAll_map (feed : σ → List UInt8 → List β × σ) (feed' : σ → List UInt8 → List γ × σ)
    (p : β → Prop) (g : β → γ)
    (h : ∀ s chunk, (∀ b ∈ (feed s chunk).1, p b) →
      feed' s chunk = ((feed s chunk).1.map g, (feed s chunk).2)) :
    ∀ (chunks : List (List UInt8)) (s : σ), (∀ b ∈ (feedAll feed s chunks).1, p b) →
      feedAll feed' s chunks = ((feedAll feed s chunks).1.map g, (feedAll feed s chunks).2)
  | [], _, _ => rfl
  | chunk :: chunks, s, hp => by
    have hstep := h s chunk fun b hb => hp b (List.mem_append_left _ hb)
    have hrest := feedAll_map feed feed' p g h chunks (feed s chunk).2
      fun b hb => hp b (List.mem_append_right _ hb)
    simp only [feedAll, hstep, hrest, List.map_append]

end Lib
