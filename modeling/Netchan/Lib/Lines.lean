import Netchan.Lib.CString

/-!
# Text files read by lines and words

* `fgets n` takes at most `n` bytes of a text and stops after a newline; `lines n` are the pieces
  that a loop over it reads.
* `pending n s` is the last piece of a text if `fgets` would have gone on reading it. What is
  appended to the text continues that piece: `lines_append`.
* `sscanf w k` are the words that `k` conversions `%ws` take from a string; `sscanf_word` and
  `sscanf_blank` compute it along `scan_cases`.
* `name_cases`: a word that is appended to a text is read as the first word only if the text is
  white space or starts with that word.
-/

namespace Lib

/-! ## Lines -/

/-- `fgets` into a buffer that holds `n` characters and a NUL: the piece and what is left. -/
def fgets : Nat → List UInt8 → List UInt8 × List UInt8
  | 0, s => ([], s)
  | _ + 1, [] => ([], [])
  | n + 1, b :: s => if b = 10 then ([b], s) else (b :: (fgets n s).1, (fgets n s).2)

/-- The first `k` pieces of a text. -/
def pieces (n : Nat) : Nat → List UInt8 → List (List UInt8)
  | 0, _ => []
  | k + 1, s => if s = [] then [] else (fgets n s).1 :: pieces n k (fgets n s).2

/-- What a loop over `fgets` reads until the end of the file. -/
def lines (n : Nat) (s : List UInt8) : List (List UInt8) := pieces n s.length s

/-- A piece that nothing after it can change: the buffer is full or the newline is read. -/
def Done (n : Nat) (l : List UInt8) : Prop := l.length = n ∨ l.getLast? = some 10

instance (n : Nat) (l : List UInt8) : Decidable (Done n l) := inferInstanceAs (Decidable (_ ∨ _))

/-- The last piece, if more text would have gone into it. -/
def pending (n : Nat) (s : List UInt8) : List UInt8 :=
  ((lines n s).getLast?.filter fun l => ¬Done n l).getD []

theorem fgets_append (n : Nat) (s : List UInt8) : (fgets n s).1 ++ (fgets n s).2 = s := by
  induction s generalizing n with
  | nil => cases n <;> rfl
  | cons b s ih =>
    cases n with
    | zero => rfl
    | succ n =>
      unfold fgets
      split
      · rfl
      · exact congrArg (b :: ·) (ih n)

/-- A piece that is not done is all there was, and it is short and has no newline. -/
theorem fgets_pending {n : Nat} {s : List UInt8} (h : ¬Done n (fgets n s).1) :
    fgets n s = (s, []) ∧ s.length < n ∧ 10 ∉ s := by
  induction s generalizing n with
  | nil =>
    cases n with
    | zero => exact absurd (.inl rfl) h
    | succ n => exact ⟨rfl, Nat.succ_pos n, List.not_mem_nil⟩
  | cons b s ih =>
    cases n with
    | zero => exact absurd (.inl rfl) h
    | succ n =>
      by_cases hb : b = 10
      · have h1 : fgets (n + 1) (b :: s) = ([b], s) := by rw [fgets, if_pos hb]
        rw [h1] at h
        exact absurd (.inr (by rw [hb]; rfl)) h
      · have h1 : fgets (n + 1) (b :: s) = (b :: (fgets n s).1, (fgets n s).2) := by
          rw [fgets, if_neg hb]
        rw [h1] at h
        have hs : ¬Done n (fgets n s).1 := by
          intro hd
          rcases hd with hd | hd
          · exact h (.inl (congrArg (· + 1) hd))
          · refine h (.inr ?_)
            rw [List.getLast?_cons, hd]
            rfl
        obtain ⟨ih1, ih2, ih3⟩ := ih hs
        refine ⟨by rw [h1, ih1], Nat.succ_lt_succ ih2, ?_⟩
        intro hm
        rcases List.mem_cons.1 hm with hm | hm
        · exact hb hm.symm
        · exact ih3 hm

/-- A piece that is done stays as it is when text is appended. -/
theorem fgets_done {n : Nat} {s : List UInt8} (h : Done n (fgets n s).1) (hs : s ≠ [])
    (t : List UInt8) : fgets n (s ++ t) = ((fgets n s).1, (fgets n s).2 ++ t) := by
  induction s generalizing n with
  | nil => exact absurd rfl hs
  | cons b s ih =>
    cases n with
    | zero => rfl
    | succ n =>
      by_cases hb : b = 10
      · rw [List.cons_append, fgets, fgets, if_pos hb, if_pos hb]
      · rw [List.cons_append, fgets, fgets, if_neg hb, if_neg hb]
        have h1 : (fgets (n + 1) (b :: s)).1 = b :: (fgets n s).1 := by rw [fgets, if_neg hb]
        rw [h1] at h
        cases hs' : s with
        | nil =>
          subst hs'
          rcases h with h | h
          · cases n with
            | zero => cases t <;> rfl
            | succ n => simp [fgets] at h
          · cases n with
            | zero => cases t <;> rfl
            | succ n => simp [fgets, hb] at h
        | cons c s' =>
          rw [← hs']
          have hd : Done n (fgets n s).1 := by
            rcases h with h | h
            · exact .inl (Nat.succ.inj h)
            · cases hl : (fgets n s).1 with
              | nil =>
                rw [hl] at h
                exact absurd (Option.some.inj h) hb
              | cons d l =>
                rw [hl, List.getLast?_cons_cons] at h
                exact .inr h
          rw [ih hd (by rw [hs']; exact List.cons_ne_nil c s')]

theorem fgets_line {x : List UInt8} (hx : 10 ∉ x) (m : Nat) :
    fgets m (x ++ [10]) = ((x ++ [10]).take m, (x ++ [10]).drop m) := by
  induction x generalizing m with
  | nil =>
    cases m with
    | zero => rfl
    | succ m => simp [fgets]
  | cons b x ih =>
    have hb : b ≠ 10 := fun h => hx (h ▸ .head _)
    have hx' : 10 ∉ x := fun h => hx (.tail _ h)
    cases m with
    | zero => rfl
    | succ m =>
      rw [List.cons_append, fgets, if_neg hb, ih hx', List.take_succ_cons, List.drop_succ_cons]

section
variable {n : Nat} (hn : 0 < n)
include hn

theorem length_fgets_pos {s : List UInt8} (hs : s ≠ []) : 0 < (fgets n s).1.length := by
  cases s with
  | nil => exact absurd rfl hs
  | cons b s =>
    cases n with
    | zero => exact absurd hn (Nat.lt_irrefl 0)
    | succ n =>
      unfold fgets
      split <;> exact Nat.succ_pos _

theorem length_fgets_rest {s : List UInt8} (hs : s ≠ []) : (fgets n s).2.length < s.length := by
  have h1 := length_fgets_pos hn hs
  have h2 := congrArg List.length (fgets_append n s)
  rw [List.length_append] at h2
  omega

omit hn in
@[simp] theorem pieces_nil (k : Nat) : pieces n k [] = [] := by
  cases k with
  | zero => rfl
  | succ k => exact if_pos rfl

/-- Steps that the text does not need change nothing. -/
theorem pieces_eq {j k : Nat} {s : List UInt8} (hj : s.length ≤ j) (hk : s.length ≤ k) :
    pieces n j s = pieces n k s := by
  induction j generalizing k s with
  | zero =>
    rw [List.eq_nil_of_length_eq_zero (Nat.le_zero.1 hj), pieces_nil, pieces_nil]
  | succ j ih =>
    by_cases hs : s = []
    · rw [hs, pieces_nil, pieces_nil]
    · have hlt := length_fgets_rest hn hs
      cases k with
      | zero => omega
      | succ k => rw [pieces, pieces, if_neg hs, if_neg hs, ih (k := k) (by omega) (by omega)]

omit hn in
@[simp] theorem lines_nil : lines n [] = [] := rfl

theorem lines_eq {s : List UInt8} (hs : s ≠ []) :
    lines n s = (fgets n s).1 :: lines n (fgets n s).2 := by
  have hlt := length_fgets_rest hn hs
  cases h : s.length with
  | zero => omega
  | succ k =>
    rw [lines, h, pieces, if_neg hs, pieces_eq hn (by omega) (Nat.le_refl _)]
    rfl

/-- A text by the first piece that `fgets` reads. -/
theorem lines_induction {P : List UInt8 → Prop} (nil : P [])
    (step : ∀ s, s ≠ [] → P (fgets n s).2 → P s) (s : List UInt8) : P s := by
  induction h : s.length using Nat.strong_induction_on generalizing s with
  | _ k ih =>
    by_cases hs : s = []
    · rw [hs]
      exact nil
    · exact step s hs (ih _ (h ▸ length_fgets_rest hn hs) _ rfl)

theorem lines_line {x : List UInt8} (hx : 10 ∉ x) (hlen : x.length < n) (s : List UInt8) :
    lines n (x ++ 10 :: s) = (x ++ [10]) :: lines n s := by
  have hne : x ++ [10] ≠ [] := List.append_ne_nil_of_right_ne_nil x (List.cons_ne_nil 10 [])
  have hl : (x ++ [10]).length ≤ n := by
    rw [List.length_append]
    exact hlen
  have hget : fgets n (x ++ [10]) = (x ++ [10], []) := by
    rw [fgets_line hx, List.take_of_length_le hl, List.drop_of_length_le hl]
  have hdone : Done n (fgets n (x ++ [10])).1 := by
    rw [hget]
    exact .inr List.getLast?_concat
  have hall := fgets_done hdone hne s
  rw [hget, List.append_assoc] at hall
  rw [lines_eq hn (List.append_ne_nil_of_right_ne_nil x (List.cons_ne_nil 10 s)),
    show x ++ 10 :: s = x ++ ([10] ++ s) from rfl, hall]
  rfl

theorem lines_short {s : List UInt8} (hs : s ≠ []) (h : ¬Done n (fgets n s).1) :
    lines n s = [s] := by
  rw [lines_eq hn hs, (fgets_pending h).1, lines_nil]

/-- The pieces that are done, then the pending one. -/
theorem lines_pending (s : List UInt8) :
    ∃ ls, (∀ t, lines n (s ++ t) = ls ++ lines n (pending n s ++ t)) ∧
      lines n s = ls ++ lines n (pending n s) ∧
      (pending n s).length < n ∧ 10 ∉ pending n s := by
  induction s using lines_induction hn with
  | nil => exact ⟨[], fun _ => rfl, rfl, hn, List.not_mem_nil⟩
  | step s hs ih =>
    by_cases hd : Done n (fgets n s).1
    · obtain ⟨ls, h1, h2, h3⟩ := ih
      have hp : pending n s = pending n (fgets n s).2 := by
        unfold pending
        rw [lines_eq hn hs]
        cases hl : lines n (fgets n s).2 with
        | nil => simp [hd, Option.filter]
        | cons l ls => rw [List.getLast?_cons_cons]
      refine ⟨(fgets n s).1 :: ls, fun t => ?_, ?_, hp ▸ h3⟩
      · have hst : s ++ t ≠ [] := List.append_ne_nil_of_left_ne_nil hs t
        rw [lines_eq hn hst, fgets_done hd hs, h1, hp, List.cons_append]
      · rw [lines_eq hn hs, h2, hp, List.cons_append]
    · obtain ⟨h1, h2, h3⟩ := fgets_pending hd
      have hp : pending n s = s := by
        unfold pending
        rw [lines_short hn hs hd]
        rw [h1] at hd
        simp [Option.filter, show ¬Done n s from hd]
      rw [hp]
      exact ⟨[], fun _ => rfl, rfl, h2, h3⟩

theorem findSome?_piece {β : Type*} {f : List UInt8 → Option β} (hf : f [] = none) {s : List UInt8}
    (hlen : s.length < n) (hnl : 10 ∉ s) : (lines n s).findSome? f = f s := by
  by_cases hs : s = []
  · rw [hs, hf]
    rfl
  · have happ := fgets_append n s
    have hd : ¬Done n (fgets n s).1 := by
      intro hd
      rcases hd with hd | hd
      · have hsum := congrArg List.length happ
        rw [List.length_append, hd] at hsum
        omega
      · refine hnl ?_
        rw [← happ]
        exact List.mem_append_left _ (List.mem_of_getLast? hd)
    rw [lines_short hn hs hd]
    cases hv : f s <;> simp [hv]

/-- A search by lines in one line that the buffer cuts once at most. -/
theorem findSome?_line {β : Type*} {f : List UInt8 → Option β} (hf : f [] = none) {x : List UInt8}
    (hx : 10 ∉ x) (hlen : x.length < 2 * n) :
    (lines n (x ++ [10])).findSome? f =
      (f ((x ++ [10]).take n)).or (f ((x ++ [10]).drop n)) := by
  have hne : x ++ [10] ≠ [] := List.append_ne_nil_of_right_ne_nil x (List.cons_ne_nil 10 [])
  have hrest : (lines n ((x ++ [10]).drop n)).findSome? f = f ((x ++ [10]).drop n) := by
    rcases Nat.lt_or_ge n (x.length + 1) with hn' | hn'
    · have hd : (x ++ [10]).drop n = x.drop n ++ [10] := List.drop_append_of_le_length (by omega)
      have hx' : 10 ∉ x.drop n := fun h => hx (List.mem_of_mem_drop h)
      have hl : (x.drop n ++ [10]).length ≤ n := by
        simp
        omega
      rw [hd, lines_eq hn (List.append_ne_nil_of_right_ne_nil _ (List.cons_ne_nil 10 [])),
        fgets_line hx', List.take_of_length_le hl, List.drop_of_length_le hl, lines_nil]
      cases hv : f (x.drop n ++ [10]) <;> simp [hv]
    · have hd : (x ++ [10]).drop n = [] := List.drop_of_length_le (by simpa using hn')
      rw [hd, lines_nil, hf]
      rfl
  rw [lines_eq hn hne, fgets_line hx, List.findSome?_cons, hrest]
  cases f ((x ++ [10]).take n) <;> rfl

end

/-! ## Words -/

/-- `isspace` in the "C" locale. -/
def isspace (b : UInt8) : Bool := b = 32 || (9 ≤ b && b ≤ 13)

/-- `k` conversions `%ws`, as `sscanf` makes them: the words up to the first that fails. -/
def sscanf (w : Nat) : Nat → List UInt8 → List (List UInt8)
  | 0, _ => []
  | k + 1, s =>
    let t := s.dropWhile isspace
    let word := (t.takeWhile fun b => !isspace b).take w
    if word = [] then [] else word :: sscanf w k (t.drop word.length)

/-- White space only. -/
def Blank (s : List UInt8) : Prop := ∀ b ∈ s, isspace b = true

/-- No white space. -/
def Plain (s : List UInt8) : Prop := ∀ b ∈ s, isspace b = false

instance (s : List UInt8) : Decidable (Blank s) := inferInstanceAs (Decidable (∀ b ∈ s, _))
instance (s : List UInt8) : Decidable (Plain s) := inferInstanceAs (Decidable (∀ b ∈ s, _))

/-- Nothing, or something that starts with white space. -/
def Edge (s : List UInt8) : Prop := ∀ b ∈ s.head?, isspace b = true

theorem blank_nil : Blank [] := fun _ h => absurd h List.not_mem_nil
theorem edge_nil : Edge [] := fun _ h => nomatch h

theorem Blank.no_nul {s : List UInt8} (h : Blank s) : 0 ∉ s :=
  fun h0 => absurd (h 0 h0) (by decide)

theorem blank_space : Blank [32] := fun b hb => by rw [List.mem_singleton.1 hb]; rfl

theorem blank_newline : Blank [10] := fun b hb => by rw [List.mem_singleton.1 hb]; rfl

theorem edge_space (s : List UInt8) : Edge (32 :: s) := fun b hb => by cases hb; rfl

theorem Blank.edge {s : List UInt8} (h : Blank s) : Edge s := fun b hb => h b (List.mem_of_mem_head? hb)

/-- Every string starts with white space, then has a word, unless it is blank. -/
theorem scan_cases (s : List UInt8) :
    Blank s ∨ ∃ a x r, s = a ++ (x ++ r) ∧ Blank a ∧ x ≠ [] ∧ Plain x ∧ Edge r := by
  by_cases hs : s.dropWhile isspace = []
  · exact .inl (List.dropWhile_eq_nil_iff.1 hs)
  · refine .inr ⟨s.takeWhile isspace, (s.dropWhile isspace).takeWhile fun b => !isspace b,
      (s.dropWhile isspace).dropWhile fun b => !isspace b, ?_, ?_, ?_, ?_, ?_⟩
    · rw [List.takeWhile_append_dropWhile, List.takeWhile_append_dropWhile]
    · exact fun b hb => List.mem_takeWhile_imp hb
    · have h1 := List.head?_dropWhile_not isspace s
      cases hd : s.dropWhile isspace with
      | nil => exact absurd hd hs
      | cons b l =>
        rw [hd] at h1
        simp at h1
        simp [h1]
    · intro b hb
      simpa using List.mem_takeWhile_imp hb
    · intro b hb
      have h1 := List.head?_dropWhile_not (fun b => !isspace b) (s.dropWhile isspace)
      rw [Option.mem_def] at hb
      rw [hb] at h1
      simpa using h1

theorem sscanf_blank (w k : Nat) {s : List UInt8} (h : Blank s) : sscanf w k s = [] := by
  cases k with
  | zero => rfl
  | succ k =>
    have hd : s.dropWhile isspace = [] := List.dropWhile_eq_nil_iff.2 h
    simp [sscanf, hd]

theorem sscanf_word {w : Nat} (k : Nat) {a x r : List UInt8} (ha : Blank a) (hx : x ≠ [])
    (hp : Plain x) (hw : x.length ≤ w) (hr : Edge r) :
    sscanf w (k + 1) (a ++ (x ++ r)) = x :: sscanf w k r := by
  have hd : (a ++ (x ++ r)).dropWhile isspace = x ++ r := by
    rw [List.dropWhile_append_of_pos ha]
    cases x with
    | nil => exact absurd rfl hx
    | cons b x => exact List.dropWhile_cons_of_neg (by simp [hp b (.head _)])
  have ht : (x ++ r).takeWhile (fun b => !isspace b) = x := by
    rw [List.takeWhile_append_of_pos (fun b hb => by simp [hp b hb])]
    cases r with
    | nil => simp
    | cons b r => simp [hr b rfl]
  simp only [sscanf]
  rw [hd, ht, List.take_of_length_le hw, if_neg hx, List.drop_left]

theorem mem_sscanf {w k : Nat} {s x : List UInt8} (h : x ∈ sscanf w k s) : x ≠ [] ∧ Plain x := by
  induction k generalizing s with
  | zero => exact absurd h List.not_mem_nil
  | succ k ih =>
    simp only [sscanf] at h
    split at h
    · exact absurd h List.not_mem_nil
    · rename_i hne
      rcases List.mem_cons.1 h with rfl | h
      · refine ⟨hne, fun b hb => ?_⟩
        simpa using List.mem_takeWhile_imp (List.mem_of_mem_take hb)
      · exact ih h

theorem Blank.append {s t : List UInt8} (hs : Blank s) (ht : Blank t) : Blank (s ++ t) :=
  fun b hb => (List.mem_append.1 hb).elim (hs b) (ht b)

theorem Plain.append {s t : List UInt8} (hs : Plain s) (ht : Plain t) : Plain (s ++ t) :=
  fun b hb => (List.mem_append.1 hb).elim (hs b) (ht b)

theorem Blank.take {s : List UInt8} (h : Blank s) (m : Nat) : Blank (s.take m) :=
  fun b hb => h b (List.mem_of_mem_take hb)

theorem Blank.drop {s : List UInt8} (h : Blank s) (m : Nat) : Blank (s.drop m) :=
  fun b hb => h b (List.mem_of_mem_drop hb)

theorem Plain.take {s : List UInt8} (h : Plain s) (m : Nat) : Plain (s.take m) :=
  fun b hb => h b (List.mem_of_mem_take hb)

theorem Plain.drop {s : List UInt8} (h : Plain s) (m : Nat) : Plain (s.drop m) :=
  fun b hb => h b (List.mem_of_mem_drop hb)

theorem Edge.take {s : List UInt8} (h : Edge s) (m : Nat) : Edge (s.take m) := by
  intro b hb
  rw [List.head?_take] at hb
  split at hb
  · cases hb
  · exact h b hb

theorem Edge.append {s : List UInt8} (h : Edge s) (hs : s ≠ []) (t : List UInt8) :
    Edge (s ++ t) := by
  cases s with
  | nil => exact absurd rfl hs
  | cons b s => exact h

theorem sscanf_skip (w k : Nat) {a : List UInt8} (ha : Blank a) (s : List UInt8) :
    sscanf w k (a ++ s) = sscanf w k s := by
  cases k with
  | zero => rfl
  | succ k => simp only [sscanf, List.dropWhile_append_of_pos ha]

theorem length_sscanf_word (w k : Nat) {a x r : List UInt8} (ha : Blank a) (hp : Plain x)
    (hw : x.length ≤ w) (hr : Edge r) :
    (sscanf w k (a ++ (x ++ r))).length ≤ (sscanf w k r).length + 1 := by
  have mono : ∀ k (s : List UInt8), (sscanf w k s).length ≤ (sscanf w (k + 1) s).length := by
    intro k
    induction k with
    | zero => exact fun s => Nat.zero_le _
    | succ k ih =>
      intro s
      rw [sscanf, sscanf]
      split
      · exact Nat.le_refl _
      · exact Nat.succ_le_succ (ih _)
  by_cases hx : x = []
  · rw [hx, List.nil_append, sscanf_skip w k ha]
    exact Nat.le_succ _
  · cases k with
    | zero => exact Nat.zero_le _
    | succ k =>
      rw [sscanf_word k ha hx hp hw hr]
      exact Nat.succ_le_succ (mono k r)

/-- One word at most, in a string that has no more. -/
theorem sscanf_one {w : Nat} (k : Nat) {a x r : List UInt8} (ha : Blank a) (hp : Plain x)
    (hw : x.length ≤ w) (hr : Blank r) : (sscanf w k (a ++ (x ++ r))).length ≤ 1 := by
  have h := length_sscanf_word w k ha hp hw hr.edge
  rwa [sscanf_blank w k hr] at h

/-- The first word does not depend on how many are asked for. -/
theorem sscanf_first {w k : Nat} {s x : List UInt8} {xs : List (List UInt8)}
    (h : sscanf w k s = x :: xs) : sscanf w 1 s = [x] := by
  cases k with
  | zero => cases h
  | succ k =>
    simp only [sscanf] at h ⊢
    split at h
    · cases h
    · rename_i hne
      rw [if_neg hne, (List.cons.inj h).1]

/-- The words and what separates them fit in the string. -/
theorem sum_sscanf_le (w k : Nat) (s : List UInt8) (hw : s.length ≤ w) :
    ((sscanf w k s).map fun x => x.length + 1).sum ≤ s.length + 1 := by
  induction k generalizing s with
  | zero => exact Nat.zero_le _
  | succ k ih =>
    rcases scan_cases s with hb | ⟨a, x, r, rfl, ha, hx, hp, hr⟩
    · rw [sscanf_blank w _ hb]
      exact Nat.zero_le _
    · simp only [List.length_append] at hw ⊢
      rw [sscanf_word k ha hx hp (by omega) hr, List.map_cons, List.sum_cons]
      cases r with
      | nil =>
        rw [sscanf_blank w k blank_nil]
        simp only [List.map_nil, List.sum_nil, List.length_nil]
        omega
      | cons b r =>
        have hb : Blank [b] := fun c hc => hr c (by rw [List.mem_singleton.1 hc]; rfl)
        rw [List.length_cons] at hw ⊢
        have h1 := ih r (by omega)
        rw [show b :: r = [b] ++ r from rfl, sscanf_skip w k hb]
        omega

/-- **A name in front of a cut text.** The text after `l` starts with a word `h`, and `m` bytes of
it are there. If `h` is read first and something after it, then `l` is white space, or has the word
itself. -/
theorem name_cases {w k m : Nat} {l h t y : List UInt8} {ys : List (List UInt8)} (hp : Plain h)
    (hedge : Edge t) (hw : l.length + m ≤ w)
    (hread : sscanf w k (l ++ (h ++ t).take m) = h :: y :: ys) :
    (Blank l ∧ h.length < m) ∨
      ∃ a r, l = a ++ (h ++ r) ∧ Blank a ∧ Edge r ∧ r ≠ [] := by
  have hne : h ≠ [] := (mem_sscanf (hread ▸ List.mem_cons_self)).1
  have htwo : ¬(sscanf w k (l ++ (h ++ t).take m)).length ≤ 1 := by
    rw [hread]
    simp
  -- if the text is cut within the word, it is one word with what is in front of it
  have hcut : m ≤ h.length → (h ++ t).take m = h.take m := List.take_append_of_le_length
  have hfull : h.length < m → (h ++ t).take m = h ++ t.take (m - h.length) := by
    intro hm
    rw [List.take_append, List.take_of_length_le (Nat.le_of_lt hm)]
  rcases scan_cases l with hl | ⟨a, x, r, rfl, ha, hx, hxp, hr⟩
  · refine .inl ⟨hl, Nat.lt_of_not_le fun hm => htwo ?_⟩
    have hlen : (h.take m).length ≤ w := by
      rw [List.length_take]
      omega
    have h1 := sscanf_one k hl (hp.take m) hlen blank_nil
    rwa [List.append_nil, ← hcut hm] at h1
  · have hlen : a.length + x.length + r.length + m ≤ w := by simpa [Nat.add_assoc] using hw
    by_cases hr' : r = []
    · subst hr'
      exfalso
      rcases Nat.lt_or_ge h.length m with hm | hm
      · have h1 : a ++ (x ++ []) ++ (h ++ t).take m = a ++ ((x ++ h) ++ t.take (m - h.length)) := by
          rw [hfull hm]
          simp
        have hxh : x ++ h ≠ [] := List.append_ne_nil_of_left_ne_nil hx h
        have he : Edge (t.take (m - h.length)) := by
          intro b hb
          cases t with
          | nil => simp at hb
          | cons c t =>
            cases hm' : m - h.length with
            | zero => omega
            | succ j =>
              rw [hm'] at hb
              exact hedge b hb
        cases k with
        | zero => cases hread
        | succ k =>
          rw [h1, sscanf_word k ha hxh (hxp.append hp)
            (by rw [List.length_append]; omega) he] at hread
          have := congrArg List.length (List.cons.inj hread).1
          rw [List.length_append] at this
          exact hx (List.eq_nil_of_length_eq_zero (by omega))
      · refine htwo ?_
        have hlen' : (x ++ h.take m).length ≤ w := by
          rw [List.length_append, List.length_take]
          omega
        have h1 := sscanf_one k ha (hxp.append (hp.take m)) hlen' blank_nil
        rw [hcut hm]
        simpa using h1
    · cases k with
      | zero => cases hread
      | succ k =>
        have h1 : a ++ (x ++ r) ++ (h ++ t).take m = a ++ (x ++ (r ++ (h ++ t).take m)) := by simp
        rw [h1, sscanf_word k ha hx hxp (by omega) (hr.append hr' _)] at hread
        obtain rfl := (List.cons.inj hread).1
        exact .inr ⟨a, r, rfl, ha, hr, hr'⟩

end Lib
