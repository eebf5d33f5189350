import Mathlib.Data.List.DropRight
import Mathlib.Data.List.Pairwise
import Netchan.Lib.Text

/-!
# Texts as awk programs read them

* `records`, `words`, `word`, `trim`: lines, blank-separated fields and what is around them.
* `Numbers`: what an awk makes of a text in arithmetic, how it compares and prints the result. Its
  arithmetic is not fixed here, so a theorem over `Numbers` is about every awk.
* `later`: the pairs of a double loop `for (j = 1; ...) for (k = j + 1; ...)`, and what it means
  that such a loop finds nothing (`flatMap_later`).

Characters are bytes, as in the C locale.
-/

namespace Lib.Awk

abbrev Text := List UInt8

/-! ## Texts -/

/-- Spaces and tabs. -/
def blank (b : UInt8) : Bool := b = 32 || b = 9

/-- The records of a text: its lines, without their newlines. -/
def records : Text → List Text
  | [] => []
  | b :: s =>
    if b = 10 then [] :: records s
    else match records s with
      | [] => [[b]]
      | r :: rs => (b :: r) :: rs

/-- `gsub(/^[ \t]+|[ \t]+$/, "")`. -/
def trim (s : Text) : Text := (s.dropWhile blank).rdropWhile blank

/-- The fields of a record. -/
def words (s : Text) : List Text := (s.splitOnP blank).filter fun w => w ≠ []

/-- `$n`, the empty text when there are fewer fields. -/
def word (n : Nat) (s : Text) : Text := ((words s)[n - 1]?).getD []

/-- `split(s, p, /[ \t]*=[ \t]*/)` of a trimmed text: `p[1]` and `p[2]`. -/
def splitEq (s : Text) : Text × Text :=
  ((s.takeWhile fun b => b ≠ 61).rdropWhile blank,
    ((((s.dropWhile fun b => b ≠ 61).drop 1).dropWhile blank).takeWhile fun b => b ≠ 61).rdropWhile
      blank)

def isUpper (b : UInt8) : Bool := 65 ≤ b && b ≤ 90

def isDigit (b : UInt8) : Bool := 48 ≤ b && b ≤ 57

/-- `toupper`. -/
def toUpper (s : Text) : Text := s.map fun b => if 97 ≤ b ∧ b ≤ 122 then b - 32 else b

/-- `s ~ /^-?[0-9]+$/`. -/
def isInteger (s : Text) : Bool :=
  let digits := if s.head? = some 45 then s.tail else s
  digits ≠ [] && digits.all isDigit

/-! ## Numbers -/

/-- The arithmetic of an awk. -/
structure Numbers (N : Type) where
  /-- `text + 0` -/
  ofText : Text → N
  /-- a constant of the program -/
  ofInt : Int → N
  /-- `a == b` -/
  eq : N → N → Bool
  /-- `a < b` -/
  lt : N → N → Bool
  /-- the integer that `%d` prints -/
  print : N → Int
  /-- whether input that reads so is compared as a number -/
  numeric : Text → Bool

/-- `a == b` of two input texts. -/
def Numbers.same {N : Type} (A : Numbers N) (a b : Text) : Bool :=
  if A.numeric a ∧ A.numeric b then A.eq (A.ofText a) (A.ofText b) else a = b

/-- What `%d` prints. -/
def Numbers.decimal {N : Type} (A : Numbers N) (n : N) : Text := ascii (toString (A.print n))

/-- Leading digits. -/
def natPrefix (s : Text) : Nat :=
  (s.takeWhile isDigit).foldl (fun n b => 10 * n + (b.toNat - 48)) 0

/-- Whole numbers: what an awk does with texts that are decimal integers below 2^53, if its `%d`
prints them in full. -/
def integers : Numbers Int where
  ofText s :=
    let s := s.dropWhile blank
    if s.head? = some 45 then -natPrefix s.tail else natPrefix s
  ofInt := id
  eq a b := a = b
  lt a b := a < b
  print := id
  numeric := isInteger

/-! ## Double loops -/

variable {α β : Type*}

/-- Each element with those after it. -/
def later : List α → List (α × List α)
  | [] => []
  | a :: l => (a, l) :: later l

/-- A double loop finds nothing: nothing in an element, nothing in a pair. -/
theorem flatMap_later {f : α → List β} {g : α → α → List β} {l : List α} :
    ((later l).flatMap fun p => f p.1 ++ p.2.flatMap (g p.1)) = [] ↔
      (∀ a ∈ l, f a = []) ∧ l.Pairwise fun a b => g a b = [] := by
  induction l with
  | nil => simp [later]
  | cons a l ih =>
    rw [later, List.flatMap_cons, List.append_eq_nil_iff, ih, List.append_eq_nil_iff,
      List.flatMap_eq_nil_iff, List.forall_mem_cons, List.pairwise_cons]
    constructor
    · intro ⟨⟨ha, hg⟩, hl, hp⟩
      exact ⟨⟨ha, hl⟩, hg, hp⟩
    · intro ⟨⟨ha, hl⟩, hg, hp⟩
      exact ⟨⟨ha, hg⟩, hl, hp⟩

end Lib.Awk
