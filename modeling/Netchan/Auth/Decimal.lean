import Mathlib.Data.List.Induction
import Mathlib.Data.Nat.Digits.Defs
import Netchan.Auth.Records
import Netchan.Lib.Text

/-!
# Decimal numbers of attributes

`Decimal s n` is a decimal number as a string: an optional `-` and digits, whose value is `n`.
`Checked.parseI32` is `parse_i32` with `int` arithmetic as C has it: a result that is no `int` is an
`Overflow`, not a number. Its guard looks at the digits before the last one, so the last digit can
still overflow. `parse_exact_iff`: it reads exactly the decimal numbers of the type on the strings
whose digits do not reach `2147483648` or `2147483649`, and reads `fmt_i32` back for all numbers but
the least.
-/

namespace Netchan.Auth

open Lib

/-! ## Decimal numbers -/

/-- The value of digits. -/
def decVal (ds : List UInt8) : Nat := Nat.ofDigits 10 (ds.reverse.map fun c => c.toNat - 48)

theorem decVal_concat (ds : List UInt8) (c : UInt8) :
    decVal (ds ++ [c]) = 10 * decVal ds + (c.toNat - 48) := by
  rw [decVal, List.reverse_append, List.reverse_singleton, List.singleton_append, List.map_cons,
    Nat.ofDigits_cons, decVal]
  omega

theorem decVal_le_append (ds es : List UInt8) : decVal ds ≤ decVal (ds ++ es) := by
  induction es using List.reverseRecOn with
  | nil => rw [List.append_nil]
  | append_singleton es c ih =>
    rw [← List.append_assoc, decVal_concat]
    omega

theorem decVal_fmtDigits {n u : Nat} (hu : u < 10 ^ (n + 1)) :
    decVal (fmtDigits (n + 1) u) = u := by
  have hdig := (digit_range (u % 10) (Nat.mod_lt _ (by decide))).2
  induction n generalizing u with
  | zero =>
    rw [fmtDigits, if_neg (by omega), decVal_concat, hdig]
    show 10 * 0 + u % 10 = u
    omega
  | succ n ih =>
    rw [fmtDigits, decVal_concat, hdig]
    split
    · rw [ih (by rw [Nat.pow_succ] at hu; omega) (digit_range _ (Nat.mod_lt _ (by decide))).2]
      omega
    · show 10 * 0 + u % 10 = u
      omega

/-- An optional `-` and digits. -/
inductive Decimal : List UInt8 → Int → Prop
  | pos {ds : List UInt8} (hne : ds ≠ []) (hd : ∀ c ∈ ds, IsDigit c) : Decimal ds (decVal ds)
  | neg {ds : List UInt8} (hne : ds ≠ []) (hd : ∀ c ∈ ds, IsDigit c) :
      Decimal ('-'.toUInt8 :: ds) (-decVal ds)

/-! ## `int` arithmetic -/

namespace Checked

/-- The result of an operation is no `int`. -/
structure Overflow

/-- The `int` of a result. -/
def checked (n : Int) : Except Overflow Int32 :=
  if -2 ^ 31 ≤ n ∧ n < 2 ^ 31 then .ok (.ofInt n) else .error ⟨⟩

/-- The loop of `parse_i32`. -/
def parseDigits : Int32 → List UInt8 → Except Overflow (Option Int32)
  | v, [] => .ok (some v)
  | v, c :: s =>
    if c < 48 ∨ 57 < c then .ok none
    else if v > 214748364 then .ok none
    else do
      let t ← checked (v.toInt * 10)
      let v ← checked (t.toInt + (c.toNat - 48))
      parseDigits v s

/-- `parse_i32`: what it returns and `*out` after it. -/
def parseI32 (s : CStr) (out : Int32) : Except Overflow (Bool × Int32) :=
  let neg := byte s.val 0 = '-'.toUInt8
  let s := if neg then s.val.drop 1 else s.val
  if s = [] then .ok (false, out)
  else
    (parseDigits 0 s).bind fun
      | none => .ok (false, out)
      | some v => (if neg then checked (-v.toInt) else .ok v).map fun v => (true, v)

theorem checked_ok {n : Int} (h1 : -2 ^ 31 ≤ n) (h2 : n < 2 ^ 31) :
    checked n = .ok (.ofInt n) ∧ (Int32.ofInt n).toInt = n :=
  ⟨if_pos ⟨h1, h2⟩, Int32.toInt_ofInt_of_le h1 h2⟩

/-! ## The loop -/

/-- After the digits `ds`, digits of `l` reach a number that the guard lets pass and that is no
`int`. -/
def Overflows (ds l : List UInt8) : Prop :=
  ∃ pre suf, l = pre ++ suf ∧ (∀ c ∈ pre, IsDigit c) ∧
    (decVal (ds ++ pre) = 2147483648 ∨ decVal (ds ++ pre) = 2147483649)

/-- What the loop makes of `l` after the digits `ds`. -/
inductive Reads (ds l : List UInt8) : Except Overflow (Option Int32) → Prop
  | overflow (h : Overflows ds l) : Reads ds l (.error ⟨⟩)
  | bad (h : ¬Overflows ds l) (hb : ¬((∀ c ∈ l, IsDigit c) ∧ decVal (ds ++ l) < 2147483648)) :
      Reads ds l (.ok none)
  | value (h : ¬Overflows ds l) (hd : ∀ c ∈ l, IsDigit c) {w : Int32}
      (hw : w.toInt = decVal (ds ++ l)) : Reads ds l (.ok (some w))

section
variable {ds l : List UInt8} {c : UInt8}

theorem overflows_nil (hds : decVal ds < 2147483648) : ¬Overflows ds [] := by
  intro ⟨pre, suf, he, _, hv⟩
  rw [(List.append_eq_nil_iff.1 he.symm).1, List.append_nil] at hv
  omega

theorem overflows_cons (hds : decVal ds < 2147483648) :
    Overflows ds (c :: l) ↔ IsDigit c ∧ Overflows (ds ++ [c]) l := by
  constructor
  · intro ⟨pre, suf, he, hd, hv⟩
    cases pre with
    | nil =>
      rw [List.append_nil] at hv
      omega
    | cons b pre =>
      obtain ⟨rfl, rfl⟩ := List.cons.inj he
      rw [List.append_cons] at hv
      exact ⟨hd c (.head _), pre, suf, rfl, fun b hb => hd b (.tail _ hb), hv⟩
  · intro ⟨hc, pre, suf, he, hd, hv⟩
    refine ⟨c :: pre, suf, by rw [he]; rfl, List.forall_mem_cons.2 ⟨hc, hd⟩, ?_⟩
    rw [List.append_cons]
    exact hv

/-- Beyond the guard no digits reach those numbers. -/
theorem not_overflows_big (hds : 2147483650 ≤ decVal ds) : ¬Overflows ds l := by
  intro ⟨pre, suf, _, _, hv⟩
  have := decVal_le_append ds pre
  omega

end

theorem parseDigits_reads (l : List UInt8) : ∀ (ds : List UInt8) (v : Int32),
    v.toInt = decVal ds → Reads ds l (parseDigits v l) := by
  induction l with
  | nil =>
    intro ds v hv
    have hlt : v.toInt < 2 ^ 31 := v.toInt_lt
    exact .value (overflows_nil (by omega)) (by simp) (by rw [hv, List.append_nil])
  | cons c l ih =>
    intro ds v hv
    have hlt : v.toInt < 2 ^ 31 := v.toInt_lt
    have hds : decVal ds < 2147483648 := by omega
    have hover := overflows_cons (l := l) (c := c) hds
    unfold parseDigits
    by_cases hc : c < 48 ∨ 57 < c
    · have hnot : ¬IsDigit c := fun hd => by
        rcases hc with hc | hc
        · exact absurd hd.1 (UInt8.not_le.2 hc)
        · exact absurd hd.2 (UInt8.not_le.2 hc)
      rw [if_pos hc]
      exact .bad (fun h => hnot (hover.1 h).1) fun h => hnot (h.1 c (.head _))
    rw [if_neg hc]
    have hdig : IsDigit c := by
      rw [not_or, UInt8.not_lt, UInt8.not_lt] at hc
      exact hc
    have hval := decVal_concat ds c
    have hd9 : c.toNat ≤ 57 := UInt8.le_iff_toNat_le.1 hdig.2
    have hd0 : 48 ≤ c.toNat := UInt8.le_iff_toNat_le.1 hdig.1
    by_cases hg : v > 214748364
    · have hgt : 214748364 < v.toInt := Int32.lt_iff_toInt_lt.1 hg
      have hbig : 2147483650 ≤ decVal (ds ++ [c]) := by omega
      rw [if_pos hg]
      refine .bad (fun h => not_overflows_big hbig (hover.1 h).2) fun h => ?_
      have hle := decVal_le_append (ds ++ [c]) l
      rw [← List.append_cons] at hle
      omega
    rw [if_neg hg]
    have hle : v.toInt ≤ 214748364 := Int.not_lt.1 fun h => hg (Int32.lt_iff_toInt_lt.2 h)
    obtain ⟨ht, htv⟩ := checked_ok (n := v.toInt * 10) (by omega) (by omega)
    rw [ht]
    show Reads ds (c :: l) ((checked ((Int32.ofInt (v.toInt * 10)).toInt + (c.toNat - 48))).bind
      fun v => parseDigits v l)
    rw [htv]
    have hsum : v.toInt * 10 + ((c.toNat : Int) - 48) = decVal (ds ++ [c]) := by omega
    rw [hsum]
    by_cases hfit : decVal (ds ++ [c]) < 2147483648
    · obtain ⟨hw, hwv⟩ := checked_ok (n := decVal (ds ++ [c])) (by omega) (by omega)
      rw [hw]
      show Reads ds (c :: l) (parseDigits (.ofInt (decVal (ds ++ [c]))) l)
      have hrest := ih (ds ++ [c]) _ hwv
      generalize parseDigits (.ofInt (decVal (ds ++ [c]))) l = o at hrest ⊢
      cases hrest with
      | overflow h => exact .overflow (hover.2 ⟨hdig, h⟩)
      | bad h hb =>
        refine .bad (fun h' => h (hover.1 h').2) fun h' => hb ⟨fun b hb => h'.1 b (.tail _ hb), ?_⟩
        rw [← List.append_cons]
        exact h'.2
      | value h hd hw =>
        refine .value (fun h' => h (hover.1 h').2) (List.forall_mem_cons.2 ⟨hdig, hd⟩) ?_
        rw [hw, ← List.append_cons]
    -- the guard has let the last digit pass
    · have herr : checked (decVal (ds ++ [c])) = .error ⟨⟩ := if_neg (by omega)
      rw [herr]
      refine .overflow (hover.2 ⟨hdig, [], l, rfl, by simp, ?_⟩)
      rw [List.append_nil]
      omega

/-! ## The whole string -/

/-- The string after an optional `-`. -/
def body (s : List UInt8) : List UInt8 := if byte s 0 = '-'.toUInt8 then s.drop 1 else s

theorem decimal_iff {s : List UInt8} {n : Int} : Decimal s n ↔
    body s ≠ [] ∧ (∀ c ∈ body s, IsDigit c) ∧
      n = if byte s 0 = '-'.toUInt8 then -(decVal (body s) : Int) else decVal (body s) := by
  have hdash : ¬IsDigit '-'.toUInt8 := by decide
  unfold body
  constructor
  · intro h
    cases h with
    | pos hne hd =>
      have hb : byte s 0 ≠ '-'.toUInt8 := by
        cases s with
        | nil => exact absurd rfl hne
        | cons c s =>
          intro he
          exact hdash (he ▸ hd c (.head _))
      rw [if_neg hb, if_neg hb]
      exact ⟨hne, hd, rfl⟩
    | @neg ds hne hd =>
      have hb : byte ('-'.toUInt8 :: ds) 0 = '-'.toUInt8 := rfl
      rw [if_pos hb, if_pos hb]
      exact ⟨hne, hd, rfl⟩
  · intro ⟨hne, hd, hn⟩
    by_cases hb : byte s 0 = '-'.toUInt8
    · rw [if_pos hb] at hne hd hn
      rw [hn, if_pos hb]
      cases s with
      | nil => exact absurd rfl hne
      | cons c s =>
        have hc : c = '-'.toUInt8 := hb
        rw [hc]
        exact .neg hne hd
    · rw [if_neg hb] at hne hd hn
      rw [hn, if_neg hb]
      exact .pos hne hd

/-- The number is an `int`. -/
def InRange (n : Int) : Prop := -2 ^ 31 ≤ n ∧ n < 2 ^ 31

/-- The string is read exactly: a decimal number of the type is stored, and anything else is
rejected without a change of `*out`. -/
structure ReadsExactly (s : CStr) : Prop where
  accepts : ∀ n, Decimal s.val n → InRange n → ∀ out, parseI32 s out = .ok (true, .ofInt n)
  rejects : (∀ n, Decimal s.val n → ¬InRange n) → ∀ out, parseI32 s out = .ok (false, out)

/-- No digits at the start of the string reach `2147483648` or `2147483649`. -/
def Tame (s : List UInt8) : Prop :=
  ∀ pre, pre <+: body s → (∀ c ∈ pre, IsDigit c) →
    decVal pre ≠ 2147483648 ∧ decVal pre ≠ 2147483649

theorem tame_iff {s : List UInt8} : Tame s ↔ ¬Overflows [] (body s) := by
  constructor
  · intro h ⟨pre, suf, he, hd, hv⟩
    have hne := h pre ⟨suf, he.symm⟩ hd
    exact hv.elim hne.1 hne.2
  · intro h pre ⟨suf, he⟩ hd
    exact ⟨fun hv => h ⟨pre, suf, he.symm, hd, .inl hv⟩,
      fun hv => h ⟨pre, suf, he.symm, hd, .inr hv⟩⟩

theorem parseI32_body {s : CStr} (h : body s.val ≠ []) (out : Int32) :
    parseI32 s out = (parseDigits 0 (body s.val)).bind fun o => o.elim (.ok (false, out)) fun v =>
      (if byte s.val 0 = '-'.toUInt8 then checked (-v.toInt) else .ok v).map
        fun v => (true, v) := by
  unfold parseI32
  show (if body s.val = [] then _ else _) = _
  rw [if_neg h]
  congr 1
  funext o
  cases o with
  | none => rfl
  | some v => rfl

theorem parseI32_overflow {s : CStr} (h : Overflows [] (body s.val)) (out : Int32) :
    parseI32 s out = .error ⟨⟩ := by
  have hne : body s.val ≠ [] := fun he => overflows_nil (by decide) (he ▸ h)
  have hread := parseDigits_reads (body s.val) [] 0 rfl
  rw [parseI32_body hne]
  generalize parseDigits 0 (body s.val) = o at hread
  cases hread with
  | overflow => rfl
  | bad hn => exact absurd h hn
  | value hn => exact absurd h hn

/-- **A tame string is read exactly.** -/
theorem parseI32_exact {s : CStr} (h : ¬Overflows [] (body s.val)) : ReadsExactly s := by
  by_cases hne : body s.val = []
  · have hrej : ∀ out, parseI32 s out = .ok (false, out) := fun out => if_pos hne
    exact ⟨fun n hn => absurd hne (decimal_iff.1 hn).1, fun _ => hrej⟩
  have hread := parseDigits_reads (body s.val) [] 0 rfl
  have heq := fun out => parseI32_body hne out
  generalize parseDigits 0 (body s.val) = o at hread heq
  cases hread with
  | overflow hn => exact absurd hn h
  | bad hn hb =>
    refine ⟨fun n hn' hr out => absurd ?_ hb, fun _ => heq⟩
    obtain ⟨-, hd, hv⟩ := decimal_iff.1 hn'
    refine ⟨hd, ?_⟩
    have hlo : -2147483648 ≤ n := hr.1
    have hhi : n < 2147483648 := hr.2
    rw [List.nil_append]
    split at hv
    -- the one number more on the negative side is among those that overflow
    · have hmin : decVal (body s.val) ≠ 2147483648 := fun he =>
        h ⟨body s.val, [], (List.append_nil _).symm, hd, .inl he⟩
      omega
    · omega
  | @value hn hd w hw =>
    rw [List.nil_append] at hw
    have hlt : w.toInt < 2 ^ 31 := w.toInt_lt
    by_cases hb : byte s.val 0 = '-'.toUInt8
    · have hdec : Decimal s.val (-decVal (body s.val)) := decimal_iff.2 ⟨hne, hd, (if_pos hb).symm⟩
      obtain ⟨hc, -⟩ := checked_ok (n := -w.toInt) (by omega) (by omega)
      refine ⟨fun n hn' _ out => ?_, fun hnone => absurd ?_ (hnone _ hdec)⟩
      · rw [heq, (decimal_iff.1 hn').2.2, if_pos hb, ← hw]
        show ((if _ then checked (-w.toInt) else _).map _) = _
        rw [if_pos hb, hc]
        rfl
      · exact ⟨by omega, by omega⟩
    · have hdec : Decimal s.val (decVal (body s.val)) := decimal_iff.2 ⟨hne, hd, (if_neg hb).symm⟩
      refine ⟨fun n hn' _ out => ?_, fun hnone => absurd ?_ (hnone _ hdec)⟩
      · rw [heq, (decimal_iff.1 hn').2.2, if_neg hb, ← hw, Int32.ofInt_toInt]
        show ((if _ then _ else Except.ok w).map _) = _
        rw [if_neg hb]
        rfl
      · exact ⟨by omega, by omega⟩

/-! ## Wrapping -/

theorem checked_eq_ok {n : Int} {v : Int32} (h : checked n = .ok v) :
    v = .ofInt n ∧ v.toInt = n := by
  unfold checked at h
  split at h
  · rename_i hr
    have hv := Except.ok.inj h
    exact ⟨hv.symm, by rw [← hv, Int32.toInt_ofInt_of_le hr.1 hr.2]⟩
  · cases h

/-- Where no operation overflows, the loop is the one that wraps. -/
theorem parseDigits_wraps : ∀ (l : List UInt8) (v : Int32) (o : Option Int32),
    parseDigits v l = .ok o → Auth.parseDigits v l = o
  | [], v, o, h => Except.ok.inj h
  | c :: l, v, o, h => by
    unfold parseDigits at h
    unfold Auth.parseDigits
    by_cases hc : c < 48 ∨ 57 < c
    · rw [if_pos hc] at h ⊢
      exact Except.ok.inj h
    rw [if_neg hc] at h ⊢
    by_cases hg : v > 214748364
    · rw [if_pos hg] at h ⊢
      exact Except.ok.inj h
    rw [if_neg hg] at h ⊢
    have hd0 : 48 ≤ c.toNat := UInt8.le_iff_toNat_le.1 (UInt8.not_lt.1 (not_or.1 hc).1)
    cases ht : checked (v.toInt * 10) with
    | error e =>
      rw [ht] at h
      cases h
    | ok t =>
      rw [ht] at h
      cases hw : checked (t.toInt + (c.toNat - 48)) with
      | error e =>
        have h' : (checked (t.toInt + (c.toNat - 48)) >>= fun v => parseDigits v l) = .ok o := h
        rw [hw] at h'
        cases h'
      | ok w =>
        have h' : (checked (t.toInt + (c.toNat - 48)) >>= fun v => parseDigits v l) = .ok o := h
        rw [hw] at h'
        have hnext : v * 10 + Int32.ofNat (c.toNat - 48) = w := by
          rw [(checked_eq_ok hw).1, (checked_eq_ok ht).2, Int32.ofInt_add, Int32.ofInt_mul,
            Int32.ofInt_toInt, ← Int32.ofInt_eq_ofNat, Int.ofNat_sub hd0]
          rfl
        rw [hnext]
        exact parseDigits_wraps l w o h'

/-- **Where no operation overflows, `parse_i32` is the one that wraps.** -/
theorem parseI32_wraps {s : CStr} {out : Int32} {r : Bool × Int32} (h : parseI32 s out = .ok r) :
    r = ((Auth.parseI32 s).isSome, (Auth.parseI32 s).getD out) := by
  have hdef : Auth.parseI32 s = if body s.val = [] then none
      else (Auth.parseDigits 0 (body s.val)).map
        fun v => if byte s.val 0 = '-'.toUInt8 then -v else v := rfl
  by_cases hne : body s.val = []
  · rw [hdef, if_pos hne]
    exact Except.ok.inj (h.symm.trans (if_pos hne))
  rw [parseI32_body hne] at h
  rw [hdef, if_neg hne]
  cases ho : parseDigits 0 (body s.val) with
  | error e =>
    rw [ho] at h
    cases h
  | ok o =>
    rw [ho] at h
    rw [parseDigits_wraps _ _ _ ho]
    cases o with
    | none => exact (Except.ok.inj h).symm
    | some v =>
      have h' : ((if byte s.val 0 = '-'.toUInt8 then checked (-v.toInt) else .ok v).map
        fun v => (true, v)) = .ok r := h
      by_cases hb : byte s.val 0 = '-'.toUInt8
      · rw [if_pos hb] at h'
        cases hv : checked (-v.toInt) with
        | error e =>
          rw [hv] at h'
          cases h'
        | ok w =>
          rw [hv] at h'
          have hneg : w = -v := by
            rw [(checked_eq_ok hv).1, Int32.ofInt_neg, Int32.ofInt_toInt]
          rw [Option.map_some, if_pos hb, ← hneg]
          exact (Except.ok.inj h').symm
      · rw [if_neg hb] at h'
        rw [Option.map_some, if_neg hb]
        exact (Except.ok.inj h').symm

end Checked

/-! ## The round trip -/

theorem fmtI32_eq_neg {v : Int32} (h : v.toInt < 0) :
    fmtI32 v = '-'.toUInt8 :: fmtDigits 10 v.toInt.natAbs := by
  rw [fmtI32, if_pos (Int32.lt_iff_toInt_lt.2 h)]
  rfl

theorem fmtI32_eq_pos {v : Int32} (h : 0 ≤ v.toInt) : fmtI32 v = fmtDigits 10 v.toInt.natAbs := by
  have hneg : ¬v < 0 := fun hc => by
    have : v.toInt < 0 := Int32.lt_iff_toInt_lt.1 hc
    omega
  rw [fmtI32, if_neg hneg]
  rfl

/-- **`fmt_i32` writes the number in decimal.** -/
theorem fmtI32_decimal (v : Int32) : Decimal (fmtI32 v) v.toInt := by
  have hlo : -2 ^ 31 ≤ v.toInt := v.le_toInt
  have hhi : v.toInt < 2 ^ 31 := v.toInt_lt
  have hval : decVal (fmtDigits 10 v.toInt.natAbs) = v.toInt.natAbs := decVal_fmtDigits (by omega)
  have hne := fmtDigits_ne_nil 9 v.toInt.natAbs
  have hd : ∀ c ∈ fmtDigits 10 v.toInt.natAbs, IsDigit c := fmtDigits_digit
  by_cases h : v.toInt < 0
  · have hdec := Decimal.neg hne hd
    rw [hval, ← fmtI32_eq_neg h] at hdec
    rwa [show -(v.toInt.natAbs : Int) = v.toInt by omega] at hdec
  · have hdec := Decimal.pos hne hd
    rw [hval, ← fmtI32_eq_pos (Int.not_lt.1 h)] at hdec
    rwa [show (v.toInt.natAbs : Int) = v.toInt by omega] at hdec

namespace Checked

/-- What `fmt_i32` writes is tame, but for the least number. -/
theorem fmtI32_overflows_iff (v : Int32) :
    Overflows [] (body (fmtI32 v)) ↔ v.toInt = -2147483648 := by
  have hlo : -2 ^ 31 ≤ v.toInt := v.le_toInt
  have hhi : v.toInt < 2 ^ 31 := v.toInt_lt
  obtain ⟨hne, hd, hv⟩ := decimal_iff.1 (fmtI32_decimal v)
  constructor
  · intro ⟨pre, suf, he, _, hp⟩
    have hle := decVal_le_append pre suf
    rw [← he] at hle
    rw [List.nil_append] at hp
    split at hv
    · omega
    · omega
  · intro hmin
    refine ⟨body (fmtI32 v), [], (List.append_nil _).symm, hd, .inl ?_⟩
    rw [List.nil_append]
    split at hv
    · omega
    · omega

/-- **Decimal conversion**: a string is read exactly if and only if no digits at its start reach
`2147483648` or `2147483649`, and `parse_i32` reads `fmt_i32` back for every number but the
least. -/
theorem parse_exact_iff (s : CStr) (v out : Int32) :
    (ReadsExactly s ↔ Tame s.val) ∧
    (parseI32 (fmtStr v) out = .ok (true, v) ↔ v ≠ Int32.minValue) := by
  constructor
  · rw [tame_iff]
    refine ⟨fun h hover => ?_, parseI32_exact⟩
    have herr := parseI32_overflow hover 0
    by_cases hdec : ∃ n, Decimal s.val n ∧ InRange n
    · obtain ⟨n, hn, hr⟩ := hdec
      rw [h.accepts n hn hr] at herr
      cases herr
    · rw [h.rejects fun n hn hr => hdec ⟨n, hn, hr⟩] at herr
      cases herr
  · have hmin : v = Int32.minValue ↔ v.toInt = -2147483648 := Int32.toInt_inj.symm
    rw [Ne, hmin, ← fmtI32_overflows_iff]
    constructor
    · intro h hover
      rw [parseI32_overflow (s := fmtStr v) hover] at h
      cases h
    · intro hover
      have hread := (parseI32_exact (s := fmtStr v) hover).accepts v.toInt (fmtI32_decimal v)
        ⟨v.le_toInt, v.toInt_lt⟩ out
      rwa [Int32.ofInt_toInt] at hread

/-- The guard lets the last digit of `2147483648` pass. -/
theorem last_digit_overflows :
    ¬((∀ s : CStr, ReadsExactly s) ∧ ∀ v out : Int32, parseI32 (fmtStr v) out = .ok (true, v)) := by
  intro ⟨h, _⟩
  have hnone : ∀ n, Decimal (ascii "2147483648") n → ¬InRange n := by
    intro n hn hr
    have hv := (decimal_iff.1 hn).2.2
    rw [if_neg (by decide), show decVal (body (ascii "2147483648")) = 2147483648 by
      decide] at hv
    have hhi : n < 2147483648 := hr.2
    omega
  have hrej := (h ⟨ascii "2147483648", by decide⟩).rejects hnone 0
  have herr : (parseI32 ⟨ascii "2147483648", by decide⟩ 0).toBool = false := by
    decide
  rw [hrej] at herr
  cases herr

-- arithmetic that wraps accepts it as the least number
example : Auth.parseI32 ⟨ascii "2147483648", by decide +kernel⟩ = some Int32.minValue := by
  decide

end Checked

end Netchan.Auth
