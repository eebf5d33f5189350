import Netchan.Auth.Form

/-!
# Records

The strings `key=value` of a form or of answers, from the sink to the arena.

* `sinkAll_ok`: what a sink holds that did not overflow.
* `unpack_packed`: `unpack` gives the strings back, one after the other.
* `keyOf_str`: a record matches its own key and no other, whatever its value is.
* `parseI32_fmtI32`: a number survives its decimal form.
-/

namespace Netchan.Auth

open Lib Idl

/-- A record before it is written. -/
structure Rec where
  key : Attr
  val : CStr
  deriving DecidableEq

/-! ## Keys -/

theorem attr_bytes (k : Attr) : 0 ∉ k.bytes ∧ '='.toUInt8 ∉ k.bytes := by
  cases k <;> decide

theorem attr_inj {k k' : Attr} (h : k.bytes = k'.bytes) : k = k' := by
  cases k <;> cases k' <;> first | rfl | exact absurd h (by decide)

/-- The record as a string. -/
def Rec.str (r : Rec) : CStr := ⟨record r.key r.val.val, by
  rw [record, List.mem_append, List.mem_cons]
  rintro (h | h | h)
  · exact (attr_bytes r.key).1 h
  · exact absurd h (by decide)
  · exact r.val.property h⟩

theorem takeWhile_record (k : Attr) (v : List UInt8) :
    (record k v).takeWhile (· ≠ '='.toUInt8) = k.bytes := by
  have hk : ∀ b ∈ k.bytes, decide (b ≠ '='.toUInt8) = true := by
    intro b hb
    refine decide_eq_true ?_
    rintro rfl
    exact (attr_bytes k).2 hb
  rw [record, List.takeWhile_append_of_pos hk]
  simp

/-- **A record matches its own key and no other.** -/
theorem keyOf_str (r : Rec) (k : Attr) : keyOf r.str k = if r.key = k then some r.val else none := by
  unfold keyOf
  dsimp only
  by_cases hk : r.key = k
  · subst hk
    have h1 : r.str.val.take r.key.bytes.length = r.key.bytes := List.take_left
    have h2 : byte r.str.val r.key.bytes.length = '='.toUInt8 := by
      simp [Rec.str, record, byte]
    have h3 : r.str.val.drop (r.key.bytes.length + 1) = r.val.val := by
      simp [Rec.str, record, List.drop_append]
    rw [if_pos rfl, if_pos ⟨h1, h2⟩]
    exact congrArg some (Subtype.ext h3)
  · rw [if_neg hk, if_neg]
    rintro ⟨h1, h2⟩
    -- the string would start with the other key and an `=`
    have h3 : r.str.val = record k (r.str.val.drop (k.bytes.length + 1)) := by
      have hlt : k.bytes.length < r.str.val.length := by
        by_contra hc
        have h4 : byte r.str.val k.bytes.length = 0 := by
          simp [byte, List.getElem?_eq_none (Nat.le_of_not_lt hc)]
        rw [h4] at h2
        exact absurd h2 (by decide)
      have h4 : r.str.val[k.bytes.length] = '='.toUInt8 := by
        simpa [byte, List.getElem?_eq_getElem hlt] using h2
      calc r.str.val = r.str.val.take k.bytes.length ++ r.str.val.drop k.bytes.length :=
            (List.take_append_drop _ _).symm
        _ = record k (r.str.val.drop (k.bytes.length + 1)) := by
          rw [h1, List.drop_eq_getElem_cons hlt, h4, record]
    have h5 := takeWhile_record r.key r.val.val
    rw [show record r.key r.val.val = r.str.val from rfl, h3, takeWhile_record] at h5
    exact hk (attr_inj h5).symm

/-! ## The sink -/

/-- The record in a sink. -/
def Rec.packed (r : Rec) : List UInt8 := wrLe16 r.str.val.length ++ r.str.val

/-- Records, one after the other. -/
def sinkAll (sk : Sink) (rs : List Rec) : Sink := rs.foldl (fun sk r => sinkPut sk r.key r.val.val) sk

theorem sinkAll_append (sk : Sink) (rs rs' : List Rec) :
    sinkAll sk (rs ++ rs') = sinkAll (sinkAll sk rs) rs' := List.foldl_append

theorem sinkPut_ok {sk : Sink} {r : Rec} (h : (sinkPut sk r.key r.val.val).err = false) :
    sk.err = false ∧ (sinkPut sk r.key r.val.val).buf = sk.buf ++ r.packed ∧
      r.str.val.length ≤ 0xffff ∧ (sinkPut sk r.key r.val.val).buf.length ≤ ncFormMaxMsg := by
  have hn : r.key.bytes.length + 1 + r.val.val.length = r.str.val.length := by
    simp only [Rec.str, record, List.length_append, List.length_cons]
    omega
  unfold sinkPut at h ⊢
  dsimp only at h ⊢
  rw [hn] at h ⊢
  split at h
  · rename_i he
    rw [he] at h
    cases h
  split at h
  · cases h
  rename_i he hfit
  rw [if_neg he, if_neg hfit]
  refine ⟨h, rfl, by omega, ?_⟩
  change (sk.buf ++ r.packed).length ≤ ncFormMaxMsg
  simp only [Rec.packed, wrLe16, List.length_append, List.length_cons, List.length_nil]
  omega

/-- **What a sink holds** that did not overflow. -/
theorem sinkAll_ok {sk : Sink} {rs : List Rec} (h : (sinkAll sk rs).err = false) :
    sk.err = false ∧ (sinkAll sk rs).buf = sk.buf ++ rs.flatMap Rec.packed ∧
      (∀ r ∈ rs, r.str.val.length ≤ 0xffff) ∧
      (sk.buf.length ≤ ncFormMaxMsg → (sinkAll sk rs).buf.length ≤ ncFormMaxMsg) := by
  induction rs generalizing sk with
  | nil => exact ⟨h, (List.append_nil _).symm, nofun, id⟩
  | cons r rs ih =>
    obtain ⟨h1, h2, h3, h4⟩ := @ih (sinkPut sk r.key r.val.val) h
    obtain ⟨h5, h6, h7, h8⟩ := sinkPut_ok h1
    refine ⟨h5, ?_, ?_, fun _ => h4 h8⟩
    · rw [List.flatMap_cons, ← List.append_assoc, ← h6]
      exact h2
    · intro q hq
      rcases List.mem_cons.1 hq with rfl | hq
      · exact h7
      · exact h3 q hq

/-! ## The arena -/

/-- The text of records in an arena. -/
def textOf (rs : List Rec) : List UInt8 := rs.flatMap fun r => r.str.val ++ [0]

theorem cstrs_textOf (rs : List Rec) : cstrs (textOf rs) = rs.map Rec.str := by
  rw [← cstrs_flatMap (rs.map Rec.str), List.flatMap_map]
  rfl

theorem length_textOf (rs : List Rec) :
    (textOf rs).length + rs.length = (rs.flatMap Rec.packed).length := by
  induction rs with
  | nil => rfl
  | cons r rs ih =>
    rw [textOf] at ih ⊢
    simp only [List.flatMap_cons, Rec.packed, wrLe16, List.length_append, List.length_cons,
      List.length_nil]
    omega

theorem unpackLoop_packed {rs : List Rec} (hrs : ∀ r ∈ rs, r.str.val.length ≤ 0xffff) {n : Nat}
    {ar : Arena} (hn : (rs.flatMap Rec.packed).length ≤ n)
    (hcap : ar.used + (textOf rs).length ≤ ar.cap) :
    unpackLoop n ar (rs.flatMap Rec.packed) =
      some { ar with used := ar.used + (textOf rs).length, text := ar.text ++ textOf rs } := by
  induction rs generalizing n ar with
  | nil =>
    cases n with
    | zero => simp [unpackLoop, textOf]
    | succ n => simp [unpackLoop, textOf]
  | cons r rs ih =>
    have hlen := hrs r (.head _)
    have hp : (List.flatMap Rec.packed (r :: rs)).length =
        2 + r.str.val.length + (rs.flatMap Rec.packed).length := by
      simp only [List.flatMap_cons, Rec.packed, wrLe16, List.length_append, List.length_cons,
        List.length_nil]
    have ht : (textOf (r :: rs)).length = r.str.val.length + 1 + (textOf rs).length := by
      simp only [textOf, List.flatMap_cons, List.length_append, List.length_singleton]
    rw [hp] at hn
    rw [ht] at hcap ⊢
    obtain ⟨m, rfl⟩ : ∃ m, n = m + 1 := ⟨n - 1, by omega⟩
    have har : arenaStr ar r.str.val = some
        { ar with used := ar.used + r.str.val.length + 1, text := ar.text ++ (r.str.val ++ [0]) } :=
      if_neg (by omega)
    have hrest := @ih (fun q hq => hrs q (.tail _ hq)) m
      { ar with used := ar.used + r.str.val.length + 1, text := ar.text ++ (r.str.val ++ [0]) }
      (by omega) (by dsimp only; omega)
    rw [List.flatMap_cons, Rec.packed, wrLe16]
    simp only [List.cons_append, List.nil_append, unpackLoop]
    rw [rdLe16_wrLe16 (by omega), if_neg (by simp), List.take_left, List.drop_left, har]
    dsimp only
    rw [hrest]
    simp [textOf, Nat.add_assoc]

/-- **A stringlist is unpacked** into its records. -/
theorem unpack_packed {rs : List Rec} (hrs : ∀ r ∈ rs, r.str.val.length ≤ 0xffff) {ar : Arena}
    (hcap : ar.used + (textOf rs).length ≤ ar.cap) :
    unpack ar (rs.flatMap Rec.packed) =
      some { ar with used := ar.used + (textOf rs).length, text := ar.text ++ textOf rs } :=
  unpackLoop_packed hrs (Nat.le_refl _) hcap

/-! ## Numbers -/

/-- A digit, as a byte. -/
def IsDigit (c : UInt8) : Prop := 48 ≤ c ∧ c ≤ 57

instance (c : UInt8) : Decidable (IsDigit c) := inferInstanceAs (Decidable (_ ∧ _))

theorem digit_range : ∀ d < 10, IsDigit (48 + UInt8.ofNat d) ∧ (48 + UInt8.ofNat d).toNat - 48 = d := by
  decide

theorem fmtDigits_digit {n u : Nat} : ∀ c ∈ fmtDigits n u, IsDigit c := by
  induction n generalizing u with
  | zero => exact nofun
  | succ n ih =>
    intro c hc
    rw [fmtDigits, List.mem_append, List.mem_singleton] at hc
    rcases hc with hc | rfl
    · split at hc
      · exact ih c hc
      · cases hc
    · exact (digit_range (u % 10) (Nat.mod_lt _ (by decide))).1

theorem fmtDigits_ne_nil (n u : Nat) : fmtDigits (n + 1) u ≠ [] := by
  rw [fmtDigits]
  exact List.append_ne_nil_of_right_ne_nil _ nofun

theorem fmtI32_nul (v : Int32) : 0 ∉ fmtI32 v := by
  intro h
  rw [fmtI32, List.mem_append] at h
  rcases h with h | h
  · split at h
    · exact absurd h (by decide)
    · cases h
  · exact absurd (fmtDigits_digit 0 h) (by decide)

/-- A number as a string. -/
def fmtStr (v : Int32) : CStr := ⟨fmtI32 v, fmtI32_nul v⟩

theorem parseDigits_concat (l : List UInt8) (c : UInt8) (v : Int32) :
    parseDigits v (l ++ [c]) = (parseDigits v l).bind fun w => parseDigits w [c] := by
  induction l generalizing v with
  | nil => rfl
  | cons b l ih =>
    rw [List.cons_append, parseDigits, parseDigits]
    split
    · rfl
    split
    · rfl
    · exact ih _

theorem parseDigits_digit {w d : Nat} (hw : w ≤ 214748364) (hd : d < 10) :
    parseDigits (.ofNat w) [48 + UInt8.ofNat d] = some (.ofNat (10 * w + d)) := by
  obtain ⟨⟨h1, h2⟩, h3⟩ := digit_range d hd
  have hv : ¬ Int32.ofNat w > 214748364 := by
    have h := @Int32.ofNat_lt_iff_lt 214748364 w (by decide) (by omega)
    intro hc
    exact absurd (h.1 hc) (by omega)
  rw [parseDigits, if_neg (by rw [not_or, UInt8.not_lt, UInt8.not_lt]; exact ⟨h1, h2⟩), if_neg hv, h3,
    parseDigits, Int32.ofNat_add, Int32.ofNat_mul, Int32.mul_comm]
  rfl

theorem parseDigits_fmtDigits {n u : Nat} (hu : u < 10 ^ (n + 1)) (hmax : u < 2 ^ 31) :
    parseDigits 0 (fmtDigits (n + 1) u) = some (.ofNat u) := by
  have hd : u % 10 < 10 := Nat.mod_lt _ (by decide)
  have hmax : u < 2147483648 := hmax
  induction n generalizing u with
  | zero =>
    rw [fmtDigits, if_neg (by omega), List.nil_append]
    have h := @parseDigits_digit 0 (u % 10) (by decide) hd
    rw [show 10 * 0 + u % 10 = u by omega] at h
    exact h
  | succ n ih =>
    rw [fmtDigits]
    split
    · rw [parseDigits_concat, ih (by rw [Nat.pow_succ] at hu; omega) (by omega)
        (Nat.mod_lt _ (by decide)) (by omega), Option.bind_some, parseDigits_digit (by omega) hd]
      rw [show 10 * (u / 10) + u % 10 = u by omega]
    · rw [List.nil_append]
      have h := @parseDigits_digit 0 (u % 10) (by decide) hd
      rw [show 10 * 0 + u % 10 = u by omega] at h
      exact h

/-- **A number survives its decimal form.** -/
theorem parseI32_fmtI32 {v : Int32} (hv : -2 ^ 31 < v.toInt) : parseI32 (fmtStr v) = some v := by
  have hlt := v.toInt_lt
  have hdig : parseDigits 0 (fmtDigits 10 v.toInt.natAbs) = some (.ofNat v.toInt.natAbs) :=
    parseDigits_fmtDigits (by omega) (by omega)
  have hne : fmtDigits 10 v.toInt.natAbs ≠ [] := fmtDigits_ne_nil _ _
  have hval : (fmtStr v).val = (if v < 0 then ['-'.toUInt8] else []) ++ fmtDigits 10 v.toInt.natAbs :=
    rfl
  unfold parseI32
  dsimp only
  by_cases h : v < 0
  · have h0 : v.toInt < 0 := Int32.lt_iff_toInt_lt.1 h
    have hneg : -Int32.ofNat v.toInt.natAbs = v := by
      rw [← Int32.ofInt_eq_ofNat, ← Int32.ofInt_neg, show -(v.toInt.natAbs : Int) = v.toInt by omega,
        Int32.ofInt_toInt]
    rw [if_pos h, List.singleton_append] at hval
    have hb : byte (fmtStr v).val 0 = '-'.toUInt8 := by rw [hval]; rfl
    have hdrop : (fmtStr v).val.drop 1 = fmtDigits 10 v.toInt.natAbs := by rw [hval]; rfl
    rw [if_pos hb, hdrop, if_neg hne, hdig, Option.map_some, if_pos hb, hneg]
  · have h0 : ¬ v.toInt < 0 := fun hc => h (Int32.lt_iff_toInt_lt.2 hc)
    have hpos : Int32.ofNat v.toInt.natAbs = v := by
      rw [← Int32.ofInt_eq_ofNat, show (v.toInt.natAbs : Int) = v.toInt by omega, Int32.ofInt_toInt]
    rw [if_neg h, List.nil_append] at hval
    have hb : byte (fmtStr v).val 0 ≠ '-'.toUInt8 := by
      rw [hval]
      cases hl : fmtDigits 10 v.toInt.natAbs with
      | nil => exact absurd hl hne
      | cons c l =>
        have hc : IsDigit c := fmtDigits_digit c (by rw [hl]; exact .head _)
        intro he
        rw [show c = '-'.toUInt8 from he] at hc
        exact absurd hc (by decide)
    rw [if_neg hb, hval, if_neg hne, hdig, Option.map_some, ← hval, if_neg hb, hpos]

end Netchan.Auth
