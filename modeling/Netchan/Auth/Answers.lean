import Netchan.Auth.Client
import Netchan.Auth.FormTrip

/-!
# Answers survive the wire

The lookups that the server's `submit` callback makes, and what they find of the values that
`nc_auth_submit` was given.

`valuesOf` lists the values that stand under a name; every lookup is made of it: the first value for
`value_of`, all of them for `nc_auth_value_choice`.

* `encodeAnswers_spec`: `encode_answers` packs the records `answerRecords` of the fields.
* `valuesOf_asked`, `valuesOf_unasked`: each name finds the values of its own field.
* `answers_survive`: what the callback reads is what the client gave.
-/

namespace Netchan.Auth

open Lib Idl Crypto

/-! ## Lookups -/

/-- The loop of `value_of`. -/
def valueLoop (name : CStr) : Bool → List CStr → Option CStr
  | _, [] => none
  | mine, s :: ss =>
    match keyOf s .name with
    | some v => valueLoop name (v = name) ss
    | none =>
      match if mine then keyOf s .value else none with
      | some v => some v
      | none => valueLoop name mine ss

/-- `value_of`; its callers have no use for `after`. -/
def valueOf (a : NcAuth) (name : Option CStr) : Option CStr :=
  match a.buf, name with
  | some _, some name => valueLoop name false (cstrs a.strings)
  | _, _ => none

/-- `nc_auth_value_text`. -/
def ncAuthValueText (a : NcAuth) (name : Option CStr) : Option CStr := valueOf a name

/-- `nc_auth_value_int`. -/
def ncAuthValueInt (a : NcAuth) (name : Option CStr) (fallback : Int32) : Int32 :=
  ((valueOf a name).bind parseI32).getD fallback

/-- `nc_auth_value_bool`. -/
def ncAuthValueBool (a : NcAuth) (name : Option CStr) (fallback : Bool) : Bool :=
  match valueOf a name with
  | none => fallback
  | some v => byte v.val 0 = '1'.toUInt8

/-- The loop of `nc_auth_value_choice`. -/
def choiceLoop (name : CStr) : Bool → UInt32 → List CStr → UInt32
  | _, mask, [] => mask
  | mine, mask, s :: ss =>
    match keyOf s .name with
    | some v => choiceLoop name (v = name) mask ss
    | none =>
      match (if mine then keyOf s .value else none).bind parseI32 with
      | some n =>
        choiceLoop name mine (if n ≥ 0 ∧ n < 32 then mask ||| (1 <<< n.toUInt32) else mask) ss
      | none => choiceLoop name mine mask ss

/-- `nc_auth_value_choice`. -/
def ncAuthValueChoice (a : NcAuth) (name : Option CStr) : UInt32 :=
  match a.buf, name with
  | some _, some name => choiceLoop name false 0 (cstrs a.strings)
  | _, _ => 0

/-! ## The values under a name -/

/-- The values that stand under a name. -/
def valuesOf (name : CStr) : Bool → List Rec → List CStr
  | _, [] => []
  | mine, r :: rs =>
    match r.key with
    | .name => valuesOf name (r.val = name) rs
    | .value => (if mine then [r.val] else []) ++ valuesOf name mine rs
    | _ => valuesOf name mine rs

/-- What `nc_auth_value_choice` does with a value. -/
def addChoice (mask : UInt32) (v : CStr) : UInt32 :=
  match parseI32 v with
  | some n => if n ≥ 0 ∧ n < 32 then mask ||| (1 <<< n.toUInt32) else mask
  | none => mask

section
variable {name : CStr} {mine : Bool}

/-- `value_of` finds the first value. -/
theorem valueLoop_eq (rs : List Rec) :
    valueLoop name mine (rs.map Rec.str) = (valuesOf name mine rs).head? := by
  induction rs generalizing mine with
  | nil => rfl
  | cons r rs ih =>
    obtain ⟨k, v⟩ := r
    cases k with
    | name => simp [valueLoop, valuesOf, keyOf_str, ih]
    | value => cases mine <;> simp [valueLoop, valuesOf, keyOf_str, ih]
    | _ => simp [valueLoop, valuesOf, keyOf_str, ih]

theorem choiceLoop_eq (mask : UInt32) (rs : List Rec) :
    choiceLoop name mine mask (rs.map Rec.str) = (valuesOf name mine rs).foldl addChoice mask := by
  induction rs generalizing mine mask with
  | nil => rfl
  | cons r rs ih =>
    obtain ⟨k, v⟩ := r
    cases k with
    | name => simp [choiceLoop, valuesOf, keyOf_str, ih]
    | value =>
      cases mine with
      | false => simp [choiceLoop, valuesOf, keyOf_str, ih]
      | true =>
        cases hp : parseI32 v with
        | none => simp [choiceLoop, valuesOf, keyOf_str, ih, addChoice, hp]
        | some n => simp [choiceLoop, valuesOf, keyOf_str, ih, addChoice, hp]
    | _ => simp [choiceLoop, valuesOf, keyOf_str, ih]

end

/-! ## The records of the answers -/

/-- The name under which a field is answered. -/
def Field.asked (fl : Field) : Option CStr := if typeIsProse fl.type then none else fl.name

def zeroStr : CStr := ⟨chars ['0'], by decide⟩

def emptyStr : CStr := ⟨[], zero_notMem_nil⟩

/-- The options that a mask chooses. -/
def chosenOptions (fl : Field) (mask : UInt32) : List Nat :=
  (List.range fl.options.length).filter fun o => mask &&& (1 <<< UInt32.ofNat o) ≠ 0

/-- The values of a field. -/
def answerValues (fl : Field) (v : FormValue) : List CStr :=
  match fl.type with
  | some .integer => [fmtStr v.number]
  | some .bool => [if v.on then oneStr else zeroStr]
  | some .choice =>
    if fl.flags &&& ncFfMulti ≠ 0 then (chosenOptions fl v.choice).map fun o => fmtStr (.ofNat o)
    else [fmtStr v.choice.toInt32]
  | _ => [v.text.getD emptyStr]

/-- A field that is answered with its text. -/
def Field.Textual (fl : Field) : Prop :=
  fl.type ≠ some .integer ∧ fl.type ≠ some .bool ∧ fl.type ≠ some .choice

instance (fl : Field) : Decidable fl.Textual := inferInstanceAs (Decidable (_ ∧ _))

/-- The records of a field: its name, and its values after it. -/
def answerRecords (fl : Field) (v : FormValue) : List Rec :=
  match fl.asked with
  | none => []
  | some n => ⟨.name, n⟩ :: (answerValues fl v).map fun v => ⟨.value, v⟩

/-- The records of some fields. -/
def answersRecords (xs : List (Field × FormValue)) : List Rec :=
  xs.flatMap fun x => answerRecords x.1 x.2

section
variable {f : Form} {fl : Field} {v : FormValue} {sk : Sink} {vals : List FormValue}

theorem answerValues_text (h : fl.Textual) (v : FormValue) :
    answerValues fl v = [v.text.getD emptyStr] := by
  obtain ⟨hi, hb, hc⟩ := h
  unfold answerValues
  split
  · exact absurd ‹_› hi
  · exact absurd ‹_› hb
  · exact absurd ‹_› hc
  · rfl

theorem sink_chosen (mask : UInt32) (os : List Nat) (sk : Sink) :
    os.foldl (fun sk o =>
      if mask &&& (1 <<< UInt32.ofNat o) ≠ 0 then sinkNum sk .value (.ofNat o) else sk) sk =
    sinkAll sk (((os.filter fun o => mask &&& (1 <<< UInt32.ofNat o) ≠ 0).map
      fun o => fmtStr (.ofNat o)).map fun v => ⟨.value, v⟩) := by
  induction os generalizing sk with
  | nil => rfl
  | cons o os ih =>
    rw [List.foldl_cons, ih, List.filter_cons]
    by_cases h : mask &&& (1 <<< UInt32.ofNat o) ≠ 0
    · rw [if_pos h, if_pos (decide_eq_true h)]
      rfl
    · rw [if_neg h, if_neg (by simpa using h)]

/-- **The records of a field** are what `encode_answers` writes of it. -/
theorem encodeAnswer_eq : encodeAnswer sk fl v = sinkAll sk (answerRecords fl v) := by
  unfold encodeAnswer answerRecords Field.asked
  by_cases hprose : typeIsProse fl.type = true
  · rw [if_pos (.inl hprose), if_pos hprose]
    rfl
  rw [if_neg hprose]
  cases hn : fl.name with
  | none => exact if_pos (.inr rfl)
  | some n =>
    rw [if_neg (by rw [not_or]; exact ⟨hprose, nofun⟩)]
    change _ = sinkAll (sinkStr sk .name (some n)) _
    generalize sinkStr sk .name (some n) = sk
    dsimp only
    split
    · rename_i ht
      rw [answerValues, ht]
      rfl
    · rename_i ht
      rw [answerValues, ht]
      cases v.on with
      | false => rfl
      | true => rfl
    · rename_i ht
      rw [answerValues, ht]
      dsimp only
      split
      · exact sink_chosen v.choice _ sk
      · rfl
    · rename_i hi hb hc
      rw [answerValues_text ⟨hi, hb, hc⟩]
      cases v.text with
      | none => rfl
      | some t => rfl

theorem encodeAnswers_sink (xs : List (Field × FormValue)) :
    xs.foldl (fun sk x => encodeAnswer sk x.1 x.2) sk = sinkAll sk (answersRecords xs) := by
  induction xs generalizing sk with
  | nil => rfl
  | cons x xs ih => rw [List.foldl_cons, ih, encodeAnswer_eq, ← sinkAll_append]; rfl

/-- **What `encode_answers` writes**: one field of records. -/
theorem encodeAnswers_spec {msg : List UInt8} (h : encodeAnswers f vals ncFormMaxMsg = some msg) :
    msg = msgIaSubmit ::
        tagged (fAnswers, (answersRecords (f.fields.zip vals)).flatMap Rec.packed) ∧
      (∀ r ∈ answersRecords (f.fields.zip vals), r.str.val.length ≤ 0xffff) ∧
      ((answersRecords (f.fields.zip vals)).flatMap Rec.packed).length ≤ ncFormMaxMsg ∧
      msg.length ≤ ncFormMaxMsg := by
  unfold encodeAnswers at h
  dsimp only at h
  rw [encodeAnswers_sink] at h
  split at h
  · cases h
  rename_i herr
  simp only [not_or, Bool.not_eq_true] at herr
  obtain ⟨-, hbuf, hlens, hmax⟩ := sinkAll_ok herr.1
  have hmax := hmax (Nat.zero_le _)
  rw [List.nil_append] at hbuf
  rw [hbuf] at h hmax
  obtain ⟨hmsg, hlen⟩ := writeTagBytes_eq h
  exact ⟨hmsg, hlens, hmax, hlen⟩

/-- **What `decode_answers` makes of them**: the same records, one after the other. -/
theorem decodeAnswers_spec {msg : List UInt8} {cap : Nat}
    (h : encodeAnswers f vals ncFormMaxMsg = some msg) (hcap : msg.length ≤ cap) :
    decodeAnswers cap msg = some (textOf (answersRecords (f.fields.zip vals))) := by
  obtain ⟨hmsg, hlens, hmax, -⟩ := encodeAnswers_spec h
  generalize answersRecords (f.fields.zip vals) = rs at *
  simp only [ncFormMaxMsg] at hmax
  have hread := @readLoop_fields _ (answersBody msg) msg msg.length none (fun _ x => some x.2)
    [(fAnswers, rs.flatMap Rec.packed)] ?_ ?_ [msgIaSubmit] (by rw [hmsg]; simp) (by rw [hmsg]; simp)
  · have htext := length_textOf rs
    have hroom : (rs.flatMap Rec.packed).length ≤ cap := by
      rw [hmsg, List.length_cons, length_tagged] at hcap
      dsimp only at hcap
      omega
    have he := @unpack_packed rs hlens { cap } (by dsimp only; omega)
    unfold decodeAnswers
    rw [show readTags answersBody msg none = some (some (rs.flatMap Rec.packed)) from hread]
    simp only [Option.bind_eq_bind, Option.bind_some, he, List.nil_append]
  · intro o x hx pos pos' hr
    rw [List.mem_singleton.1 hx] at hr ⊢
    rw [answersBody, if_pos ⟨rfl, rfl⟩, hr]
    rfl
  · intro x hx
    rw [List.mem_singleton.1 hx]
    exact ⟨(by decide : fAnswers < 32), by dsimp only; omega⟩

end

/-! ## Each name finds its own field -/

section
variable {fl : Field} {v : FormValue} {name : CStr}

theorem valuesOf_values (mine : Bool) (vs : List CStr) (rs : List Rec) :
    valuesOf name mine (vs.map (fun v => ⟨.value, v⟩) ++ rs) =
      (if mine then vs else []) ++ valuesOf name mine rs := by
  induction vs with
  | nil => simp
  | cons v vs ih =>
    rw [List.map_cons, List.cons_append, valuesOf, ih]
    cases mine <;> rfl

theorem valuesOf_answer (mine : Bool) {n : CStr} (h : fl.asked = some n) (rs : List Rec) :
    valuesOf name mine (answerRecords fl v ++ rs) =
      (if n = name then answerValues fl v else []) ++ valuesOf name (n = name) rs := by
  rw [answerRecords, h]
  change valuesOf name (n = name) (_ ++ rs) = _
  rw [valuesOf_values]
  simp only [decide_eq_true_eq]

theorem valuesOf_prose (mine : Bool) (h : fl.asked = none) (rs : List Rec) :
    valuesOf name mine (answerRecords fl v ++ rs) = valuesOf name mine rs := by
  rw [answerRecords, h]
  rfl

theorem answersRecords_cons (x : Field × FormValue) (xs : List (Field × FormValue)) :
    answersRecords (x :: xs) = answerRecords x.1 x.2 ++ answersRecords xs := List.flatMap_cons

/-- **A name that was not asked for** finds nothing. -/
theorem valuesOf_unasked {xs : List (Field × FormValue)} (mine : Bool)
    (h : name ∉ (xs.map Prod.fst).filterMap Field.asked) : valuesOf name mine (answersRecords xs) = [] := by
  induction xs generalizing mine with
  | nil => rfl
  | cons x xs ih =>
    rw [answersRecords_cons]
    cases hx : x.1.asked with
    | none =>
      rw [List.map_cons, List.filterMap_cons_none hx] at h
      rw [valuesOf_prose mine hx]
      exact ih mine h
    | some n =>
      rw [List.map_cons, List.filterMap_cons_some hx, List.mem_cons, not_or] at h
      rw [valuesOf_answer mine hx, if_neg (Ne.symm h.1)]
      exact ih _ h.2

/-- **The name of a field** finds its values, and no others. -/
theorem valuesOf_asked {xs : List (Field × FormValue)} (mine : Bool)
    (hd : ((xs.map Prod.fst).filterMap Field.asked).Nodup) (hm : (fl, v) ∈ xs) (hn : fl.asked = some name) :
    valuesOf name mine (answersRecords xs) = answerValues fl v := by
  induction xs generalizing mine with
  | nil => cases hm
  | cons x xs ih =>
    rw [answersRecords_cons]
    cases hx : x.1.asked with
    | none =>
      rw [List.map_cons, List.filterMap_cons_none hx] at hd
      rw [valuesOf_prose mine hx]
      rcases List.mem_cons.1 hm with rfl | hm
      · rw [hn] at hx
        cases hx
      · exact ih mine hd hm
    | some n =>
      rw [List.map_cons, List.filterMap_cons_some hx, List.nodup_cons] at hd
      rw [valuesOf_answer mine hx]
      rcases List.mem_cons.1 hm with rfl | hm
      · obtain rfl := Option.some.inj (hx.symm.trans hn)
        rw [if_pos rfl, valuesOf_unasked _ hd.1, List.append_nil]
      · have hne : n ≠ name := by
          intro he
          exact hd.1 (List.mem_filterMap.2 ⟨fl, List.mem_map_of_mem hm, he ▸ hn⟩)
        rw [if_neg hne]
        exact ih _ hd.2 hm

end

/-! ## The bits of a choice -/

theorem testBit_shift {o : Nat} (ho : o < 32) (k : Nat) :
    (1 <<< UInt32.ofNat o : UInt32).toNat.testBit k = decide (o = k) := by
  have h : (1 <<< UInt32.ofNat o : UInt32).toNat = 2 ^ o := by
    rw [UInt32.toNat_shiftLeft, UInt32.toNat_ofNat_of_lt' (Nat.lt_trans ho (by decide)),
      Nat.mod_eq_of_lt ho, UInt32.toNat_one, Nat.one_shiftLeft,
      Nat.mod_eq_of_lt (Nat.pow_lt_pow_right (by decide) ho)]
  rw [h, Nat.testBit_two_pow]

theorem chooses_iff {mask : UInt32} {o : Nat} (ho : o < 32) :
    mask &&& (1 <<< UInt32.ofNat o) ≠ 0 ↔ mask.toNat.testBit o = true := by
  rw [Ne, ← UInt32.toNat_inj, UInt32.toNat_and]
  constructor
  · intro h
    by_contra hb
    refine h (Nat.eq_of_testBit_eq fun k => ?_)
    rw [Nat.testBit_and, testBit_shift ho]
    by_cases hk : o = k
    · subst hk
      simpa using hb
    · simp [hk]
  · intro hb h
    have hk : (mask.toNat &&& (1 <<< UInt32.ofNat o : UInt32).toNat).testBit o = false := by
      rw [h]
      exact Nat.zero_testBit o
    rw [Nat.testBit_and, testBit_shift ho, hb, decide_eq_true rfl] at hk
    cases hk

theorem addChoice_num (mask : UInt32) {o : Nat} (ho : o < 32) (k : Nat) :
    (addChoice mask (fmtStr (.ofNat o))).toNat.testBit k = (mask.toNat.testBit k || decide (o = k)) := by
  have ht : (Int32.ofNat o).toInt = o := Int32.toInt_ofNat_of_lt (by omega)
  have hr : Int32.ofNat o ≥ 0 ∧ Int32.ofNat o < 32 := by
    refine ⟨Int32.le_iff_toInt_le.2 ?_, Int32.lt_iff_toInt_lt.2 ?_⟩
    · rw [ht]
      exact Int.natCast_nonneg o
    · rw [ht]
      exact Int.ofNat_lt.2 ho
  rw [addChoice, parseI32_fmtI32 (by rw [ht]; omega)]
  dsimp only
  rw [if_pos hr]
  change (mask ||| 1 <<< UInt32.ofNat o).toNat.testBit k = _
  rw [UInt32.toNat_or, Nat.testBit_or, testBit_shift ho]

theorem addChoice_nums {os : List Nat} (hos : ∀ o ∈ os, o < 32) (mask : UInt32) (k : Nat) :
    ((os.map fun o => fmtStr (.ofNat o)).foldl addChoice mask).toNat.testBit k =
      (mask.toNat.testBit k || decide (k ∈ os)) := by
  induction os generalizing mask with
  | nil => simp
  | cons o os ih =>
    rw [List.map_cons, List.foldl_cons, ih (fun q hq => hos q (.tail _ hq)),
      addChoice_num mask (hos o (.head _)), Bool.or_assoc]
    congr 1
    simp only [List.mem_cons, Bool.decide_or, eq_comm]

/-! ## A decoded form -/

/-- No field of the form has more options than are allowed. -/
def Fill.Few (fi : Fill) : Prop :=
  ∀ fl ∈ fi.done ++ fi.cur.toList, fl.options.length ≤ ncFormMaxOptions

theorem setAttr_options {fl fl' : Field} {s : CStr} (h : fl.setAttr s = some fl') :
    fl'.options = fl.options := by
  unfold Field.setAttr at h
  repeat'
    first
    | (obtain rfl := Option.some.inj h; rfl)
    | cases h
    | split at h

theorem Fill.Few.replace {fi : Fill} {fl fl' : Field} {errs : List FormError} (hf : fi.Few)
    (h : fi.cur = some fl → fl'.options.length ≤ ncFormMaxOptions) (hcur : fi.cur = some fl) :
    ({ fi with cur := some fl', errors := errs } : Fill).Few := by
  intro g hg
  rcases List.mem_append.1 hg with hg | hg
  · exact hf g (List.mem_append_left _ hg)
  · rw [List.mem_singleton.1 hg]
    exact h hcur

theorem fillStep_few {fi fi' : Fill} {s : CStr} (hf : fi.Few) (h : fillStep fi s = some fi') :
    fi'.Few := by
  unfold fillStep at h
  split at h
  · -- a new field has none
    split at h
    · cases h
    obtain rfl := Option.some.inj h
    intro g hg
    rcases List.mem_append.1 hg with hg | hg
    · exact hf g hg
    · rw [List.mem_singleton.1 hg]
      exact Nat.zero_le _
  split at h
  · obtain rfl := Option.some.inj h
    exact hf
  rename_i fl hcur
  have hfl : fl.options.length ≤ ncFormMaxOptions :=
    hf fl (List.mem_append_right _ (by rw [hcur]; exact .head _))
  split at h
  · rename_i fl' hset
    obtain rfl := Option.some.inj h
    exact hf.replace (fun _ => by rw [setAttr_options hset]; exact hfl) hcur
  split at h
  · split at h
    · cases h
    rename_i hlt
    obtain rfl := Option.some.inj h
    refine hf.replace (fun _ => ?_) hcur
    rw [List.length_append, List.length_singleton]
    omega
  split at h
  · obtain rfl := Option.some.inj h
    exact hf.replace (fun _ => hfl) hcur
  · obtain rfl := Option.some.inj h
    exact hf

theorem fillLoop_few {ss : List CStr} {fi fi' : Fill} (hf : fi.Few) (h : fillLoop fi ss = some fi') :
    fi'.Few := by
  induction ss generalizing fi with
  | nil =>
    obtain rfl := Option.some.inj h
    exact hf
  | cons s ss ih =>
    rw [fillLoop] at h
    cases hs : fillStep fi s with
    | none =>
      rw [hs] at h
      cases h
    | some fi1 =>
      rw [hs] at h
      exact ih (fillStep_few hf hs) h

/-- **A decoded field has at most as many options** as are allowed. -/
theorem decodeForm_options {cap : Nat} {msg text : List UInt8} {f : Form}
    (h : decodeForm cap msg = some (f, text)) :
    ∀ fl ∈ f.fields, fl.options.length ≤ ncFormMaxOptions := by
  unfold decodeForm at h
  obtain ⟨p, -, h⟩ := Option.bind_eq_some_iff.1 h
  obtain ⟨ar1, -, h⟩ := Option.bind_eq_some_iff.1 h
  obtain ⟨ar2, -, h⟩ := Option.bind_eq_some_iff.1 h
  have hstart : ({} : Fill).Few := fun fl hfl => absurd hfl List.not_mem_nil
  dsimp only at h
  split at h
  all_goals
    obtain ⟨ar3, -, h⟩ := Option.bind_eq_some_iff.1 h
    split at h
    · cases h
    obtain ⟨ar4, -, h⟩ := Option.bind_eq_some_iff.1 h
    obtain ⟨ar5, -, h⟩ := Option.bind_eq_some_iff.1 h
    obtain ⟨ar6, -, h⟩ := Option.bind_eq_some_iff.1 h
    obtain ⟨fi, hfill, h⟩ := Option.bind_eq_some_iff.1 h
    obtain ⟨rfl, -⟩ := Prod.mk.inj (Option.some.inj h)
    exact fillLoop_few hstart hfill

/-! ## What the callback reads -/

/-- The struct as the callback `submit` sees it. -/
def NcAuth.answered (a : NcAuth) (strings : List UInt8) : NcAuth := { a with strings }

/-- What is read of a field under its name. -/
structure Reads (a : NcAuth) (name : CStr) (fl : Field) (v : FormValue) : Prop where
  text : fl.Textual → ncAuthValueText a name = some (v.text.getD emptyStr)
  int : fl.type = some .integer → ∀ fallback, ncAuthValueInt a name fallback = v.number
  bool : fl.type = some .bool → ∀ fallback, ncAuthValueBool a name fallback = v.on
  single : fl.type = some .choice → fl.flags &&& ncFfMulti = 0 → ∀ k,
    (ncAuthValueChoice a name).toNat.testBit k = decide (v.choice.toNat = k)
  multi : fl.type = some .choice → fl.flags &&& ncFfMulti ≠ 0 → ∀ k,
    (ncAuthValueChoice a name).toNat.testBit k =
      (decide (k < fl.options.length) && v.choice.toNat.testBit k)

/-- What is read under a name that was not asked for. -/
structure Absent (a : NcAuth) (name : Option CStr) : Prop where
  text : ncAuthValueText a name = none
  int : ∀ fallback, ncAuthValueInt a name fallback = fallback
  bool : ∀ fallback, ncAuthValueBool a name fallback = fallback
  choice : ncAuthValueChoice a name = 0

section
variable {a : NcAuth} {cap : Nat} {rs : List Rec} {name : CStr}

theorem valueOf_records (hbuf : a.buf = some cap) (name : CStr) :
    valueOf (a.answered (textOf rs)) name = (valuesOf name false rs).head? := by
  unfold valueOf NcAuth.answered
  dsimp only
  rw [hbuf, cstrs_textOf, ← valueLoop_eq]

theorem choice_records (hbuf : a.buf = some cap) (name : CStr) :
    ncAuthValueChoice (a.answered (textOf rs)) name = (valuesOf name false rs).foldl addChoice 0 := by
  unfold ncAuthValueChoice NcAuth.answered
  dsimp only
  rw [hbuf, cstrs_textOf, ← choiceLoop_eq]

/-- **The values of a field** are read as they were given. -/
theorem reads_values {fl : Field} {v : FormValue} (hbuf : a.buf = some cap)
    (hvals : valuesOf name false rs = answerValues fl v)
    (hopts : fl.options.length ≤ ncFormMaxOptions)
    (hnum : fl.type = some .integer → -2 ^ 31 < v.number.toInt)
    (hone : fl.type = some .choice → fl.flags &&& ncFfMulti = 0 → v.choice < 32) :
    Reads (a.answered (textOf rs)) name fl v := by
  have hfirst := @valueOf_records a cap rs hbuf name
  have hall := @choice_records a cap rs hbuf name
  rw [hvals] at hfirst hall
  refine ⟨?_, ?_, ?_, ?_, ?_⟩
  · intro ht
    rw [ncAuthValueText, hfirst, answerValues_text ht]
    rfl
  · intro ht fallback
    have hv : answerValues fl v = [fmtStr v.number] := by rw [answerValues, ht]
    rw [ncAuthValueInt, hfirst, hv, List.head?_cons, Option.bind_some, parseI32_fmtI32 (hnum ht)]
    rfl
  · intro ht fallback
    have hv : answerValues fl v = [if v.on then oneStr else zeroStr] := by rw [answerValues, ht]
    rw [ncAuthValueBool, hfirst, hv, List.head?_cons]
    cases v.on with
    | false => rfl
    | true => rfl
  · intro ht hm k
    have hlt : v.choice.toNat < 32 := UInt32.lt_iff_toNat_lt.1 (hone ht hm)
    have hi : v.choice.toInt32 = .ofNat v.choice.toNat := by
      rw [← UInt32.toInt32_ofNat', UInt32.ofNat_toNat]
    have hv : answerValues fl v = [v.choice.toNat].map fun o => fmtStr (.ofNat o) := by
      rw [answerValues, ht]
      dsimp only
      rw [if_neg (not_not.2 hm), hi]
      rfl
    rw [hall, hv, addChoice_nums (by simpa using hlt)]
    simp [eq_comm]
  · intro ht hm k
    have hv : answerValues fl v = (chosenOptions fl v.choice).map fun o => fmtStr (.ofNat o) := by
      rw [answerValues, ht]
      exact if_pos hm
    have hlt : ∀ o < fl.options.length, o < 32 := fun o ho => by
      simp only [ncFormMaxOptions] at hopts
      omega
    have hmem : k ∈ chosenOptions fl v.choice ↔
        k < fl.options.length ∧ v.choice.toNat.testBit k = true := by
      rw [chosenOptions, List.mem_filter, List.mem_range, decide_eq_true_iff]
      exact and_congr_right fun hk => chooses_iff (hlt k hk)
    have hos : ∀ o ∈ chosenOptions fl v.choice, o < 32 := fun o ho =>
      hlt o (List.mem_range.1 (List.mem_filter.1 ho).1)
    rw [hall, hv, addChoice_nums hos, UInt32.toNat_zero, Nat.zero_testBit, Bool.false_or,
      decide_eq_decide.2 hmem, Bool.decide_and, Bool.decide_eq_true]

theorem absent_values (hbuf : a.buf = some cap) {name : Option CStr}
    (h : ∀ n, name = some n → valuesOf n false rs = []) :
    Absent (a.answered (textOf rs)) name := by
  have hnone : valueOf (a.answered (textOf rs)) name = none ∧
      ncAuthValueChoice (a.answered (textOf rs)) name = 0 := by
    cases name with
    | none =>
      simp only [valueOf, ncAuthValueChoice, NcAuth.answered, hbuf, and_self]
    | some n => rw [valueOf_records hbuf, choice_records hbuf, h n rfl]; exact ⟨rfl, rfl⟩
  refine ⟨hnone.1, fun fallback => ?_, fun fallback => ?_, hnone.2⟩
  · rw [ncAuthValueInt, hnone.1]
    rfl
  · rw [ncAuthValueBool, hnone.1]

end

/-! ## From the client to the callback -/

section
variable {P : Monocypher} {env : Env} {a : NcAuth} {msg : List UInt8}

theorem serverFeed_ia (h : byte msg 0 = msgIaBegin ∨ byte msg 0 = msgIaSubmit) :
    serverFeed P env a msg = iaServer env a msg := by
  have hne (t : UInt8) (h1 : msgIaBegin ≠ t) (h2 : msgIaSubmit ≠ t) : byte msg 0 ≠ t := by
    rcases h with h | h
    · rwa [h]
    · rwa [h]
  unfold serverFeed
  dsimp only
  rw [if_neg (hne _ (by decide) (by decide)), if_neg (hne _ (by decide) (by decide)),
    if_neg (hne _ (by decide) (by decide))]

/-- `nc_auth_submit` sends what `encode_answers` wrote. -/
theorem submit_sends {vals : List FormValue} (h : .emit msg ∈ (ncAuthSubmit a (some vals)).2) :
    encodeAnswers a.form vals ncFormMaxMsg = some msg := by
  unfold ncAuthSubmit at h
  split at h
  · cases h
  dsimp only at h
  cases he : encodeAnswers a.form vals ncFormMaxMsg with
  | none =>
    rw [he] at h
    cases h
  | some m =>
    rw [he] at h
    simp only [emit] at h
    split at h
    · rw [Act.emit.inj (List.mem_singleton.1 h)]
    · cases h

theorem submit_emits {vals : List FormValue} (hs : a.server = false) (hn : a.need = .form)
    (hsend : a.cbs.send = true) (h : encodeAnswers a.form vals ncFormMaxMsg = some msg) :
    (ncAuthSubmit a (some vals)).2 = [.emit msg] := by
  unfold ncAuthSubmit
  rw [if_neg (by simp [hs, hn])]
  dsimp only
  rw [h]
  exact if_pos hsend

/-- The answers reach the callback as their records. -/
theorem submit_delivered {f : Form} {vals : List FormValue} {cap : Nat} (hs : a.server = true)
    (hp : a.state = .pending) (hi : a.iaMethod ≠ 0) (hcb : a.cbs.submit = true)
    (hbuf : a.buf = some cap) (hcap : msg.length ≤ cap)
    (h : encodeAnswers f vals ncFormMaxMsg = some msg) :
    ncAuthFeed P env a msg =
      (true, iaSubmit env a (textOf (answersRecords (f.fields.zip vals)))) := by
  obtain ⟨hmsg, -, -, hlen⟩ := encodeAnswers_spec h
  have hkind : byte msg 0 = msgIaSubmit := by rw [hmsg]; rfl
  have hfits : Fits msg := ⟨by rw [hmsg]; simp, by rw [hkind]; exact hlen⟩
  refine feed_server hs hp hfits ?_
  rw [serverFeed_ia (.inr hkind), iaServer, if_neg (by rw [hkind]; decide), if_pos hkind,
    if_neg (by rw [not_or]; exact ⟨hi, by simp [hcb]⟩), hbuf, Option.bind_some,
    decodeAnswers_spec h hcap]
  rfl

end

/-- **Answers survive the wire**: for every decoded form whose answered fields have names of their own,
the server's callback reads of each field what the client gave, and nothing under any other name. -/
theorem answers_survive {P : Monocypher} {a b : NcAuth} {cap cap' : Nat} {offer text msg : List UInt8}
    {vals : List FormValue} (hform : decodeForm cap offer = some (a.form, text))
    (hnames : (a.form.fields.filterMap Field.asked).Nodup)
    (hvals : vals.length = a.form.fields.length)
    (hnum : ∀ x ∈ a.form.fields.zip vals, x.1.type = some .integer → -2 ^ 31 < x.2.number.toInt)
    (hone : ∀ x ∈ a.form.fields.zip vals, x.1.type = some .choice → x.1.flags &&& ncFfMulti = 0 →
      x.2.choice < 32)
    (hsent : .emit msg ∈ (ncAuthSubmit a (some vals)).2)
    (hs : b.server = true) (hp : b.state = .pending) (hi : b.iaMethod ≠ 0)
    (hcb : b.cbs.submit = true) (hbuf : b.buf = some cap') (hcap : msg.length ≤ cap') :
    ∃ strings, (∀ env, ncAuthFeed P env b msg = (true, iaSubmit env b strings)) ∧
      (∀ x ∈ a.form.fields.zip vals, ∀ name, x.1.asked = some name →
        Reads (b.answered strings) name x.1 x.2) ∧
      ∀ name : Option CStr, (∀ n, name = some n → n ∉ a.form.fields.filterMap Field.asked) →
        Absent (b.answered strings) name := by
  have henc := submit_sends hsent
  have hfst : (a.form.fields.zip vals).map Prod.fst = a.form.fields :=
    List.map_fst_zip (Nat.le_of_eq hvals.symm)
  refine ⟨textOf (answersRecords (a.form.fields.zip vals)),
    fun env => submit_delivered hs hp hi hcb hbuf hcap henc, fun x hx name hname => ?_,
    fun name hname => ?_⟩
  · refine reads_values hbuf (valuesOf_asked false ?_ hx hname) ?_ (hnum x hx) (hone x hx)
    · rwa [hfst]
    · exact decodeForm_options hform x.1 (List.of_mem_zip hx).1
  · refine absent_values hbuf fun n hn => valuesOf_unasked false ?_
    rw [hfst]
    exact hname n hn

/-- A note, a text, a number, and a choice of several options. -/
def survey : Form where
  fields := [{ type := some .note, label := some (.ofBytes (chars ['h', 'i'])) },
    { type := some .text, name := some (.ofBytes (chars ['v', '='])) },
    { type := some .integer, name := some (.ofBytes (chars ['n'])) },
    { type := some .choice, flags := ncFfMulti, name := some (.ofBytes [])
      options := [some (.ofBytes (chars ['a'])), some (.ofBytes (chars ['b']))] }]

def surveyed : List FormValue :=
  [{}, { text := some (.ofBytes (chars ['n', '=', 'n'])) }, { number := -2147483647 }, { choice := 6 }]

theorem answers_survive_sample :
    let a : NcAuth := { need := .form, iaMethod := mInteractive, cbs := { send := true }, form := survey }
    let b : NcAuth := { server := true, iaMethod := mInteractive, cbs := { submit := true }
                        buf := some ncFormMaxMsg }
    ∃ msg strings, (ncAuthSubmit a (some surveyed)).2 = [.emit msg] ∧
      ncAuthFeed sampleMonocypher noEnv b msg = (true, iaSubmit noEnv b strings) ∧
      ncAuthValueText (b.answered strings) (some (.ofBytes (chars ['v', '=']))) =
        some (.ofBytes (chars ['n', '=', 'n'])) ∧
      ncAuthValueInt (b.answered strings) (some (.ofBytes (chars ['n']))) 0 = -2147483647 := by
  intro a b
  have hdec : ((encodeForm survey ncFormMaxMsg).bind (decodeForm 4096)).map (·.1) = some survey := by
    decide +kernel
  obtain ⟨⟨f, text⟩, hdec, hf⟩ := Option.map_eq_some_iff.1 hdec
  obtain ⟨offer, -, hdec⟩ := Option.bind_eq_some_iff.1 hdec
  obtain rfl : f = survey := hf
  have hsub : (encodeAnswers survey surveyed ncFormMaxMsg).isSome = true := by decide +kernel
  obtain ⟨msg, henc⟩ := Option.isSome_iff_exists.1 hsub
  have hmsg : (ncAuthSubmit a (some surveyed)).2 = [.emit msg] := submit_emits rfl rfl rfl henc
  have hmem : .emit msg ∈ (ncAuthSubmit a (some surveyed)).2 := by
    rw [hmsg]
    exact .head _
  have hmax := (encodeAnswers_spec henc).2.2.2
  obtain ⟨strings, hfeed, hreads, -⟩ := @answers_survive sampleMonocypher a b 4096 ncFormMaxMsg offer
    text msg surveyed hdec (by decide +kernel) rfl (by decide +kernel) (by decide +kernel) hmem rfl rfl
    (by decide) rfl rfl hmax
  refine ⟨msg, strings, hmsg, hfeed noEnv, ?_, ?_⟩
  · exact (hreads (_, _) (.tail _ (.head _)) _ rfl).text (by decide)
  · exact (hreads (_, _) (.tail _ (.tail _ (.head _))) _ rfl).int rfl 0

end Netchan.Auth
