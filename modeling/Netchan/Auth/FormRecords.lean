import Netchan.Auth.Records

/-!
# The records of a form

`formRecords` lists the records of a form; `encode_form` packs them, and the filling loop of
`decode_form` makes of the records of a field what `Field.shown` says.

* `encodeFields_eq`: the sink that `encode_form` fills.
* `attrRecords_shown`: the records of a field make the field.
* `fillLoop_form`: all fields are filled in, in order.
-/

namespace Netchan.Auth

open Lib Idl

/-! ## The records of a form -/

/-- The record of a string that may be absent. -/
def optRec (k : Attr) : Option CStr → List Rec
  | none => []
  | some v => [⟨k, v⟩]

/-- A record that is written under a condition. -/
def condRec (c : Prop) [Decidable c] (k : Attr) (v : CStr) : List Rec := if c then [⟨k, v⟩] else []

/-- The value of the flags. -/
def oneStr : CStr := ⟨chars ['1'], by decide⟩

/-- The name of a type, empty for an unknown one. -/
def typeStr (t : Option FieldType) : CStr := .ofBytes ((typeName t).getD [])

/-- A field has a range. -/
def Field.Ranged (fl : Field) : Prop := fl.type = some .integer ∧ fl.min ≠ fl.max

instance (fl : Field) : Decidable fl.Ranged := inferInstanceAs (Decidable (_ ∧ _))

/-- The records of a field after the first. -/
def attrRecords (f : Form) (fl : Field) : List Rec :=
  optRec .name fl.name ++ optRec .label fl.label ++ optRec .value fl.value ++
  optRec .patt fl.pattern ++
  condRec (fl.size ≠ 0) .size (fmtStr (.ofNat fl.size.toNat)) ++
  condRec (fl.maxlength ≠ 0) .maxlen (fmtStr (.ofNat fl.maxlength.toNat)) ++
  condRec fl.Ranged .min (fmtStr fl.min) ++ condRec fl.Ranged .max (fmtStr fl.max) ++
  (if fl.options.length ≤ ncFormMaxOptions then fl.options.flatMap (optRec .option) else []) ++
  condRec (fl.flags &&& ncFfRequired ≠ 0) .req oneStr ++
  condRec (fl.flags &&& ncFfMulti ≠ 0) .multi oneStr ++ optRec .error (f.errorOf fl)

/-- The records of a field. -/
def fieldRecords (f : Form) (fl : Field) : List Rec :=
  ⟨.type, typeStr fl.type⟩ :: attrRecords f fl

/-- The records of some fields of a form. -/
def formRecords (f : Form) (fls : List Field) : List Rec := fls.flatMap (fieldRecords f)

section
variable {f : Form} {fl : Field} {sk : Sink}

theorem sinkStr_eq (sk : Sink) (k : Attr) (o : Option CStr) :
    sinkStr sk k o = sinkAll sk (optRec k o) := by
  cases o with
  | none => rfl
  | some v => rfl

theorem sinkPut_if (sk : Sink) (k : Attr) (v : CStr) (c : Prop) [Decidable c] :
    (if c then sinkPut sk k v.val else sk) = sinkAll sk (condRec c k v) := by
  unfold condRec
  split
  · rfl
  · rfl

theorem sinkNum_if (sk : Sink) (k : Attr) (v : Int32) (c : Prop) [Decidable c] :
    (if c then sinkNum sk k v else sk) = sinkAll sk (condRec c k (fmtStr v)) :=
  sinkPut_if sk k (fmtStr v) c

theorem sink_range (sk : Sink) (fl : Field) :
    (if fl.type = some .integer ∧ fl.min ≠ fl.max then
      sinkNum (sinkNum sk .min fl.min) .max fl.max else sk) =
    sinkAll sk (condRec fl.Ranged .min (fmtStr fl.min) ++ condRec fl.Ranged .max (fmtStr fl.max)) := by
  unfold condRec
  by_cases h : fl.Ranged
  · rw [if_pos h, if_pos h]
    exact if_pos h
  · rw [if_neg h, if_neg h]
    exact if_neg h

theorem sink_options (sk : Sink) (os : List (Option CStr)) :
    os.foldl (fun sk o => sinkStr sk .option o) sk = sinkAll sk (os.flatMap (optRec .option)) := by
  induction os generalizing sk with
  | nil => rfl
  | cons o os ih => rw [List.foldl_cons, ih, sinkStr_eq, List.flatMap_cons, sinkAll_append]

theorem typeStr_val {t : Option FieldType} {tn : List UInt8} (h : typeName t = some tn) :
    (typeStr t).val = tn ∧ typeValue (typeStr t) = t ∧ t.isSome = true := by
  cases t with
  | none => cases h
  | some t =>
    cases t <;> obtain rfl := Option.some.inj h <;> decide

/-- **The records of a field** are what `encode_form` writes of it. -/
theorem encodeField_eq {tn : List UInt8} (h : typeName fl.type = some tn) :
    encodeField f sk fl tn = sinkAll sk (fieldRecords f fl) := by
  have hoptions (sk : Sink) :
      (if fl.options.length ≤ ncFormMaxOptions then
        fl.options.foldl (fun sk o => sinkStr sk .option o) sk else sk) =
      sinkAll sk
        (if fl.options.length ≤ ncFormMaxOptions then fl.options.flatMap (optRec .option) else []) := by
    split
    · exact sink_options sk fl.options
    · rfl
  have htype : sinkPut sk .type tn = sinkAll sk [⟨.type, typeStr fl.type⟩] := by
    rw [← (typeStr_val h).1]
    rfl
  have hone : chars ['1'] = oneStr.val := rfl
  unfold encodeField
  dsimp only
  rw [hone]
  rw [hoptions]
  simp only [sinkStr_eq, sinkNum_if, sinkPut_if, sink_range, htype]
  change _ = sinkAll sk ([⟨.type, typeStr fl.type⟩] ++ attrRecords f fl)
  rw [attrRecords]
  simp only [sinkAll_append]

theorem encodeFields_eq {fls : List Field} {sk' : Sink} (h : encodeFields f sk fls = some sk') :
    sk' = sinkAll sk (formRecords f fls) ∧
      ∀ fl ∈ fls, typeValue (typeStr fl.type) = fl.type ∧ fl.type.isSome = true := by
  induction fls generalizing sk with
  | nil =>
    rw [encodeFields] at h
    obtain rfl := Option.some.inj h
    exact ⟨rfl, fun fl hfl => absurd hfl List.not_mem_nil⟩
  | cons fl fls ih =>
    rw [encodeFields] at h
    cases ht : typeName fl.type with
    | none =>
      rw [ht] at h
      cases h
    | some tn =>
      rw [ht] at h
      dsimp only at h
      obtain ⟨h1, h2⟩ := ih h
      refine ⟨?_, ?_⟩
      · rw [h1, encodeField_eq ht, formRecords, formRecords, List.flatMap_cons, sinkAll_append]
      · intro g hg
        rcases List.mem_cons.1 hg with rfl | hg
        · exact (typeStr_val ht).2
        · exact h2 g hg

end

/-! ## Filling in -/

/-- What a record does to the field that is filled. -/
def Field.put (fl : Field) (r : Rec) : Field :=
  match r.key with
  | .type => fl
  | .name => { fl with name := some r.val }
  | .label => { fl with label := some r.val }
  | .value => { fl with value := some r.val }
  | .patt => { fl with pattern := some r.val }
  | .size => { fl with size := ((parseI32 r.val).map (·.toUInt32.toUInt16)).getD fl.size }
  | .maxlen => { fl with maxlength := ((parseI32 r.val).map (·.toUInt32.toUInt16)).getD fl.maxlength }
  | .min => { fl with min := (parseI32 r.val).getD fl.min }
  | .max => { fl with max := (parseI32 r.val).getD fl.max }
  | .option => { fl with options := fl.options ++ [some r.val] }
  | .req => { fl with flags := fl.flags ||| ncFfRequired }
  | .multi => { fl with flags := fl.flags ||| ncFfMulti }
  | .error => { fl with error := some r.val }

section
variable {f : Form} {fl : Field} {done : List Field} {errs : List FormError}

/-- **One record fills in one attribute.** -/
theorem fillStep_put {r : Rec} (ht : r.key ≠ .type)
    (ho : r.key = .option → fl.options.length < ncFormMaxOptions) :
    ∃ errs', fillStep ⟨done, some fl, errs⟩ r.str = some ⟨done, some (fl.put r), errs'⟩ := by
  obtain ⟨k, v⟩ := r
  cases k with
  | type => exact absurd rfl ht
  | option =>
    have hlt := Nat.not_le.2 (ho rfl)
    exact ⟨errs, by simp [fillStep, Field.setAttr, keyOf_str, Field.put, hlt]⟩
  | error => exact ⟨errs ++ [⟨fl.name, some v⟩], by simp [fillStep, Field.setAttr, keyOf_str, Field.put]⟩
  | size =>
    cases hp : parseI32 v with
    | none => exact ⟨errs, by simp [fillStep, Field.setAttr, keyOf_str, Field.put, hp]⟩
    | some n => exact ⟨errs, by simp [fillStep, Field.setAttr, keyOf_str, Field.put, hp]⟩
  | maxlen =>
    cases hp : parseI32 v with
    | none => exact ⟨errs, by simp [fillStep, Field.setAttr, keyOf_str, Field.put, hp]⟩
    | some n => exact ⟨errs, by simp [fillStep, Field.setAttr, keyOf_str, Field.put, hp]⟩
  | min =>
    cases hp : parseI32 v with
    | none => exact ⟨errs, by simp [fillStep, Field.setAttr, keyOf_str, Field.put, hp]⟩
    | some n => exact ⟨errs, by simp [fillStep, Field.setAttr, keyOf_str, Field.put, hp]⟩
  | max =>
    cases hp : parseI32 v with
    | none => exact ⟨errs, by simp [fillStep, Field.setAttr, keyOf_str, Field.put, hp]⟩
    | some n => exact ⟨errs, by simp [fillStep, Field.setAttr, keyOf_str, Field.put, hp]⟩
  | name => exact ⟨errs, by simp [fillStep, Field.setAttr, keyOf_str, Field.put]⟩
  | label => exact ⟨errs, by simp [fillStep, Field.setAttr, keyOf_str, Field.put]⟩
  | value => exact ⟨errs, by simp [fillStep, Field.setAttr, keyOf_str, Field.put]⟩
  | patt => exact ⟨errs, by simp [fillStep, Field.setAttr, keyOf_str, Field.put]⟩
  | req => exact ⟨errs, by simp [fillStep, Field.setAttr, keyOf_str, Field.put]⟩
  | multi => exact ⟨errs, by simp [fillStep, Field.setAttr, keyOf_str, Field.put]⟩

theorem length_options_put (fl : Field) (r : Rec) :
    (fl.put r).options.length = fl.options.length + if r.key = .option then 1 else 0 := by
  obtain ⟨k, v⟩ := r
  cases k <;> simp [Field.put]

theorem fillLoop_append (fi : Fill) (l l' : List CStr) :
    fillLoop fi (l ++ l') = (fillLoop fi l).bind fun fi => fillLoop fi l' := by
  induction l generalizing fi with
  | nil => rfl
  | cons s l ih =>
    rw [List.cons_append, fillLoop, fillLoop]
    cases fillStep fi s with
    | none => rfl
    | some fi' => exact ih fi'

theorem fillLoop_put {rs : List Rec} (ht : ∀ r ∈ rs, r.key ≠ .type)
    (ho : fl.options.length + rs.countP (·.key = .option) ≤ ncFormMaxOptions) :
    ∃ errs', fillLoop ⟨done, some fl, errs⟩ (rs.map Rec.str) =
      some ⟨done, some (rs.foldl Field.put fl), errs'⟩ := by
  induction rs generalizing fl errs with
  | nil => exact ⟨errs, rfl⟩
  | cons r rs ih =>
    rw [List.countP_cons] at ho
    simp only [decide_eq_true_eq] at ho
    have h1 : r.key = .option → fl.options.length < ncFormMaxOptions := by
      intro hk
      rw [if_pos hk] at ho
      omega
    obtain ⟨errs', he⟩ := @fillStep_put fl done errs r (ht r (.head _)) h1
    have h2 := length_options_put fl r
    obtain ⟨errs'', he'⟩ := @ih (fl.put r) errs' (fun q hq => ht q (.tail _ hq)) (by omega)
    refine ⟨errs'', ?_⟩
    rw [List.map_cons, fillLoop, he]
    exact he'

/-! ## A field -/

/-- What a client sees of a field. -/
def Field.shown (f : Form) (fl : Field) : Field where
  type := fl.type
  flags := fl.flags &&& (ncFfRequired ||| ncFfMulti)
  name := fl.name
  label := fl.label
  value := fl.value
  pattern := fl.pattern
  error := f.errorOf fl
  size := fl.size
  maxlength := fl.maxlength
  min := if fl.Ranged then (parseI32 (fmtStr fl.min)).getD 0 else 0
  max := if fl.Ranged then (parseI32 (fmtStr fl.max)).getD 0 else 0
  options := if fl.options.length ≤ ncFormMaxOptions then fl.options.filter Option.isSome else []

theorem foldl_optRec {k : Attr} {o : Option CStr} (g : Option CStr → Field) (h0 : g none = fl)
    (h1 : ∀ v, fl.put ⟨k, v⟩ = g (some v)) : (optRec k o).foldl Field.put fl = g o := by
  cases o with
  | none => exact h0.symm
  | some v => exact h1 v

theorem foldl_condRec {k : Attr} {v : CStr} {c : Prop} [Decidable c] {fl' : Field} (h0 : ¬ c → fl = fl')
    (h1 : c → fl.put ⟨k, v⟩ = fl') : (condRec c k v).foldl Field.put fl = fl' := by
  unfold condRec
  split
  · exact h1 ‹_›
  · exact h0 ‹_›

theorem foldl_options (os : List (Option CStr)) :
    (os.flatMap (optRec .option)).foldl Field.put fl =
      { fl with options := fl.options ++ os.filter Option.isSome } := by
  induction os generalizing fl with
  | nil => simp
  | cons o os ih =>
    rw [List.flatMap_cons, List.foldl_append, ih]
    cases o with
    | none => simp [optRec]
    | some v => simp [optRec, Field.put]

theorem parse_size (n : UInt16) :
    (parseI32 (fmtStr (.ofNat n.toNat))).map (·.toUInt32.toUInt16) = some n := by
  have hn := n.toNat_lt
  have h1 : (Int32.ofNat n.toNat).toInt = n.toNat := Int32.toInt_ofNat_of_lt (by omega)
  rw [parseI32_fmtI32 (by rw [h1]; omega), Option.map_some]
  congr 1
  change (UInt32.ofNat n.toNat).toUInt16 = n
  apply UInt16.toNat_inj.1
  rw [UInt32.toNat_toUInt16, UInt32.toNat_ofNat_of_lt' (Nat.lt_trans hn (by decide)),
    Nat.mod_eq_of_lt hn]

theorem flags_kept (x : UInt8) :
    (if x &&& ncFfRequired ≠ 0 then ncFfRequired else 0) ||| (if x &&& ncFfMulti ≠ 0 then ncFfMulti else 0) =
      x &&& (ncFfRequired ||| ncFfMulti) := by
  have h : ∀ n : Fin 256, (if UInt8.ofNat n.val &&& ncFfRequired ≠ 0 then ncFfRequired else 0) |||
      (if UInt8.ofNat n.val &&& ncFfMulti ≠ 0 then ncFfMulti else 0) =
      UInt8.ofNat n.val &&& (ncFfRequired ||| ncFfMulti) := by
    decide +kernel
  have := h ⟨x.toNat, x.toNat_lt⟩
  simpa using this

theorem foldl_flags {c d : Prop} [Decidable c] [Decidable d] (h : fl.flags = 0) :
    (condRec c .req oneStr ++ condRec d .multi oneStr).foldl Field.put fl =
      { fl with flags := (if c then ncFfRequired else 0) ||| (if d then ncFfMulti else 0) } := by
  unfold condRec
  by_cases hc : c
  · by_cases hd : d
    · simp [hc, hd, Field.put, h]
    · simp [hc, hd, Field.put, h]
  · by_cases hd : d
    · simp [hc, hd, Field.put, h]
    · simp [hc, hd, ← h]

/-- **The records of a field make the field.** -/
theorem attrRecords_shown (f : Form) (fl : Field) :
    (attrRecords f fl).foldl Field.put { type := fl.type } = fl.shown f := by
  -- the field after each group of records
  let g1 : Field := { type := fl.type, name := fl.name, label := fl.label, value := fl.value,
                      pattern := fl.pattern }
  let g2 : Field := { g1 with size := fl.size, maxlength := fl.maxlength }
  let g3 : Field := { g2 with min := (fl.shown f).min, max := (fl.shown f).max }
  let g4 : Field := { g3 with options := (fl.shown f).options }
  let g5 : Field := { g4 with flags := (fl.shown f).flags }
  have h1 : (optRec .name fl.name ++ optRec .label fl.label ++ optRec .value fl.value ++
      optRec .patt fl.pattern).foldl Field.put { type := fl.type } = g1 := by
    simp only [List.foldl_append]
    rw [foldl_optRec (fun o => { type := fl.type, name := o }) rfl fun _ => rfl,
      foldl_optRec (fun o => { type := fl.type, name := fl.name, label := o }) rfl fun _ => rfl,
      foldl_optRec (fun o => { type := fl.type, name := fl.name, label := fl.label, value := o }) rfl
        fun _ => rfl]
    exact foldl_optRec (fun o => { g1 with pattern := o }) rfl fun _ => rfl
  have h2 : (condRec (fl.size ≠ 0) .size (fmtStr (.ofNat fl.size.toNat)) ++
      condRec (fl.maxlength ≠ 0) .maxlen (fmtStr (.ofNat fl.maxlength.toNat))).foldl Field.put g1 =
        g2 := by
    have hs : (condRec (fl.size ≠ 0) .size (fmtStr (.ofNat fl.size.toNat))).foldl Field.put g1 =
        { g1 with size := fl.size } := by
      refine foldl_condRec (fun h => ?_) fun h => ?_
      · rw [not_not.1 h]
      · simp only [Field.put, parse_size, Option.getD_some]
    rw [List.foldl_append, hs]
    refine foldl_condRec (fun h => ?_) fun h => ?_
    · simp only [g2, not_not.1 h]
      rfl
    · simp only [Field.put, parse_size, Option.getD_some, g2]
  have h3 : (condRec fl.Ranged .min (fmtStr fl.min) ++ condRec fl.Ranged .max (fmtStr fl.max)).foldl
      Field.put g2 = g3 := by
    by_cases h : fl.Ranged
    · simp only [condRec, if_pos h, g3, Field.shown]
      rfl
    · simp only [condRec, if_neg h, g3, Field.shown]
      rfl
  have h4 : (if fl.options.length ≤ ncFormMaxOptions then fl.options.flatMap (optRec .option)
      else []).foldl Field.put g3 = g4 := by
    simp only [g4, Field.shown]
    split
    · exact foldl_options fl.options
    · rfl
  have h5 : (condRec (fl.flags &&& ncFfRequired ≠ 0) .req oneStr ++
      condRec (fl.flags &&& ncFfMulti ≠ 0) .multi oneStr).foldl Field.put g4 = g5 := by
    rw [foldl_flags rfl, flags_kept]
    rfl
  have h6 : (optRec .error (f.errorOf fl)).foldl Field.put g5 = fl.shown f :=
    foldl_optRec (fun o => { g5 with error := o }) rfl fun _ => rfl
  simp only [List.foldl_append] at h1 h2 h3 h5
  unfold attrRecords
  simp only [List.foldl_append]
  rw [h1, h2, h3, h4, h5, h6]

/-! ## The fields of a form -/

theorem mem_optRec {k : Attr} {o : Option CStr} {r : Rec} (h : r ∈ optRec k o) : r.key = k := by
  cases o with
  | none => cases h
  | some v =>
    rw [List.mem_singleton.1 h]

theorem mem_condRec {c : Prop} [Decidable c] {k : Attr} {v : CStr} {r : Rec}
    (h : r ∈ condRec c k v) : r.key = k := by
  unfold condRec at h
  split at h
  · rw [List.mem_singleton.1 h]
  · cases h

theorem mem_optionRecs {c : Prop} [Decidable c] {os : List (Option CStr)} {r : Rec}
    (h : r ∈ if c then os.flatMap (optRec .option) else []) : r.key = .option := by
  split at h
  · obtain ⟨o, -, hr⟩ := List.mem_flatMap.1 h
    exact mem_optRec hr
  · cases h

theorem attrRecords_key {r : Rec} (h : r ∈ attrRecords f fl) : r.key ≠ .type := by
  have hk {k : Attr} (hr : r.key = k) (hne : k ≠ .type) : r.key ≠ .type := hr ▸ hne
  unfold attrRecords at h
  simp only [List.mem_append] at h
  rcases h with ((((((((((h | h) | h) | h) | h) | h) | h) | h) | h) | h) | h) | h
  · exact hk (mem_optRec h) nofun
  · exact hk (mem_optRec h) nofun
  · exact hk (mem_optRec h) nofun
  · exact hk (mem_optRec h) nofun
  · exact hk (mem_condRec h) nofun
  · exact hk (mem_condRec h) nofun
  · exact hk (mem_condRec h) nofun
  · exact hk (mem_condRec h) nofun
  · exact hk (mem_optionRecs h) nofun
  · exact hk (mem_condRec h) nofun
  · exact hk (mem_condRec h) nofun
  · exact hk (mem_optRec h) nofun

theorem countP_key {rs : List Rec} {k k' : Attr} (h : ∀ r ∈ rs, r.key = k) :
    rs.countP (·.key = k') = if k = k' then rs.length else 0 := by
  split
  · rename_i hk
    rw [List.countP_eq_length]
    intro r hr
    exact decide_eq_true ((h r hr).trans hk)
  · rename_i hk
    rw [List.countP_eq_zero]
    intro r hr
    rw [h r hr]
    simpa using hk

theorem length_optRec (k : Attr) (o : Option CStr) : (optRec k o).length = o.toList.length := by
  cases o with
  | none => rfl
  | some v => rfl

/-- The options of a field are its shown ones, and its error is its own. -/
theorem attrRecords_count (f : Form) (fl : Field) :
    (attrRecords f fl).countP (·.key = .option) = (fl.shown f).options.length ∧
      (attrRecords f fl).countP (·.key = .error) = (f.errorOf fl).toList.length := by
  have hopts : (if fl.options.length ≤ ncFormMaxOptions then fl.options.flatMap (optRec .option)
      else []).length = (fl.shown f).options.length := by
    simp only [Field.shown]
    split
    · induction fl.options with
      | nil => rfl
      | cons o os ih =>
        rw [List.flatMap_cons, List.length_append, ih, length_optRec]
        cases o with
        | none => simp
        | some v =>
          simp
          omega
    · rfl
  unfold attrRecords
  simp only [List.countP_append, countP_key fun _ => mem_optRec, countP_key fun _ => mem_condRec,
    countP_key fun _ => mem_optionRecs, reduceCtorEq, if_true, if_false, hopts, length_optRec,
    Nat.zero_add, Nat.add_zero, and_self]

theorem shown_options (f : Form) (fl : Field) : (fl.shown f).options.length ≤ ncFormMaxOptions := by
  simp only [Field.shown]
  split
  · exact (List.length_filter_le _ _).trans ‹_›
  · exact Nat.zero_le _

theorem fillLoop_field {cur : Option Field} (ht : typeValue (typeStr fl.type) = fl.type) :
    fl.type.isSome = true → ∃ errs', fillLoop ⟨done, cur, errs⟩ ((fieldRecords f fl).map Rec.str) =
      some ⟨done ++ cur.toList, some (fl.shown f), errs'⟩ := by
  intro hs
  obtain ⟨ty, hty⟩ := Option.isSome_iff_exists.1 hs
  have hstep : fillStep ⟨done, cur, errs⟩ (Rec.str ⟨.type, typeStr fl.type⟩) =
      some ⟨done ++ cur.toList, some { type := fl.type }, errs⟩ := by
    unfold fillStep
    rw [keyOf_str, if_pos rfl]
    dsimp only
    rw [ht, hty]
  obtain ⟨errs', he⟩ := @fillLoop_put { type := fl.type } (done ++ cur.toList) errs (attrRecords f fl)
    (fun r hr => attrRecords_key hr)
    (by rw [(attrRecords_count f fl).1]; simpa using shown_options f fl)
  rw [attrRecords_shown] at he
  refine ⟨errs', ?_⟩
  rw [fieldRecords, List.map_cons, fillLoop, hstep]
  exact he

/-- **All fields are filled in**, in order. -/
theorem fillLoop_form {fls : List Field} {fi : Fill}
    (ht : ∀ fl ∈ fls, typeValue (typeStr fl.type) = fl.type ∧ fl.type.isSome = true) :
    ∃ fi', fillLoop fi ((formRecords f fls).map Rec.str) = some fi' ∧
      fi'.done ++ fi'.cur.toList = fi.done ++ fi.cur.toList ++ fls.map (Field.shown f) := by
  induction fls generalizing fi with
  | nil => exact ⟨fi, rfl, by simp⟩
  | cons fl fls ih =>
    obtain ⟨h1, h2⟩ := ht fl (.head _)
    obtain ⟨errs', he⟩ := @fillLoop_field f fl fi.done fi.errors fi.cur h1 h2
    obtain ⟨fi', he', hf⟩ := @ih ⟨fi.done ++ fi.cur.toList, some (fl.shown f), errs'⟩
      fun g hg => ht g (.tail _ hg)
    refine ⟨fi', ?_, ?_⟩
    · rw [formRecords, List.flatMap_cons, List.map_append, fillLoop_append, he]
      exact he'
    · rw [hf]
      simp

end

end Netchan.Auth
