import Netchan.Auth.FormRecords
import Mathlib.Data.List.Forall2

/-!
# Forms survive the wire

What `decode_form` makes of the message that `encode_form` writes.

* `encodeForm_spec`: the message.
* `decodeForm_room`: `decode_form` succeeds exactly if the buffer holds the strings and the arrays.
* `form_survives`: what the client sees is what the server wrote.
* `form_fits`: the forms that a buffer of the size of a message holds.
-/

namespace Netchan.Auth

open Lib Idl

/-! ## The message -/

/-- A string as a message carries it: its length is cut to 16 bits. -/
def cutStr (s : CStr) : List UInt8 := s.val.take (s.val.length % 65536)

/-- The field of a string that may be absent. -/
def strField (k : UInt8) : Option CStr → List (UInt8 × List UInt8)
  | none => []
  | some s => [(k, cutStr s)]

/-- The bytes fields of an `IA_FORM`. -/
def formFields (f : Form) : List (UInt8 × List UInt8) :=
  strField fTitle f.title ++ strField fNote f.note ++
    [(fFields, (formRecords f f.fields).flatMap Rec.packed)]

section
variable {f : Form} {outlen : Nat} {msg : List UInt8}

theorem length_cutStr (s : CStr) : (cutStr s).length < 65536 := by
  have h : s.val.length % 65536 < 65536 := Nat.mod_lt _ (by decide)
  rw [cutStr, List.length_take]
  omega

theorem writeStr_eq {out out' : List UInt8} {k : UInt8} {o : Option CStr}
    (h : writeStr out outlen k o = some out') : out' = out ++ (strField k o).flatMap tagged := by
  cases o with
  | none =>
    obtain rfl := Option.some.inj h
    simp [strField]
  | some s =>
    rw [(writeTagBytes_eq h).1]
    simp [strField, cutStr]

/-- **What `encode_form` writes.** -/
theorem encodeForm_spec (h : encodeForm f outlen = some msg) :
    msg = msgIaForm :: (formFields f).flatMap tagged ∧ f.fields.length ≤ ncFormMaxFields ∧
      (∀ fl ∈ f.fields, typeValue (typeStr fl.type) = fl.type ∧ fl.type.isSome = true) ∧
      (∀ r ∈ formRecords f f.fields, r.str.val.length ≤ 0xffff) ∧
      ((formRecords f f.fields).flatMap Rec.packed).length ≤ ncFormMaxMsg ∧ msg.length ≤ outlen := by
  unfold encodeForm at h
  split at h
  · cases h
  rename_i hfields
  obtain ⟨sk, hsk, h⟩ := Option.bind_eq_some_iff.1 h
  split at h
  · cases h
  rename_i herr
  obtain ⟨hall, htypes⟩ := encodeFields_eq hsk
  have herr : (sinkAll {} (formRecords f f.fields)).err = false := by
    rw [← hall]
    simpa using fun he => herr (.inl he)
  obtain ⟨-, hbuf, hlens, hmax⟩ := sinkAll_ok herr
  rw [← hall] at hbuf hmax
  rw [List.nil_append] at hbuf
  obtain ⟨out, ho, h⟩ := Option.bind_eq_some_iff.1 h
  obtain ⟨out', ho', h⟩ := Option.bind_eq_some_iff.1 h
  obtain ⟨h1, h2⟩ := writeTagBytes_eq h
  have hmax := hmax (Nat.zero_le _)
  rw [hbuf] at hmax
  refine ⟨?_, Nat.not_lt.1 hfields, htypes, hlens, hmax, h2⟩
  rw [h1, writeStr_eq ho', writeStr_eq ho, hbuf, formFields]
  simp

/-- What the loop of `decode_form` does with a bytes field. -/
def FormParts.put (p : FormParts) (x : UInt8 × List UInt8) : FormParts :=
  if x.1 = fTitle then { p with title := some x.2 }
  else if x.1 = fNote then { p with note := some x.2 }
  else { p with blob := some x.2 }

theorem mem_strField {k : UInt8} {o : Option CStr} {x : UInt8 × List UInt8} (h : x ∈ strField k o) :
    x.1 = k ∧ x.2.length < 65536 := by
  cases o with
  | none => cases h
  | some s =>
    rw [List.mem_singleton.1 h]
    exact ⟨rfl, length_cutStr s⟩

theorem mem_formFields {x : UInt8 × List UInt8} (h : x ∈ formFields f)
    (hblob : ((formRecords f f.fields).flatMap Rec.packed).length ≤ ncFormMaxMsg) :
    (x.1 = fTitle ∨ x.1 = fNote ∨ x.1 = fFields) ∧ x.2.length < 65536 := by
  unfold formFields at h
  simp only [List.mem_append, List.mem_singleton] at h
  rcases h with (h | h) | rfl
  · exact ⟨.inl (mem_strField h).1, (mem_strField h).2⟩
  · exact ⟨.inr (.inl (mem_strField h).1), (mem_strField h).2⟩
  · refine ⟨.inr (.inr rfl), ?_⟩
    dsimp only
    simp only [ncFormMaxMsg] at hblob
    omega

theorem formBody_bytes {p : FormParts} {x : UInt8 × List UInt8} {pos pos' : Nat}
    (hx : x.1 = fTitle ∨ x.1 = fNote ∨ x.1 = fFields)
    (hr : msReadBytes msg pos msg.length 0xffff = some (x.2, pos')) :
    formBody msg p x.1 msWireBytes pos = some (p.put x, pos') := by
  unfold formBody FormParts.put
  rw [if_neg (by decide), hr]
  rcases hx with h | h | h
  · simp [h]
  · simp +decide [h]
  · simp +decide [h]

/-- The parts that `decode_form` picks up. -/
theorem readTags_form (hmsg : msg = msgIaForm :: (formFields f).flatMap tagged)
    (hblob : ((formRecords f f.fields).flatMap Rec.packed).length ≤ ncFormMaxMsg) :
    readTags formBody msg {} = some
      ⟨f.title.map cutStr, f.note.map cutStr, some ((formRecords f f.fields).flatMap Rec.packed)⟩ := by
  have hfield {x : UInt8 × List UInt8} (hx : x ∈ formFields f) := mem_formFields hx hblob
  have hlen : (formFields f).length ≤ msg.length := by
    have h1 : (formFields f).length ≤ 3 := by
      unfold formFields
      cases f.title <;> cases f.note <;> simp [strField]
    have h2 : 4 ≤ msg.length := by
      rw [hmsg, formFields]
      simp [length_tagged]
      omega
    omega
  have hsmall {k : UInt8} (hk : k = fTitle ∨ k = fNote ∨ k = fFields) : k < 32 := by
    rcases hk with rfl | rfl | rfl
    · decide
    · decide
    · decide
  have h := @readLoop_fields FormParts (formBody msg) msg msg.length {} FormParts.put (formFields f)
    (fun p x hx pos pos' hr => formBody_bytes (hfield hx).1 hr)
    (fun x hx => ⟨hsmall (hfield hx).1, (hfield hx).2⟩) [msgIaForm] hmsg hlen
  rw [readTags]
  refine h.trans (congrArg some ?_)
  unfold formFields
  cases f.title <;> cases f.note <;> rfl

/-! ## Room -/

/-- What a string that may be absent takes. -/
def strRoom : Option CStr → Nat
  | none => 0
  | some s => (cutStr s).length + 1

/-- Where an array may start. -/
def alignUp (n : Nat) : Nat := (n + 7) / 8 * 8

/-- What the strings of a form take. -/
def Form.textRoom (f : Form) : Nat :=
  strRoom f.title + strRoom f.note + (textOf (formRecords f f.fields)).length

def Form.errorCount (f : Form) : Nat := (f.fields.map fun fl => (f.errorOf fl).toList.length).sum

def Form.optionCount (f : Form) : Nat := (f.fields.map fun fl => (fl.shown f).options.length).sum

/-- What a form takes: its strings, and the arrays of its fields, errors and options. -/
def Form.room (f : Form) : Nat :=
  alignUp f.textRoom + f.fields.length * sizeofField + f.errorCount * sizeofError +
    f.optionCount * sizeofPtr

theorem arenaOpt_ok {ar : Arena} (o : Option CStr) (h : ar.used + strRoom o ≤ ar.cap) :
    ∃ text, arenaOpt ar (o.map cutStr) = some { ar with used := ar.used + strRoom o, text } := by
  cases o with
  | none => exact ⟨ar.text, rfl⟩
  | some s =>
    simp only [strRoom] at h ⊢
    exact ⟨_, if_neg (by omega)⟩

theorem strRoom_le (k : UInt8) (o : Option CStr) : strRoom o ≤ ((strField k o).flatMap tagged).length := by
  cases o with
  | none => exact Nat.zero_le _
  | some s =>
    simp only [strRoom, strField, List.flatMap_cons, List.flatMap_nil, List.append_nil, length_tagged]
    omega

theorem carve_eq {ar : Arena} {count size : Nat} (hs : 0 < size) :
    carve ar count size =
      if count = 0 then some ar
      else if alignUp ar.used + count * size ≤ ar.cap then
        some { ar with used := alignUp ar.used + count * size }
      else none := by
  unfold carve arenaArray alignUp
  dsimp only
  by_cases hc : count = 0
  · simp only [if_pos hc]
  · simp only [if_neg hc]
    by_cases hfit : (ar.used + 7) / 8 * 8 + count * size ≤ ar.cap
    · have hle : count ≤ ar.cap / size := by
        rw [Nat.le_div_iff_mul_le hs]
        omega
      rw [if_neg (by omega), if_pos hfit]
    · rw [if_pos (by omega), if_neg hfit]

theorem carve_aligned {ar : Arena} {count size : Nat} (hs : 0 < size) (ha : alignUp ar.used = ar.used)
    (hle : ar.used ≤ ar.cap) :
    carve ar count size =
      if ar.used + count * size ≤ ar.cap then some { ar with used := ar.used + count * size }
      else none := by
  rw [carve_eq hs, ha]
  by_cases hc : count = 0
  · subst hc
    rw [if_pos rfl, if_pos (by omega), Nat.zero_mul, Nat.add_zero]
  · rw [if_neg hc]

/-- **The three arrays fit** if the last of them does. -/
theorem carve_all (ar : Arena) {nf ne nopt : Nat} (h0 : nf = 0 → ne = 0 ∧ nopt = 0) :
    (∃ ar1 ar2 ar3, carve ar nf sizeofField = some ar1 ∧ carve ar1 ne sizeofError = some ar2 ∧
        carve ar2 nopt sizeofPtr = some ar3) ↔
      nf = 0 ∨ alignUp ar.used + nf * sizeofField + ne * sizeofError + nopt * sizeofPtr ≤ ar.cap := by
  by_cases hnf : nf = 0
  · obtain ⟨rfl, rfl⟩ := h0 hnf
    subst hnf
    have hempty (size : Nat) : carve ar 0 size = some ar := rfl
    exact ⟨fun _ => .inl rfl, fun _ => ⟨ar, ar, ar, hempty _, hempty _, hempty _⟩⟩
  rw [carve_eq (by decide), if_neg hnf]
  simp only [sizeofField, sizeofError, sizeofPtr, hnf, false_or]
  have halign (n m : Nat) : alignUp (alignUp n + m * 8) = alignUp n + m * 8 := by
    simp only [alignUp]
    omega
  have h1 : alignUp (alignUp ar.used + nf * 80) = alignUp ar.used + nf * 80 := by
    have := halign ar.used (nf * 10)
    rwa [Nat.mul_assoc] at this
  have h2 : alignUp (alignUp ar.used + nf * 80 + ne * 16) = alignUp ar.used + nf * 80 + ne * 16 := by
    have := halign ar.used (nf * 10 + ne * 2)
    rwa [Nat.add_mul, Nat.mul_assoc, Nat.mul_assoc, ← Nat.add_assoc] at this
  have hsecond := @carve_aligned { ar with used := alignUp ar.used + nf * 80 } ne 16 (by decide) h1
  have hthird := @carve_aligned { ar with used := alignUp ar.used + nf * 80 + ne * 16 } nopt 8
    (by decide) h2
  dsimp only at hsecond hthird
  constructor
  · intro h
    obtain ⟨ar1, ar2, ar3, hc1, hc2, hc3⟩ := h
    split at hc1
    · obtain rfl := Option.some.inj hc1
      rw [hsecond ‹_›] at hc2
      split at hc2
      · obtain rfl := Option.some.inj hc2
        rw [hthird ‹_›] at hc3
        split at hc3
        · assumption
        · cases hc3
      · cases hc2
    · cases hc1
  · intro h
    refine ⟨{ ar with used := alignUp ar.used + nf * 80 },
      { ar with used := alignUp ar.used + nf * 80 + ne * 16 },
      { ar with used := alignUp ar.used + nf * 80 + ne * 16 + nopt * 8 }, if_pos (by omega), ?_, ?_⟩
    · rw [hsecond (by omega)]
      exact if_pos (by omega)
    · rw [hthird (by omega)]
      exact if_pos (by omega)

theorem countRecords_records (rs : List Rec) :
    countRecords (rs.map Rec.str) =
      (rs.countP (·.key = .type), rs.countP (·.key = .error), rs.countP (·.key = .option)) := by
  induction rs with
  | nil => rfl
  | cons r rs ih =>
    rw [List.map_cons, countRecords, ih]
    obtain ⟨k, v⟩ := r
    cases k <;> simp [keyOf_str]

theorem countRecords_le (ss : List CStr) :
    (countRecords ss).1 + (countRecords ss).2.1 + (countRecords ss).2.2 ≤ ss.length := by
  induction ss with
  | nil => exact Nat.le_refl _
  | cons s ss ih =>
    rcases hc : countRecords ss with ⟨nf, ne, nopt⟩
    rw [hc] at ih
    rw [countRecords, hc, List.length_cons]
    dsimp only at ih ⊢
    split
    · dsimp only
      omega
    split
    · dsimp only
      omega
    split
    · dsimp only
      omega
    · dsimp only
      omega

theorem countRecords_form (f : Form) (fls : List Field) :
    countRecords ((formRecords f fls).map Rec.str) =
      (fls.length, (fls.map fun fl => (f.errorOf fl).toList.length).sum,
        (fls.map fun fl => (fl.shown f).options.length).sum) := by
  rw [countRecords_records]
  induction fls with
  | nil => rfl
  | cons fl fls ih =>
    obtain ⟨hopt, herr⟩ := attrRecords_count f fl
    have htype : (attrRecords f fl).countP (·.key = .type) = 0 := by
      rw [List.countP_eq_zero]
      intro r hr
      simpa using attrRecords_key hr
    rw [Prod.mk.injEq, Prod.mk.injEq] at ih ⊢
    obtain ⟨ih1, ih2, ih3⟩ := ih
    have hcons : formRecords f (fl :: fls) =
        ⟨.type, typeStr fl.type⟩ :: (attrRecords f fl ++ formRecords f fls) := rfl
    simp only [hcons, List.countP_cons, List.countP_append, htype, hopt, herr, ih1, ih2, ih3,
      List.length_cons, List.map_cons, List.sum_cons, reduceCtorEq, decide_true, decide_false, if_true,
      Bool.false_eq_true, if_false, Nat.zero_add, Nat.add_zero, and_self]

theorem textRoom_lt (h : encodeForm f outlen = some msg) :
    f.textRoom + (formRecords f f.fields).length + 4 ≤ msg.length := by
  obtain ⟨hmsg, -⟩ := encodeForm_spec h
  have htitle := strRoom_le fTitle f.title
  have hnote := strRoom_le fNote f.note
  have htext := length_textOf (formRecords f f.fields)
  rw [hmsg, formFields, Form.textRoom]
  simp only [List.length_cons, List.flatMap_append, List.length_append, List.flatMap_cons,
    List.flatMap_nil, List.length_nil, length_tagged]
  omega

/-! ## The round trip -/

/-- **What `decode_form` needs of the buffer**, and what it makes of an encoded form. -/
theorem decodeForm_room {cap : Nat} (h : encodeForm f outlen = some msg) (hcap : msg.length ≤ cap) :
    (f.fields = [] ∨ f.room ≤ cap → ∃ errors text, decodeForm cap msg = some
      ({ title := f.title.map fun s => .ofBytes (cutStr s)
         note := f.note.map fun s => .ofBytes (cutStr s)
         fields := f.fields.map (Field.shown f), errors }, text)) ∧
      (¬ (f.fields = [] ∨ f.room ≤ cap) → decodeForm cap msg = none) := by
  obtain ⟨hmsg, hfields, htypes, hlens, hblob, -⟩ := encodeForm_spec h
  have hread := readTags_form hmsg hblob
  have hroom := textRoom_lt h
  rw [Form.textRoom] at hroom
  obtain ⟨t1, ha1⟩ := @arenaOpt_ok { cap } f.title (by dsimp only; omega)
  obtain ⟨t2, ha2⟩ := @arenaOpt_ok { cap, used := 0 + strRoom f.title, text := t1 } f.note
    (by dsimp only; omega)
  have ha3 := @unpack_packed _ hlens
    { cap, used := 0 + strRoom f.title + strRoom f.note, text := t2 } (by dsimp only; omega)
  dsimp only at ha2 ha3
  have hused : 0 + strRoom f.title + strRoom f.note + (textOf (formRecords f f.fields)).length =
      f.textRoom := by
    rw [Form.textRoom, Nat.zero_add]
  rw [hused] at ha3
  have hstrs : cstrs ((t2 ++ textOf (formRecords f f.fields)).drop t2.length) =
      (formRecords f f.fields).map Rec.str := by
    rw [List.drop_left, cstrs_textOf]
  have hcount : countRecords ((formRecords f f.fields).map Rec.str) =
      (f.fields.length, f.errorCount, f.optionCount) := countRecords_form f f.fields
  have hempty : f.fields.length = 0 → f.errorCount = 0 ∧ f.optionCount = 0 := by
    intro h0
    rw [Form.errorCount, Form.optionCount, List.length_eq_zero_iff.1 h0]
    exact ⟨rfl, rfl⟩
  have hcarve := @carve_all { cap, used := f.textRoom, text := t2 ++ textOf (formRecords f f.fields) }
    f.fields.length f.errorCount f.optionCount hempty
  rw [List.length_eq_zero_iff] at hcarve
  obtain ⟨fi, hfill, hdone⟩ := @fillLoop_form f f.fields {} htypes
  have hdone : fi.done ++ fi.cur.toList = f.fields.map (Field.shown f) := hdone
  unfold decodeForm
  simp only [hread, Option.bind_eq_bind, Option.bind_some, ha1, ha2, ha3, hstrs, hcount, hfill, hdone,
    Option.map_map]
  rw [if_neg (Nat.not_lt.2 hfields)]
  refine ⟨fun hfit => ?_, fun hfull => ?_⟩
  · obtain ⟨ar1, ar2, ar3, h1, h2, h3⟩ := hcarve.2 hfit
    rw [h1, Option.bind_some, h2, Option.bind_some, h3]
    exact ⟨_, _, rfl⟩
  · cases h1 : carve { cap, used := f.textRoom, text := t2 ++ textOf (formRecords f f.fields) }
        f.fields.length sizeofField with
    | none => rfl
    | some ar1 =>
    cases h2 : carve ar1 f.errorCount sizeofError with
    | none => simp only [Option.bind_some, h2, Option.bind_none]
    | some ar2 =>
    cases h3 : carve ar2 f.optionCount sizeofPtr with
    | none => simp only [Option.bind_some, h2, h3, Option.bind_none]
    | some ar3 => exact absurd (hcarve.1 ⟨ar1, ar2, ar3, h1, h2, h3⟩) hfull

/-- A form takes no more than 17 times its message and the arrays of 24 fields. -/
theorem room_le (h : encodeForm f outlen = some msg) : f.room ≤ 17 * msg.length + 2000 := by
  have hroom := textRoom_lt h
  have hfields := (encodeForm_spec h).2.1
  have hcount := countRecords_form f f.fields
  have hsum := countRecords_le ((formRecords f f.fields).map Rec.str)
  rw [hcount, List.length_map] at hsum
  change f.fields.length + f.errorCount + f.optionCount ≤ (formRecords f f.fields).length at hsum
  simp only [ncFormMaxFields] at hfields
  simp only [Form.room, alignUp, sizeofField, sizeofError, sizeofPtr]
  omega

/-- **What `decode_form` makes of an encoded form**, in a buffer that is large enough. -/
theorem decodeForm_spec {cap : Nat} (h : encodeForm f outlen = some msg)
    (hcap : 17 * msg.length + 2000 ≤ cap) :
    ∃ errors text, decodeForm cap msg = some
      ({ title := f.title.map fun s => .ofBytes (cutStr s)
         note := f.note.map fun s => .ofBytes (cutStr s)
         fields := f.fields.map (Field.shown f), errors }, text) :=
  (decodeForm_room h (by omega)).1 (.inr ((room_le h).trans hcap))

/-- What has to survive of a field. -/
structure Survives (f : Form) (fl fl' : Field) : Prop where
  type : fl'.type = fl.type
  flags : fl'.flags = fl.flags &&& (ncFfRequired ||| ncFfMulti)
  name : fl'.name = fl.name
  label : fl'.label = fl.label
  value : fl'.value = fl.value
  pattern : fl'.pattern = fl.pattern
  size : fl'.size = fl.size
  maxlength : fl'.maxlength = fl.maxlength
  range : fl.type = some .integer → fl.min ≠ fl.max → fl'.min = fl.min ∧ fl'.max = fl.max
  options : fl'.options = fl.options.filter Option.isSome
  error : fl'.error = f.errorOf fl

theorem shown_survives {fl : Field} (ho : fl.options.length ≤ ncFormMaxOptions)
    (hmin : -2 ^ 31 < fl.min.toInt) (hmax : -2 ^ 31 < fl.max.toInt) :
    Survives f fl (fl.shown f) where
  type := rfl
  flags := rfl
  name := rfl
  label := rfl
  value := rfl
  pattern := rfl
  size := rfl
  maxlength := rfl
  range ht hne := by
    have hr : fl.Ranged := ⟨ht, hne⟩
    simp only [Field.shown, if_pos hr, parseI32_fmtI32 hmin, parseI32_fmtI32 hmax, Option.getD_some,
      and_self]
  options := by
    simp only [Field.shown, if_pos ho]
  error := rfl

theorem ofBytes_cutStr {s : CStr} (h : s.val.length ≤ 65535) : CStr.ofBytes (cutStr s) = s := by
  rw [cutStr, Nat.mod_eq_of_lt (by omega), List.take_length, ofBytes_val]

end

/-- **Forms survive the wire**: a form that `encode_form` takes is decoded, in a buffer that is large
enough, to a form with the same title, note and fields. -/
theorem form_survives {f : Form} {outlen : Nat} {msg : List UInt8} {cap : Nat}
    (htext : ∀ s, f.title = some s ∨ f.note = some s → s.val.length ≤ 65535)
    (hoptions : ∀ fl ∈ f.fields, fl.options.length ≤ ncFormMaxOptions)
    (hrange : ∀ fl ∈ f.fields, -2 ^ 31 < fl.min.toInt ∧ -2 ^ 31 < fl.max.toInt)
    (h : encodeForm f outlen = some msg) (hcap : 17 * msg.length + 2000 ≤ cap) :
    ∃ g text, decodeForm cap msg = some (g, text) ∧ g.title = f.title ∧ g.note = f.note ∧
      List.Forall₂ (Survives f) f.fields g.fields := by
  obtain ⟨errors, text, he⟩ := decodeForm_spec h hcap
  refine ⟨_, text, he, ?_, ?_, ?_⟩
  · cases ht : f.title with
    | none => rfl
    | some s => exact congrArg some (ofBytes_cutStr (htext s (.inl ht)))
  · cases hn : f.note with
    | none => rfl
    | some s => exact congrArg some (ofBytes_cutStr (htext s (.inr hn)))
  · refine List.forall₂_map_right_iff.2 (List.forall₂_same.2 fun fl hfl => ?_)
    exact shown_survives (hoptions fl hfl) (hrange fl hfl).1 (hrange fl hfl).2

/-- A form with a range, options, and an error in the separate array. -/
def sampleForm : Form where
  title := some ⟨chars ['N', 'e', 'w'], by decide⟩
  fields := [
    { type := some .integer, flags := ncFfRequired, name := some ⟨chars ['t', '='], by decide⟩
      min := -5, max := 120 },
    { type := some .choice, name := some ⟨chars ['c'], by decide⟩, value := some ⟨[], zero_notMem_nil⟩
      size := 300, options := [some ⟨chars ['a'], by decide⟩, some ⟨chars ['e', '=', 'b'], by decide⟩] }]
  errors := [⟨some ⟨chars ['c'], by decide⟩, some ⟨chars ['?'], by decide⟩⟩]

theorem form_survives_sample :
    ∃ msg g text, encodeForm sampleForm ncFormMaxMsg = some msg ∧
      decodeForm 65536 msg = some (g, text) ∧ g.title = sampleForm.title ∧ g.note = none ∧
      List.Forall₂ (Survives sampleForm) sampleForm.fields g.fields := by
  have henc : (encodeForm sampleForm ncFormMaxMsg).isSome = true := by decide +kernel
  obtain ⟨msg, hmsg⟩ := Option.isSome_iff_exists.1 henc
  have hlen := (encodeForm_spec hmsg).2.2.2.2.2
  obtain ⟨g, text, h⟩ := @form_survives sampleForm ncFormMaxMsg msg 65536
    (by simp [sampleForm, chars]) (by decide +kernel) (by decide +kernel) hmsg
    (by simp only [ncFormMaxMsg] at hlen; omega)
  exact ⟨msg, g, text, hmsg, h⟩

/-- **A buffer of the size of a message** holds the forms whose strings, fields, errors and options take
no more, and no others. -/
theorem form_fits {f : Form} {msg : List UInt8} (h : encodeForm f ncFormMaxMsg = some msg) :
    (decodeForm ncFormMaxMsg msg).isSome = true ↔ f.room ≤ ncFormMaxMsg := by
  have hlen := (encodeForm_spec h).2.2.2.2.2
  obtain ⟨hfit, hfull⟩ := decodeForm_room h hlen
  constructor
  · intro hsome
    by_contra hroom
    have hor : f.fields = [] ∨ f.room ≤ ncFormMaxMsg := by
      by_contra hc
      rw [hfull hc] at hsome
      cases hsome
    -- a form without fields takes its strings only
    have hnil : f.fields = [] := hor.resolve_right hroom
    have htext := textRoom_lt h
    simp only [ncFormMaxMsg] at hlen hroom
    simp only [Form.room, Form.errorCount, Form.optionCount, hnil, List.length_nil, List.map_nil,
      List.sum_nil, alignUp] at hroom
    omega
  · intro hroom
    obtain ⟨errors, text, he⟩ := hfit (.inr hroom)
    rw [he]
    rfl

theorem form_fits_sample : ∃ msg, encodeForm sampleForm ncFormMaxMsg = some msg ∧
    (decodeForm ncFormMaxMsg msg).isSome = true := by
  have henc : (encodeForm sampleForm ncFormMaxMsg).isSome = true := by decide +kernel
  obtain ⟨msg, hmsg⟩ := Option.isSome_iff_exists.1 henc
  exact ⟨msg, hmsg, (form_fits hmsg).2 (by decide +kernel)⟩

/-- The most fields that a form may have, with the shortest names: the message has a few hundred bytes,
the arrays alone nearly fill the buffer. -/
def wideForm : Form where
  fields := (List.range ncFormMaxFields).map fun i =>
    { type := some .text, name := some (fmtStr (.ofNat i)) }

theorem wide_form_lost :
    (encodeForm wideForm ncFormMaxMsg).map List.length = some 330 ∧
      ((encodeForm wideForm ncFormMaxMsg).bind (decodeForm ncFormMaxMsg)) = none ∧
      wideForm.room = 2200 := by
  decide +kernel

end Netchan.Auth
