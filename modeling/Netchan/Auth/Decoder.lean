import Netchan.Auth.Form
import Netchan.Idl.Tagged

/-!
# The form decoder in memory

`decode_form` and `decode_answers` of `auth/nc_auth_ia.c` on the memory they work on: a message that
is read, and a buffer of the caller that holds strings and, behind them, three arrays. A string of a
form is a pointer into the buffer, that is, an offset.

Every access is checked. `fault` stands for what must not happen: a read outside the message or the
buffer, a write outside the buffer, an index that is not below the count of its array, a walk over
the strings that misses their end, or a loop that does not end. `err` is `NC_AUTH_ERR`. Positions and
sizes are natural numbers: with a message of `NC_FORM_MAX_MSG` bytes no sum leaves the range of `int`.

* `Buffer.walk`: the loop `for (s = recs; s < end; s = next_str(s))`.
* `Filling`: the arrays and the three indices of the filling loop.
* `decodeForm`, `decodeAnswers`.

`Netchan.Auth.decodeForm` and `Netchan.Auth.decodeAnswers` are the same on values.
-/

namespace Netchan.Auth.Checked

open Lib Idl

/-! ## The buffer -/

/-- The caller's buffer, of `cap` bytes. -/
structure Buffer where
  mem : Mem
  cap : Nat

def Buffer.load (b : Buffer) (p : Nat) : Except Stop UInt8 :=
  if p < b.cap then .ok (b.mem p) else .error .fault

def Buffer.store (b : Buffer) (p : Nat) (d : List UInt8) : Except Stop Buffer :=
  if p + d.length ≤ b.cap then .ok { b with mem := b.mem.write p d } else .error .fault

/-- The bytes from a pointer up to the NUL. -/
def Buffer.scan (b : Buffer) : Nat → Nat → Except Stop CStr
  | 0, _ => .error .fault
  | n + 1, p => do
    let c ← b.load p
    if h : c = 0 then return ⟨[], zero_notMem_nil⟩
    else
      let s ← b.scan n (p + 1)
      return CStr.cons c h s

/-- The string at a pointer. The functions that take one (`strlen`, `key_of`, `type_value`,
`parse_i32`) read no further than its NUL. -/
def Buffer.cstr (b : Buffer) (p : Nat) : Except Stop CStr := b.scan b.cap p

/-- `struct arena`. -/
structure Arena where
  buf : Buffer
  used : Nat := 0

/-- `arena_str`: the pointer, or `NULL`. -/
def arenaStr (ar : Arena) (s : List UInt8) : Except Stop (Option Nat × Arena) :=
  if ar.used + s.length + 1 > ar.buf.cap then .ok (none, ar)
  else do
    let buf ← ar.buf.store ar.used s
    let buf ← buf.store (ar.used + s.length) [0]
    return (some ar.used, ⟨buf, ar.used + s.length + 1⟩)

/-- `arena_array`: the pointer, or `NULL`. -/
def arenaArray (ar : Arena) (count size : Nat) : Option Nat × Arena :=
  let start := (ar.used + 7) / 8 * 8
  if count = 0 then (none, ar)
  else if start + count * size > ar.buf.cap ∨ count > ar.buf.cap / size then (none, ar)
  else (some start, { ar with used := start + count * size })

/-- The loop of `unpack` over a run that stands in the message. -/
def unpackLoop (src : List UInt8) : Nat → Arena → Nat → Except Stop Arena
  | 0, ar, pos => if pos < src.length then .error .fault else .ok ar
  | n + 1, ar, pos =>
    if pos < src.length then
      if pos + 2 > src.length then .error .err
      else do
        let l ← Checked.bytesFrom src pos 2
        let slen := leVal l
        if pos + 2 + slen > src.length then .error .err
        else
          let s ← Checked.bytesFrom src (pos + 2) slen
          let (p, ar) ← arenaStr ar s
          match p with
          | none => .error .err
          | some _ => unpackLoop src n ar (pos + 2 + slen)
    else .ok ar

/-- `unpack`. An entry takes two bytes at least, so the length of the run is enough fuel. -/
def unpack (ar : Arena) (src : List UInt8) : Except Stop Arena := unpackLoop src src.length ar 0

/-- A loop over the strings up to `stop`, with `next_str` between them. -/
def Buffer.walk {σ : Type} (b : Buffer) (stop : Nat) (f : σ → Nat → CStr → Except Stop σ) :
    Nat → σ → Nat → Except Stop σ
  | 0, st, p => if p = stop then .ok st else .error .fault
  | n + 1, st, p =>
    if p < stop then do
      let s ← b.cstr p
      let st ← f st p s
      b.walk stop f n st (p + s.val.length + 1)
    else if p = stop then .ok st
    else .error .fault

/-! ## The arrays -/

/-- `struct nc_form_field`. The options are an index into the array of options. -/
structure FieldRec where
  type : Option FieldType := none
  flags : UInt8 := 0
  name : Option Nat := none
  label : Option Nat := none
  value : Option Nat := none
  pattern : Option Nat := none
  error : Option Nat := none
  size : UInt16 := 0
  maxlength : UInt16 := 0
  min : Int32 := 0
  max : Int32 := 0
  options : Option Nat := none
  noptions : Nat := 0

/-- `struct nc_form_error`. -/
structure ErrorRec where
  name : Option Nat
  message : Option Nat

/-- The arrays and the indices `fi`, `ei`, `oi`; `fi` is -1 before the first field. -/
structure Filling where
  fields : List FieldRec
  errors : List ErrorRec
  opts : List (Option Nat)
  fi : Option Nat := none
  ei : Nat := 0
  oi : Nat := 0

/-- `fi + 1`. -/
def Filling.next (st : Filling) : Nat :=
  match st.fi with
  | none => 0
  | some i => i + 1

def slot {α : Type} (xs : List α) (i : Nat) : Except Stop α :=
  match xs[i]? with
  | some x => .ok x
  | none => .error .fault

def setSlot {α : Type} (xs : List α) (i : Nat) (x : α) : Except Stop (List α) :=
  if i < xs.length then .ok (xs.set i x) else .error .fault

/-! ## A form, decoded -/

/-- The loop body of `decode_form`. -/
def formBody (msg : List UInt8) (p : FormParts) (field wire : UInt8) (pos : Nat) :
    Except Stop (FormParts × Nat) :=
  if wire ≠ msWireBytes then (Checked.msSkip msg pos msg.length wire).map fun pos => (p, pos)
  else if field = fTitle then
    (Checked.msReadBytes msg pos msg.length 0xffff).map fun r => ({ p with title := some r.1 }, r.2)
  else if field = fNote then
    (Checked.msReadBytes msg pos msg.length 0xffff).map fun r => ({ p with note := some r.1 }, r.2)
  else if field = fFields then
    (Checked.msReadBytes msg pos msg.length 0xffff).map fun r => ({ p with blob := some r.1 }, r.2)
  else (Checked.msSkip msg pos msg.length wire).map fun pos => (p, pos)

/-- The loop body of `count_records`. -/
def countStep (c : Nat × Nat × Nat) (_ : Nat) (s : CStr) : Except Stop (Nat × Nat × Nat) :=
  let (nf, ne, nopt) := c
  if (keyOf s .type).isSome then .ok (nf + 1, ne, nopt)
  else if (keyOf s .error).isSome then .ok (nf, ne + 1, nopt)
  else if (keyOf s .option).isSome then .ok (nf, ne, nopt + 1)
  else .ok (nf, ne, nopt)

/-- The pointer that `key_of` returns for the string at `p`. -/
def valueAt (p : Nat) (key : Attr) : Option Nat := some (p + key.bytes.length + 1)

/-- The attributes of a field other than its options and its error. -/
def FieldRec.setAttr (fl : FieldRec) (p : Nat) (s : CStr) : Option FieldRec :=
  if (keyOf s .name).isSome then some { fl with name := valueAt p .name }
  else if (keyOf s .label).isSome then some { fl with label := valueAt p .label }
  else if (keyOf s .value).isSome then some { fl with value := valueAt p .value }
  else if (keyOf s .patt).isSome then some { fl with pattern := valueAt p .patt }
  else if let some num := (keyOf s .size).bind parseI32 then
    some { fl with size := num.toUInt32.toUInt16 }
  else if let some num := (keyOf s .maxlen).bind parseI32 then
    some { fl with maxlength := num.toUInt32.toUInt16 }
  else if let some num := (keyOf s .min).bind parseI32 then some { fl with min := num }
  else if let some num := (keyOf s .max).bind parseI32 then some { fl with max := num }
  else if (keyOf s .req).isSome then some { fl with flags := fl.flags ||| ncFfRequired }
  else if (keyOf s .multi).isSome then some { fl with flags := fl.flags ||| ncFfMulti }
  else none

/-- A string that is no `t=`, with the field it belongs to. -/
def fillAttr (st : Filling) (i : Nat) (fl : FieldRec) (p : Nat) (s : CStr) : Except Stop Filling :=
  if let some fl' := fl.setAttr p s then do
    let fields ← setSlot st.fields i fl'
    return { st with fields }
  else if (keyOf s .option).isSome then
    if fl.noptions ≥ ncFormMaxOptions then .error .err
    else do
      let opts ← setSlot st.opts st.oi (valueAt p .option)
      let fields ← setSlot st.fields i
        { fl with options := some (fl.options.getD st.oi), noptions := fl.noptions + 1 }
      return { st with fields, opts, oi := st.oi + 1 }
  else if (keyOf s .error).isSome then do
    let errors ← setSlot st.errors st.ei ⟨fl.name, valueAt p .error⟩
    let fields ← setSlot st.fields i { fl with error := valueAt p .error }
    return { st with fields, errors, ei := st.ei + 1 }
  else .ok st

/-- The body of the filling loop. -/
def fillStep (st : Filling) (p : Nat) (s : CStr) : Except Stop Filling :=
  match keyOf s .type with
  | some v => do
    let fields ← setSlot st.fields st.next { type := typeValue v }
    if typeValue v = none then .error .err else return { st with fields, fi := some st.next }
  | none =>
    match st.fi with
    | none => .ok st
    | some i => do
      let fl ← slot st.fields i
      fillAttr st i fl p s

/-- `arena_str` of a part that may be absent. -/
def arenaOpt (ar : Arena) : Option (List UInt8) → Except Stop (Option Nat × Arena)
  | none => .ok (none, ar)
  | some s => arenaStr ar s

/-- `a->form` and `a->strings`, the buffer they point into, and the arrays with their places. -/
structure Decoded where
  buf : Buffer
  strings : Nat
  title : Option Nat
  note : Option Nat
  fields : List FieldRec
  errors : List ErrorRec
  nerrors : Nat
  opts : List (Option Nat)
  fieldsAt : Option Nat
  errorsAt : Option Nat
  optsAt : Option Nat

/-- What an array holds before it is filled. -/
structure Junk where
  field : FieldRec
  error : ErrorRec
  option : Option Nat

/-- `decode_form` from the counting pass on; `ar` holds the strings, those of the records from `recs`
on. -/
def decodeRecords (junk : Junk) (ar : Arena) (recs : Nat) (title note : Option Nat) :
    Except Stop Decoded := do
  let strings := ar.used
  let (nf, ne, nopt) ← ar.buf.walk strings countStep strings (0, 0, 0) recs
  if nf > ncFormMaxFields then .error .err
  else
    let (fieldsAt, ar₁) := arenaArray ar nf sizeofField
    let (errorsAt, ar₂) := arenaArray ar₁ ne sizeofError
    let (optsAt, _) := arenaArray ar₂ nopt sizeofPtr
    if (nf ≠ 0 ∧ fieldsAt = none) ∨ (ne ≠ 0 ∧ errorsAt = none) ∨ (nopt ≠ 0 ∧ optsAt = none) then
      .error .err
    else
      let st ← ar.buf.walk strings fillStep strings
        { fields := .replicate nf junk.field, errors := .replicate ne junk.error
          opts := .replicate nopt junk.option } recs
      return { buf := ar.buf, strings, title, note, fields := st.fields, errors := st.errors
               nerrors := st.ei % 256, opts := st.opts, fieldsAt, errorsAt, optsAt }

/-- `decode_form`. -/
def decodeForm (junk : Junk) (b : Buffer) (msg : List UInt8) : Except Stop Decoded := do
  let p ← Checked.readLoop (formBody msg) msg msg.length msg.length {} 1
  let (title, ar) ← arenaOpt ⟨b, 0⟩ p.title
  let (note, ar) ← arenaOpt ar p.note
  if (p.title.isSome ∧ title = none) ∨ (p.note.isSome ∧ note = none) then .error .err
  else
    let recs := ar.used
    let ar ← match p.blob with
      | none => .ok ar
      | some blob => unpack ar blob
    decodeRecords junk ar recs title note

/-! ## Answers -/

/-- The loop body of `decode_answers`. -/
def answersBody (msg : List UInt8) (blob : Option (List UInt8)) (field wire : UInt8) (pos : Nat) :
    Except Stop (Option (List UInt8) × Nat) :=
  if field = fAnswers ∧ wire = msWireBytes then
    (Checked.msReadBytes msg pos msg.length 0xffff).map fun r => (some r.1, r.2)
  else (Checked.msSkip msg pos msg.length wire).map fun pos => (blob, pos)

/-- `decode_answers`: the buffer and `a->strings`. -/
def decodeAnswers (b : Buffer) (msg : List UInt8) : Except Stop Arena := do
  let blob ← Checked.readLoop (answersBody msg) msg msg.length msg.length none 1
  match blob with
  | none => .ok ⟨b, 0⟩
  | some blob => unpack ⟨b, 0⟩ blob

end Netchan.Auth.Checked
