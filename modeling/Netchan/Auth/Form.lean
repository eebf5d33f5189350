import Netchan.Idl.Microser

/-!
# Forms

Forms and answers as `auth/nc_auth_ia.c` puts them on the wire: a run of length-prefixed strings
`key=value` inside one bytes field.

* A `const char *` is an `Option CStr`; an array with its count is a list. The nine field types are
  `FieldType`, and any other byte is `none`.
* `Arena` is the caller's buffer: the room used and the text of the strings in it. A decoded string is
  a value, not a pointer into the buffer. The buffer is written again only when no form is shown.
* The arrays that `decode_form` carves are lists here; what remains of the carving is the room that
  it takes, with the structure sizes of a 64-bit machine.
* `none` is `NC_AUTH_ERR`.
-/

namespace Netchan.Auth

open Lib Idl

/-! ## Types -/

inductive FieldType
  | text | password | email | integer | phone | bool | choice | note | link
  deriving DecidableEq, Repr

abbrev ncFormMaxMsg : Nat := 2000
abbrev ncFormMaxFields : Nat := 24
abbrev ncFormMaxOptions : Nat := 16
abbrev ncFormMaxLabel : Nat := 128
abbrev ncFormMaxToken : Nat := 64

abbrev ncFfRequired : UInt8 := 1
abbrev ncFfMulti : UInt8 := 2

/-- `struct nc_form_field`. -/
structure Field where
  type : Option FieldType := none
  flags : UInt8 := 0
  name : Option CStr := none
  label : Option CStr := none
  value : Option CStr := none
  pattern : Option CStr := none
  error : Option CStr := none
  size : UInt16 := 0
  maxlength : UInt16 := 0
  min : Int32 := 0
  max : Int32 := 0
  options : List (Option CStr) := []
  deriving DecidableEq

/-- `struct nc_form_error`. -/
structure FormError where
  name : Option CStr
  message : Option CStr
  deriving DecidableEq

/-- `struct nc_form`. -/
structure Form where
  title : Option CStr := none
  note : Option CStr := none
  fields : List Field := []
  errors : List FormError := []
  deriving DecidableEq

/-- `struct nc_form_value`. -/
structure FormValue where
  text : Option CStr := none
  number : Int32 := 0
  choice : UInt32 := 0
  on : Bool := false

/-- The keys of a record. -/
inductive Attr
  | type | name | label | value | patt | size | maxlen | min | max | option | req | multi | error
  deriving DecidableEq, Repr

def chars (l : List Char) : List UInt8 := l.map Char.toUInt8

def Attr.bytes : Attr → List UInt8
  | .type => chars ['t']
  | .name => chars ['n']
  | .label => chars ['l']
  | .value => chars ['v']
  | .patt => chars ['p']
  | .size => chars ['s', 'z']
  | .maxlen => chars ['m', 'l']
  | .min => chars ['l', 'o']
  | .max => chars ['h', 'i']
  | .option => chars ['o']
  | .req => chars ['r']
  | .multi => chars ['m']
  | .error => chars ['e']

/-- `TYPE_NAMES`. -/
def typeNames : List (List UInt8 × FieldType) :=
  [(chars ['t', 'e', 'x', 't'], .text),
    (chars ['p', 'a', 's', 's', 'w', 'o', 'r', 'd'], .password),
    (chars ['e', 'm', 'a', 'i', 'l'], .email),
    (chars ['i', 'n', 't', 'e', 'g', 'e', 'r'], .integer),
    (chars ['p', 'h', 'o', 'n', 'e'], .phone),
    (chars ['b', 'o', 'o', 'l'], .bool),
    (chars ['c', 'h', 'o', 'i', 'c', 'e'], .choice),
    (chars ['n', 'o', 't', 'e'], .note),
    (chars ['l', 'i', 'n', 'k'], .link)]

/-- `type_name`. -/
def typeName (t : Option FieldType) : Option (List UInt8) :=
  (typeNames.find? fun e => some e.2 = t).map (·.1)

/-- `type_value`. -/
def typeValue (s : CStr) : Option FieldType := (typeNames.find? fun e => e.1 = s.val).map (·.2)

/-- `type_is_prose`. -/
def typeIsProse (t : Option FieldType) : Bool := t = some .note ∨ t = some .link

/-! ## Small text conversions -/

/-- The digits of a number. `n` bounds their count. -/
def fmtDigits : Nat → Nat → List UInt8
  | 0, _ => []
  | n + 1, u => (if u / 10 > 0 then fmtDigits n (u / 10) else []) ++ [48 + UInt8.ofNat (u % 10)]

/-- `fmt_i32`: ten digits hold every absolute value. -/
def fmtI32 (v : Int32) : List UInt8 := (if v < 0 then ['-'.toUInt8] else []) ++ fmtDigits 10 v.toInt.natAbs

/-- The loop of `parse_i32`. Its last step can overflow, and wraps. -/
def parseDigits : Int32 → List UInt8 → Option Int32
  | v, [] => some v
  | v, c :: s =>
    if c < 48 ∨ 57 < c then none
    else if v > 214748364 then none
    else parseDigits (v * 10 + Int32.ofNat (c.toNat - 48)) s

/-- `parse_i32`. -/
def parseI32 (s : CStr) : Option Int32 :=
  let neg := byte s.val 0 = '-'.toUInt8
  let s := if neg then s.val.drop 1 else s.val
  if s = [] then none else (parseDigits 0 s).map fun v => if neg then -v else v

/-- `key_of`. -/
def keyOf (s : CStr) (key : Attr) : Option CStr :=
  let n := key.bytes.length
  if s.val.take n = key.bytes ∧ byte s.val n = '='.toUInt8 then
    some ⟨s.val.drop (n + 1), fun h => s.property (List.mem_of_mem_drop h)⟩
  else none

/-! ## Writing a stringlist -/

/-- `struct sink`, over a buffer of `NC_FORM_MAX_MSG` bytes. -/
structure Sink where
  buf : List UInt8 := []
  err : Bool := false
  deriving DecidableEq

/-- One string of a stringlist. -/
def record (key : Attr) (val : List UInt8) : List UInt8 := key.bytes ++ '='.toUInt8 :: val

/-- `sink_put`. -/
def sinkPut (sk : Sink) (key : Attr) (val : List UInt8) : Sink :=
  let n := key.bytes.length + 1 + val.length
  if sk.err then sk
  else if n > 0xffff ∨ sk.buf.length + 2 + n > ncFormMaxMsg then { sk with err := true }
  else { sk with buf := sk.buf ++ (wrLe16 n ++ record key val) }

/-- `sink_str`. -/
def sinkStr (sk : Sink) (key : Attr) : Option CStr → Sink
  | none => sk
  | some val => sinkPut sk key val.val

/-- `sink_num`. -/
def sinkNum (sk : Sink) (key : Attr) (val : Int32) : Sink := sinkPut sk key (fmtI32 val)

/-! ## Reading a stringlist -/

/-- `struct arena`. -/
structure Arena where
  cap : Nat
  used : Nat := 0
  text : List UInt8 := []
  deriving DecidableEq

/-- `arena_str`. -/
def arenaStr (ar : Arena) (s : List UInt8) : Option Arena :=
  if ar.used + s.length + 1 > ar.cap then none
  else some { ar with used := ar.used + s.length + 1, text := ar.text ++ (s ++ [0]) }

/-- `arena_array`, with room for `count` elements. -/
def arenaArray (ar : Arena) (count size : Nat) : Option Arena :=
  let start := (ar.used + 7) / 8 * 8
  if count = 0 then none
  else if start + count * size > ar.cap ∨ count > ar.cap / size then none
  else some { ar with used := start + count * size }

/-- The callers of `arena_array` take a null pointer for an error only if they asked for elements. -/
def carve (ar : Arena) (count size : Nat) : Option Arena :=
  match arenaArray ar count size with
  | some ar => some ar
  | none => if count = 0 then some ar else none

/-- `unpack`; an entry takes two bytes at least, so the length of the run is enough fuel. -/
def unpackLoop : Nat → Arena → List UInt8 → Option Arena
  | _, ar, [] => some ar
  | n + 1, ar, lo :: hi :: src =>
    let slen := rdLe16 lo hi
    if slen > src.length then none
    else
      match arenaStr ar (src.take slen) with
      | none => none
      | some ar => unpackLoop n ar (src.drop slen)
  | _, _, _ => none

def unpack (ar : Arena) (src : List UInt8) : Option Arena := unpackLoop src.length ar src

/-! ## A form, encoded -/

abbrev msgIaForm : UInt8 := 0x17
abbrev msgIaSubmit : UInt8 := 0x18

abbrev fTitle : UInt8 := 1
abbrev fNote : UInt8 := 2
abbrev fFields : UInt8 := 3
abbrev fToken : UInt8 := 4
abbrev fMethod : UInt8 := 1
abbrev fAnswers : UInt8 := 1

/-- The error text of a field: its own, or the first entry of the error array that names it. -/
def Form.errorOf (f : Form) (fl : Field) : Option CStr :=
  match fl.error with
  | some e => some e
  | none => ((f.errors.find? fun e => fl.name.isSome && e.name = fl.name).map (·.message)).join

/-- One record of `encode_form`. -/
def encodeField (f : Form) (sk : Sink) (fl : Field) (tn : List UInt8) : Sink :=
  let sk := sinkPut sk .type tn
  let sk := sinkStr sk .name fl.name
  let sk := sinkStr sk .label fl.label
  let sk := sinkStr sk .value fl.value
  let sk := sinkStr sk .patt fl.pattern
  let sk := if fl.size ≠ 0 then sinkNum sk .size (.ofNat fl.size.toNat) else sk
  let sk := if fl.maxlength ≠ 0 then sinkNum sk .maxlen (.ofNat fl.maxlength.toNat) else sk
  let sk := if fl.type = some .integer ∧ fl.min ≠ fl.max then
    sinkNum (sinkNum sk .min fl.min) .max fl.max else sk
  let sk := if fl.options.length ≤ ncFormMaxOptions then
    fl.options.foldl (fun sk o => sinkStr sk .option o) sk else sk
  let sk := if fl.flags &&& ncFfRequired ≠ 0 then sinkPut sk .req (chars ['1']) else sk
  let sk := if fl.flags &&& ncFfMulti ≠ 0 then sinkPut sk .multi (chars ['1']) else sk
  sinkStr sk .error (f.errorOf fl)

/-- The loop of `encode_form` over the fields. -/
def encodeFields (f : Form) : Sink → List Field → Option Sink
  | sk, [] => some sk
  | sk, fl :: fls =>
    match typeName fl.type with
    | none => none
    | some tn => encodeFields f (encodeField f sk fl tn) fls

/-- A string field of a message, cut as its length is cut to 16 bits. -/
def writeStr (out : List UInt8) (outlen : Nat) (field : UInt8) : Option CStr → Option (List UInt8)
  | none => some out
  | some s => msWriteTagBytes out outlen field (s.val.take (s.val.length % 65536))

/-- `encode_form`. -/
def encodeForm (f : Form) (outlen : Nat) : Option (List UInt8) :=
  if f.fields.length > ncFormMaxFields then none
  else do
    let sk ← encodeFields f {} f.fields
    if sk.err ∨ outlen < 1 then none
    else
      let out ← writeStr [msgIaForm] outlen fTitle f.title
      let out ← writeStr out outlen fNote f.note
      msWriteTagBytes out outlen fFields sk.buf

/-! ## A form, decoded -/

/-- The fields that the loop of `decode_form` picks up. -/
structure FormParts where
  title : Option (List UInt8) := none
  note : Option (List UInt8) := none
  blob : Option (List UInt8) := none

/-- The loop body of `decode_form`. -/
def formBody (msg : List UInt8) (p : FormParts) (field wire : UInt8) (pos : Nat) :
    Option (FormParts × Nat) :=
  if wire ≠ msWireBytes then (msSkip msg pos msg.length wire).map fun pos => (p, pos)
  else if field = fTitle then
    (msReadBytes msg pos msg.length 0xffff).map fun r => ({ p with title := some r.1 }, r.2)
  else if field = fNote then
    (msReadBytes msg pos msg.length 0xffff).map fun r => ({ p with note := some r.1 }, r.2)
  else if field = fFields then
    (msReadBytes msg pos msg.length 0xffff).map fun r => ({ p with blob := some r.1 }, r.2)
  else (msSkip msg pos msg.length wire).map fun pos => (p, pos)

/-- `count_records`: the fields, the errors and the options. -/
def countRecords : List CStr → Nat × Nat × Nat
  | [] => (0, 0, 0)
  | s :: ss =>
    let (nf, ne, nopt) := countRecords ss
    if (keyOf s .type).isSome then (nf + 1, ne, nopt)
    else if (keyOf s .error).isSome then (nf, ne + 1, nopt)
    else if (keyOf s .option).isSome then (nf, ne, nopt + 1)
    else (nf, ne, nopt)

/-- The filling loop of `decode_form`: the fields that are complete, the field that is filled and the
errors. -/
structure Fill where
  done : List Field := []
  cur : Option Field := none
  errors : List FormError := []

/-- The attributes of a field other than its options and its error. -/
def Field.setAttr (fl : Field) (s : CStr) : Option Field :=
  if let some v := keyOf s .name then some { fl with name := some v }
  else if let some v := keyOf s .label then some { fl with label := some v }
  else if let some v := keyOf s .value then some { fl with value := some v }
  else if let some v := keyOf s .patt then some { fl with pattern := some v }
  else if let some num := (keyOf s .size).bind parseI32 then
    some { fl with size := num.toUInt32.toUInt16 }
  else if let some num := (keyOf s .maxlen).bind parseI32 then
    some { fl with maxlength := num.toUInt32.toUInt16 }
  else if let some num := (keyOf s .min).bind parseI32 then some { fl with min := num }
  else if let some num := (keyOf s .max).bind parseI32 then some { fl with max := num }
  else if (keyOf s .req).isSome then some { fl with flags := fl.flags ||| ncFfRequired }
  else if (keyOf s .multi).isSome then some { fl with flags := fl.flags ||| ncFfMulti }
  else none

/-- One string of the filling loop. -/
def fillStep (fi : Fill) (s : CStr) : Option Fill :=
  match keyOf s .type with
  | some v =>
    match typeValue v with
    | none => none
    | some ty => some { fi with done := fi.done ++ fi.cur.toList, cur := some { type := some ty } }
  | none =>
    match fi.cur with
    | none => some fi
    | some fl =>
      if let some fl' := fl.setAttr s then some { fi with cur := some fl' }
      else if let some v := keyOf s .option then
        if fl.options.length ≥ ncFormMaxOptions then none
        else some { fi with cur := some { fl with options := fl.options ++ [some v] } }
      else if let some v := keyOf s .error then
        some { fi with cur := some { fl with error := some v }
                       errors := fi.errors ++ [⟨fl.name, some v⟩] }
      else some fi

/-- The filling loop. -/
def fillLoop : Fill → List CStr → Option Fill
  | fi, [] => some fi
  | fi, s :: ss =>
    match fillStep fi s with
    | none => none
    | some fi' => fillLoop fi' ss

abbrev sizeofField : Nat := 80
abbrev sizeofError : Nat := 16
abbrev sizeofPtr : Nat := 8

/-- `arena_str` of a field that may be absent. -/
def arenaOpt (ar : Arena) : Option (List UInt8) → Option Arena
  | none => some ar
  | some s => arenaStr ar s

/-- `decode_form` into a buffer of `cap` bytes: the form, and the text of the strings. -/
def decodeForm (cap : Nat) (msg : List UInt8) : Option (Form × List UInt8) := do
  let p ← readTags formBody msg {}
  let ar ← arenaOpt { cap } p.title
  let ar ← arenaOpt ar p.note
  let recs := ar.text.length
  let ar ← match p.blob with
    | none => some ar
    | some blob => unpack ar blob
  let strs := cstrs (ar.text.drop recs)
  let (nf, ne, nopt) := countRecords strs
  if nf > ncFormMaxFields then none
  else
    let ar' ← carve ar nf sizeofField
    let ar' ← carve ar' ne sizeofError
    let _ ← carve ar' nopt sizeofPtr
    let fi ← fillLoop {} strs
    some ({ title := p.title.map .ofBytes, note := p.note.map .ofBytes
            fields := fi.done ++ fi.cur.toList
            errors := fi.errors.take (fi.errors.length % 256) }, ar.text)

/-! ## Answers -/

/-- One answer of `encode_answers`. -/
def encodeAnswer (sk : Sink) (fl : Field) (v : FormValue) : Sink :=
  if typeIsProse fl.type ∨ fl.name = none then sk
  else
    let sk := sinkStr sk .name fl.name
    match fl.type with
    | some .integer => sinkNum sk .value v.number
    | some .bool => sinkPut sk .value (if v.on then chars ['1'] else chars ['0'])
    | some .choice =>
      if fl.flags &&& ncFfMulti ≠ 0 then
        (List.range fl.options.length).foldl (fun sk o =>
          if v.choice &&& (1 <<< UInt32.ofNat o) ≠ 0 then sinkNum sk .value (.ofNat o) else sk) sk
      else sinkNum sk .value v.choice.toInt32
    | _ => sinkPut sk .value ((v.text.map (·.val)).getD [])

/-- `encode_answers`. -/
def encodeAnswers (f : Form) (vals : List FormValue) (outlen : Nat) : Option (List UInt8) :=
  let sk := (f.fields.zip vals).foldl (fun sk x => encodeAnswer sk x.1 x.2) {}
  if sk.err ∨ outlen < 1 then none else msWriteTagBytes [msgIaSubmit] outlen fAnswers sk.buf

/-- The loop body of `decode_answers`. -/
def answersBody (msg : List UInt8) (blob : Option (List UInt8)) (field wire : UInt8) (pos : Nat) :
    Option (Option (List UInt8) × Nat) :=
  if field = fAnswers ∧ wire = msWireBytes then
    (msReadBytes msg pos msg.length 0xffff).map fun r => (some r.1, r.2)
  else (msSkip msg pos msg.length wire).map fun pos => (blob, pos)

/-- `decode_answers` into a buffer of `cap` bytes: the text of the strings. -/
def decodeAnswers (cap : Nat) (msg : List UInt8) : Option (List UInt8) := do
  let blob ← readTags answersBody msg none
  let ar ← match blob with
    | none => some { cap }
    | some blob => unpack { cap } blob
  some ar.text

end Netchan.Auth
