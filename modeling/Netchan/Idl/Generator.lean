import Netchan.Idl.Codec
import Netchan.Lib.Awk

/-!
# The generator

`idl/microser-gen.awk`: the rules that fill its tables from the lines of an `.idl` text, the checks
of its `END` block and the C it then emits. A line is first read (`Tables.read`: which rule runs on
it, with the words the rule takes) and then stored (`Tables.store`). The C is kept as its
declarations and statements, `Code`; the fixed text around them is left out. A name in `Code` is the
word that the program prints where C has a name. The program does not look at it: a word such as
`a[2]` goes into the declaration of a member as well, and what it declares is a.

Tables are newest first where the program changes their last entry.
-/

namespace Netchan.Idl.Gen

open Lib Lib.Awk

variable {N : Type} (A : Numbers N)

/-! ## Tables -/

/-- `rf_type`, `rf_name`, `rf_tag` and their likes: a field. -/
structure FieldRow (N : Type) where
  type : Text
  name : Text
  tag : N
  deriving DecidableEq, Repr

/-- `vv`, `vlabel` and the `vf` arrays: a variant. -/
structure VariantRow (N : Type) where
  label : Text
  value : N
  fields : List (FieldRow N) := []
  deriving DecidableEq, Repr

/-- What is stored of a message. -/
structure MessageRow (N : Type) where
  mn : Text
  /-- the plain fields -/
  rf : List (FieldRow N) := []
  /-- all fields -/
  af : List (FieldRow N) := []
  /-- `mcase`, and the discriminant `mdt`, `mdn`, `mdtag` -/
  md : Option (FieldRow N) := none
  /-- the variants up to `mnv`, newest first -/
  variants : List (VariantRow N) := []
  /-- the indices in `vunknown` -/
  vunknown : List Nat := []
  deriving DecidableEq, Repr

structure EnumRow (N : Type) where
  en : Text
  entries : List (Text × N) := []
  deriving DecidableEq, Repr

/-- `dm_tag`, `dm_msg`: a line of a dispatch. -/
structure DispatchLine (N : Type) where
  tag : N
  msg : Text
  deriving DecidableEq, Repr

structure DispatchRow (N : Type) where
  dn : Text
  lines : List (DispatchLine N) := []
  deriving DecidableEq, Repr

/-- `state`. -/
inductive Mode
  | top | inEnum | inMsg | inCase | inVar | inDispatch
  deriving DecidableEq, Repr

/-- The variables of the program. -/
structure Tables (N : Type) where
  state : Mode := .top
  enums : List (EnumRow N) := []
  enumLookup : List (Text × N) := []
  messages : List (MessageRow N) := []
  dispatches : List (DispatchRow N) := []

/-! ## Reading a line -/

/-- The rule that runs on a line and the words that it takes. -/
inductive Line (N : Type)
  | ignored
  | enumStart (name : Text)
  | enumEntry (name : Text) (val : N)
  | blockEnd
  | messageStart (name : Text)
  | caseStart (disc : FieldRow N)
  | field (f : FieldRow N)
  | caseEnd
  /-- a variant, with no value if the label means nothing -/
  | label (label : Text) (value : Option N)
  | varField (f : FieldRow N)
  | dispatchStart (name : Text)
  | dispatchLine (l : DispatchLine N)
  deriving DecidableEq, Repr

/-- `sub(/#.*/, "")` and the trimming. -/
def stripped (s : Text) : Text := trim (s.takeWhile fun b => b ≠ 35)

/-- What a label stands for: a value of an enum, or the number it is. -/
def resolve (enumLookup : List (Text × N)) (label : Text) : Option N :=
  match enumLookup.find? fun e => e.1 = label with
  | some e => some e.2
  | none => if isInteger label then some (A.ofText label) else none

/-- A line `<type> <name> = <number>`. -/
def fieldLine (s : Text) : FieldRow N := ⟨word 1 s, word 2 s, A.ofText (word 4 s)⟩

/-- A line `case <type> <name> = <number>`. -/
def caseLine (s : Text) : FieldRow N := ⟨word 2 s, word 3 s, A.ofText (word 5 s)⟩

/-- `label = $1; sub(/:$/, "", label)`. -/
def labelOf (s : Text) : Text :=
  let l := word 1 s
  if l.getLast? = some 58 then l.dropLast else l

/-- The patterns of the rules, in their order. -/
def Tables.read (t : Tables N) (record : Text) : Line N :=
  let s := stripped record
  let w := word 1 s
  let stops := w = ascii "end"
  if s = [] then .ignored
  else if w = ascii "enum" then .enumStart (word 2 s)
  else if t.state = .inEnum ∧ stops then .blockEnd
  else if t.state = .inEnum then .enumEntry (splitEq s).1 (A.ofText (splitEq s).2)
  else if w = ascii "message" then .messageStart (word 2 s)
  else if t.state = .inMsg ∧ stops then .blockEnd
  else if t.state = .inMsg ∧ w = ascii "case" then .caseStart (caseLine A s)
  else if t.state = .inMsg then .field (fieldLine A s)
  else if t.state = .inCase ∧ stops then .caseEnd
  else if (t.state = .inCase ∨ t.state = .inVar) ∧ s.getLast? = some 58 then
    .label (labelOf s) (resolve A t.enumLookup (labelOf s))
  else if t.state = .inVar ∧ stops then .caseEnd
  else if t.state = .inVar then .varField (fieldLine A s)
  else if w = ascii "dispatch" then .dispatchStart (word 2 s)
  else if t.state = .inDispatch ∧ stops then .blockEnd
  else if t.state = .inDispatch then .dispatchLine ⟨A.ofText w, word 2 s⟩
  else .ignored

/-! ## Storing a line -/

def MessageRow.startCase (m : MessageRow N) (disc : FieldRow N) : MessageRow N :=
  { m with md := some disc, variants := [], af := m.af ++ [disc] }

def MessageRow.addField (m : MessageRow N) (f : FieldRow N) : MessageRow N :=
  { m with rf := m.rf ++ [f], af := m.af ++ [f] }

/-- A label that means nothing is stored as 0 and flagged. -/
def MessageRow.addLabel (m : MessageRow N) (label : Text) (value : Option N) : MessageRow N :=
  { m with
    variants := { label, value := value.getD (A.ofInt 0) } :: m.variants
    vunknown := if value = none then m.vunknown ++ [m.variants.length + 1] else m.vunknown }

def VariantRow.addField (v : VariantRow N) (f : FieldRow N) : VariantRow N :=
  { v with fields := v.fields ++ [f] }

def MessageRow.addVarField (m : MessageRow N) (f : FieldRow N) : MessageRow N :=
  { m with variants := m.variants.modifyHead (·.addField f), af := m.af ++ [f] }

def EnumRow.addEntry (e : EnumRow N) (name : Text) (val : N) : EnumRow N :=
  { e with entries := e.entries ++ [(name, val)] }

def DispatchRow.addLine (d : DispatchRow N) (l : DispatchLine N) : DispatchRow N :=
  { d with lines := d.lines ++ [l] }

/-- The actions of the rules. -/
def Tables.store (t : Tables N) : Line N → Tables N
  | .ignored => t
  | .enumStart en => { t with state := .inEnum, enums := { en } :: t.enums }
  | .enumEntry name val =>
    { t with
      enums := t.enums.modifyHead (·.addEntry name val)
      enumLookup := (name, val) :: t.enumLookup }
  | .blockEnd => { t with state := .top }
  | .messageStart mn => { t with state := .inMsg, messages := { mn } :: t.messages }
  | .caseStart disc =>
    { t with state := .inCase, messages := t.messages.modifyHead (·.startCase disc) }
  | .field f => { t with messages := t.messages.modifyHead (·.addField f) }
  | .caseEnd => { t with state := .inMsg }
  | .label label value =>
    { t with state := .inVar, messages := t.messages.modifyHead (·.addLabel A label value) }
  | .varField f => { t with messages := t.messages.modifyHead (·.addVarField f) }
  | .dispatchStart dn => { t with state := .inDispatch, dispatches := { dn } :: t.dispatches }
  | .dispatchLine l => { t with dispatches := t.dispatches.modifyHead (·.addLine l) }

/-- The lines of a text as the rules read them one after the other. -/
def Tables.lines (t : Tables N) : List Text → List (Line N)
  | [] => []
  | r :: rs => t.read A r :: (t.store A (t.read A r)).lines rs

/-- The lines of an `.idl` text. -/
def idlLines (text : Text) : List (Line N) := Tables.lines A {} (records text)

/-- The tables when `END` is reached. -/
def tables (text : Text) : Tables N := (idlLines A text).foldl (·.store A) {}

/-! ## Names and types -/

/-- `to_snake`: an underscore before every upper-case letter but the first character. -/
def toSnake : Text → Text
  | [] => []
  | b :: s => lower b :: s.flatMap fun b => if isUpper b then [95, lower b] else [b]

def isBytes (ty : Text) : Bool := ty = ascii "bytes" || ty = ascii "string"

/-- `is_enum`, over the names of the enums. -/
def isEnum (en : List Text) (ty : Text) : Bool := en.any (A.same ty)

/-- `c_type`. -/
def cType (ty : Text) : Text :=
  if ty ∈ ["int8", "int16", "int32", "int64", "uint8", "uint16", "uint32", "uint64"].map ascii then
    ty ++ ascii "_t"
  else if isBytes ty then [] else toSnake ty ++ ascii "_t"

/-- `rw_suffix`: the suffix of the helpers for a type. -/
def rwSuffix (en : List Text) (ty : Text) : Text :=
  if ty = ascii "uint8" then ascii "u8"
  else if ty = ascii "int8" then ascii "i8"
  else if ty = ascii "uint16" then ascii "u16"
  else if ty = ascii "int16" then ascii "i16"
  else if ty = ascii "uint32" then ascii "u32"
  else if ty = ascii "int32" then ascii "i32"
  else if ty = ascii "uint64" then ascii "u64"
  else if ty = ascii "int64" then ascii "i64"
  else if isEnum A en ty then ascii "u8"
  else []

def Tables.enumNames (t : Tables N) : List Text := t.enums.reverse.map EnumRow.en

/-! ## The checks of `END` -/

/-- `if (c) fail(msg)`. -/
def failIf (c : Bool) (msg : Text) : List Text := if c then [msg] else []

/-- A text in quotes. -/
def quoted (s : Text) : Text := 34 :: s ++ [34]

/-- A number outside a range. -/
def outside (n : N) (lo hi : Int) : Bool := A.lt n (A.ofInt lo) || A.lt (A.ofInt hi) n

/-- What is wrong with a field by itself. -/
def fieldFaults (en : List Text) (mn : Text) (f : FieldRow N) : List Text :=
  failIf (!isBytes f.type && rwSuffix A en f.type = [])
      (ascii "message " ++ mn ++ ascii ": field " ++ quoted f.name ++ ascii " has unknown type " ++
        quoted f.type) ++
    failIf (outside A f.tag 1 31)
      (ascii "message " ++ mn ++ ascii ": field " ++ quoted f.name ++ ascii " has number " ++
        A.decimal f.tag ++ ascii ", outside 1 to 31")

/-- Two fields of one number. -/
def numberFaults (mn : Text) (f g : FieldRow N) : List Text :=
  failIf (A.eq f.tag g.tag)
    (ascii "message " ++ mn ++ ascii ": " ++ quoted f.name ++ ascii " and " ++ quoted g.name ++
      ascii " share field number " ++ A.decimal f.tag)

/-- A variant with its index, whose label means nothing. -/
def labelFaults (m : MessageRow N) (v : VariantRow N × Nat) : List Text :=
  failIf (v.2 ∈ m.vunknown)
    (ascii "message " ++ m.mn ++ ascii ": variant label " ++ quoted v.1.label ++
      ascii " is neither a number nor a value of any declared enum")

/-- Two variants of one value. -/
def variantFaults (m : MessageRow N) (v w : VariantRow N × Nat) : List Text :=
  failIf (v.2 ∉ m.vunknown && w.2 ∉ m.vunknown && A.eq v.1.value w.1.value)
    (ascii "message " ++ m.mn ++ ascii ": variants " ++ quoted v.1.label ++ ascii " and " ++
      quoted w.1.label ++ ascii " are both " ++ A.decimal v.1.value)

/-- The variants in the order of the text, with their indices. -/
def MessageRow.indexed (m : MessageRow N) : List (VariantRow N × Nat) :=
  m.variants.reverse.zipIdx 1

def messageFaults (en : List Text) (m : MessageRow N) : List Text :=
  m.af.flatMap (fieldFaults A en m.mn) ++
    ((later m.af).flatMap fun p => p.2.flatMap (numberFaults A m.mn p.1)) ++
    ((later m.indexed).flatMap fun p => labelFaults m p.1 ++ p.2.flatMap (variantFaults A m p.1))

/-- What is wrong with a line of a dispatch by itself. -/
def lineFaults (mns : List Text) (dn : Text) (l : DispatchLine N) : List Text :=
  failIf (!mns.any fun mn => A.same mn l.msg)
      (ascii "dispatch " ++ dn ++ ascii ": no message named " ++ quoted l.msg) ++
    failIf (outside A l.tag 1 255)
      (ascii "dispatch " ++ dn ++ ascii ": " ++ quoted l.msg ++ ascii " has tag " ++
        A.decimal l.tag ++ ascii ", outside 1 to 255")

/-- Two lines of one tag. -/
def tagFaults (dn : Text) (k l : DispatchLine N) : List Text :=
  failIf (A.eq k.tag l.tag)
    (ascii "dispatch " ++ dn ++ ascii ": " ++ quoted k.msg ++ ascii " and " ++ quoted l.msg ++
      ascii " share tag " ++ A.decimal k.tag)

def dispatchFaults (mns : List Text) (d : DispatchRow N) : List Text :=
  (later d.lines).flatMap fun p => lineFaults A mns d.dn p.1 ++ p.2.flatMap (tagFaults A d.dn p.1)

/-- Every `fail` of the checks. -/
def Tables.faults (t : Tables N) : List Text :=
  t.messages.reverse.flatMap (messageFaults A t.enumNames) ++
    t.dispatches.reverse.flatMap (dispatchFaults A (t.messages.reverse.map MessageRow.mn))

/-! ## The C that is emitted -/

/-- A member of a struct: a field, or the length beside a `bytes` or `string` field; the word that is
printed behind the type. -/
structure Member where
  type : Text
  name : Text
  isLen : Bool
  deriving DecidableEq, Repr

/-- `pos = <helper>(buf, pos, len, <number>, msg-><member>)`, for `bytes` and `string` also with
`msg-><member>_len`. -/
structure Write where
  helper : Text
  number : Int
  member : Text
  deriving DecidableEq, Repr

structure Case where
  label : Int
  body : List Write
  deriving DecidableEq, Repr

/-- The write of the discriminant and `switch (msg-><member>)`, with the type of the member. -/
structure Switch where
  write : Write
  ty : Ty
  cases : List Case
  deriving DecidableEq, Repr

/-- The statements of `X_encode`. -/
structure Encode where
  writes : List Write
  switch : Option Switch
  deriving DecidableEq, Repr

/-- `case <label>: pos = <helper>(buf, pos, end, ...msg-><member>...)`. -/
structure Read where
  label : Int
  helper : Text
  member : Text
  deriving DecidableEq, Repr

/-- `struct X`, `X_encode` and `X_decode`, with the cases of its `switch (tag >> 3)`. -/
structure Codec where
  name : Text
  members : List Member
  encode : Encode
  decode : List Read
  deriving DecidableEq, Repr

/-- `case <label>: n = <message>_decode(&out->u.<message>, ...)`; the label is a macro. -/
structure Entry where
  label : Text
  message : Text
  deriving DecidableEq, Repr

/-- `struct D_msg`, with a member of its union for each entry, and the entries of `D_decode`. -/
structure DispatchCode where
  name : Text
  entries : List Entry
  deriving DecidableEq, Repr

/-- The header and the source. -/
structure Code where
  typedefs : List Text
  /-- `#define`s, in order -/
  defines : List (Text × Int)
  codecs : List Codec
  dispatches : List DispatchCode
  deriving DecidableEq, Repr

/-- `X_len`. -/
def lenName (name : Text) : Text := name ++ ascii "_len"

/-- What becomes of a field in the struct: the word of the text is printed as it stands. -/
def members (f : FieldRow N) : List Member :=
  if f.type = ascii "bytes" then
    [⟨ascii "const uint8_t *", f.name, false⟩, ⟨ascii "uint16_t", lenName f.name, true⟩]
  else if f.type = ascii "string" then
    [⟨ascii "const char *", f.name, false⟩, ⟨ascii "uint16_t", lenName f.name, true⟩]
  else [⟨cType f.type, f.name, false⟩]

/-- The suffix of the helpers, `bytes` included. -/
def helperSuffix (en : List Text) (ty : Text) : Text :=
  if isBytes ty then ascii "bytes" else rwSuffix A en ty

/-- The write of a plain field or a variant's field. -/
def writeField (en : List Text) (f : FieldRow N) : Write :=
  ⟨ascii "ms_write_tag_" ++ helperSuffix A en f.type, A.print f.tag, f.name⟩

/-- The write of the discriminant, which is not asked whether it is `bytes`. -/
def writeDisc (en : List Text) (f : FieldRow N) : Write :=
  ⟨ascii "ms_write_tag_" ++ rwSuffix A en f.type, A.print f.tag, f.name⟩

def readField (en : List Text) (f : FieldRow N) : Read :=
  ⟨A.print f.tag, ascii "ms_read_" ++ helperSuffix A en f.type, f.name⟩

/-- The C type that a type of a field stands for. -/
def tyOf (en : List Text) (ty : Text) : Ty :=
  if ty = ascii "uint8" then .uint8
  else if ty = ascii "int8" then .int8
  else if ty = ascii "uint16" then .uint16
  else if ty = ascii "int16" then .int16
  else if ty = ascii "uint32" then .uint32
  else if ty = ascii "int32" then .int32
  else if ty = ascii "uint64" then .uint64
  else if ty = ascii "int64" then .int64
  else if isEnum A en ty then .enum
  else if ty = ascii "string" then .string
  else .bytes

def caseOf (en : List Text) (v : VariantRow N) : Case :=
  ⟨A.print v.value, v.fields.map (writeField A en)⟩

def switchOf (en : List Text) (m : MessageRow N) (disc : FieldRow N) : Switch where
  write := writeDisc A en disc
  ty := tyOf A en disc.type
  cases := m.variants.reverse.map (caseOf A en)

def codec (en : List Text) (m : MessageRow N) : Codec where
  name := toSnake m.mn
  members := m.af.flatMap members
  encode := ⟨m.rf.map (writeField A en), m.md.map (switchOf A en m)⟩
  decode := m.af.map (readField A en)

/-- `<DISPATCH>_<MESSAGE>`, and in the same way `<ENUM>_<VALUE>`. -/
def tagName (dn msg : Text) : Text := toUpper (toSnake dn) ++ ascii "_" ++ toUpper (toSnake msg)

def enumDefines (e : EnumRow N) : List (Text × Int) :=
  e.entries.map fun p => (tagName e.en p.1, A.print p.2)

def dispatchDefines (d : DispatchRow N) : List (Text × Int) :=
  (toUpper (toSnake d.dn) ++ ascii "_NONE", 0) ::
    d.lines.map fun l => (tagName d.dn l.msg, A.print l.tag)

def dispatchCode (d : DispatchRow N) : DispatchCode where
  name := toSnake d.dn
  entries := d.lines.map fun l => ⟨tagName d.dn l.msg, toSnake l.msg⟩

def Tables.code (t : Tables N) : Code where
  typedefs := t.enums.reverse.map fun e => toSnake e.en ++ ascii "_t"
  defines := t.enums.reverse.flatMap (enumDefines A) ++
    t.dispatches.reverse.flatMap (dispatchDefines A)
  codecs := t.messages.reverse.map (codec A t.enumNames)
  dispatches := t.dispatches.reverse.map dispatchCode

/-- `microser-gen.awk`: the C for a text, or what is wrong with the text. -/
def microserGen (text : Text) : Except (List Text) Code :=
  let t := tables A text
  if t.faults A = [] then .ok (t.code A) else .error (t.faults A)

end Netchan.Idl.Gen
