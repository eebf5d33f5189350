import Netchan.Idl.Tagged

/-!
# Generated codecs

What `idl/microser-gen.awk` emits for a schema: `X_encode` and `X_decode` of a message, and the
encoders and the decoder of a dispatch. The generator's output depends on the schema only through
its fields' types and numbers, its variants' labels and its dispatch tags, so these functions take
them as data; a field is known by its number, a struct is the values by field number.

Encoders write to a memory (`Mem`) of which `len` bytes belong to the caller; decoders read a list
of `len` bytes, with every access checked.
-/

namespace Netchan.Idl

open Lib

/-! ## Writing -/

namespace Memory

/-- The writers of a tag and a value. `none` is `MS_ERR`. -/
def msWriteTag (buf : Mem) (pos len : Nat) (field wire : UInt8) (val : List UInt8) :
    Mem × Option Nat :=
  if pos + 1 + val.length > len then (buf, none)
  else (buf.write pos ((field <<< 3 ||| wire) :: val), some (pos + 1 + val.length))

def msWriteTagU8 (buf : Mem) (pos len : Nat) (field val : UInt8) : Mem × Option Nat :=
  msWriteTag buf pos len field msWire8 (leBytes 1 val.toNat)

def msWriteTagU16 (buf : Mem) (pos len : Nat) (field : UInt8) (val : UInt16) : Mem × Option Nat :=
  msWriteTag buf pos len field msWire16 (leBytes 2 val.toNat)

def msWriteTagU32 (buf : Mem) (pos len : Nat) (field : UInt8) (val : UInt32) : Mem × Option Nat :=
  msWriteTag buf pos len field msWire32 (leBytes 4 val.toNat)

def msWriteTagU64 (buf : Mem) (pos len : Nat) (field : UInt8) (val : UInt64) : Mem × Option Nat :=
  msWriteTag buf pos len field msWire64 (leBytes 8 val.toNat)

def msWriteTagI8 (buf : Mem) (pos len : Nat) (field : UInt8) (val : Int8) : Mem × Option Nat :=
  msWriteTagU8 buf pos len field val.toUInt8

def msWriteTagI16 (buf : Mem) (pos len : Nat) (field : UInt8) (val : Int16) : Mem × Option Nat :=
  msWriteTagU16 buf pos len field val.toUInt16

def msWriteTagI32 (buf : Mem) (pos len : Nat) (field : UInt8) (val : Int32) : Mem × Option Nat :=
  msWriteTagU32 buf pos len field val.toUInt32

def msWriteTagI64 (buf : Mem) (pos len : Nat) (field : UInt8) (val : Int64) : Mem × Option Nat :=
  msWriteTagU64 buf pos len field val.toUInt64

def msWriteTagBytes (buf : Mem) (pos len : Nat) (field : UInt8) (data : List UInt8) :
    Mem × Option Nat :=
  msWriteTag buf pos len field msWireBytes (leBytes 2 data.length ++ data)

end Memory

/-! ## Schemas -/

/-- The types of a field. An `enum` is a `uint8`. -/
inductive Ty
  | uint8 | int8 | uint16 | int16 | uint32 | int32 | uint64 | int64 | enum | bytes | string
  deriving DecidableEq, Repr

/-- The value of a field: a number, or the bytes behind a pointer and a 16-bit length. -/
inductive Val
  | u8 (v : UInt8)
  | i8 (v : Int8)
  | u16 (v : UInt16)
  | i16 (v : Int16)
  | u32 (v : UInt32)
  | i32 (v : Int32)
  | u64 (v : UInt64)
  | i64 (v : Int64)
  | blob (d : List UInt8)
  deriving DecidableEq

/-- The value is one of a field of this type. -/
def Ty.Holds : Ty → Val → Prop
  | .uint8, .u8 _ | .enum, .u8 _ => True
  | .int8, .i8 _ => True
  | .uint16, .u16 _ => True
  | .int16, .i16 _ => True
  | .uint32, .u32 _ => True
  | .int32, .i32 _ => True
  | .uint64, .u64 _ => True
  | .int64, .i64 _ => True
  | .bytes, .blob d | .string, .blob d => d.length < 65536
  | _, _ => False

/-- What `memset` makes of a field. -/
def Ty.zero : Ty → Val
  | .uint8 | .enum => .u8 0
  | .int8 => .i8 0
  | .uint16 => .u16 0
  | .int16 => .i16 0
  | .uint32 => .u32 0
  | .int32 => .i32 0
  | .uint64 => .u64 0
  | .int64 => .i64 0
  | .bytes | .string => .blob []

structure Field where
  ty : Ty
  tag : UInt8
  deriving DecidableEq, Repr

/-- A variant of a `case` block. -/
structure Variant where
  label : Int
  fields : List Field

/-- A `case` block: the discriminant and the variants. -/
structure CaseBlock where
  disc : Field
  variants : List Variant

/-- A `message` of the schema. -/
structure Message where
  plain : List Field
  block : Option CaseBlock

/-- All fields: they become the members of the struct and the cases of the decoder. -/
def Message.fields (s : Message) : List Field :=
  s.plain ++ match s.block with
    | none => []
    | some b => b.disc :: b.variants.flatMap Variant.fields

/-- The checks of the generator's `END` block on a message. -/
structure Message.Accepted (s : Message) : Prop where
  numbers : ∀ f ∈ s.fields, 1 ≤ f.tag ∧ f.tag ≤ 31
  unique : (s.fields.map Field.tag).Nodup
  scalar : ∀ b, s.block = some b → b.disc.ty ≠ .bytes ∧ b.disc.ty ≠ .string
  labels : ∀ b, s.block = some b → (b.variants.map Variant.label).Nodup

/-- A message the generator accepts. -/
structure Schema extends Message where
  accepted : toMessage.Accepted

/-- The members of a struct, by field number. -/
abbrev Values := UInt8 → Val

/-- The values are ones of the schema. -/
def Schema.Typed (s : Schema) (m : Values) : Prop := ∀ f ∈ s.fields, f.ty.Holds (m f.tag)

/-! ## Encoding -/

/-- The integer a discriminant is. -/
def Val.toInt : Val → Int
  | .u8 v => v.toNat
  | .i8 v => v.toInt
  | .u16 v => v.toNat
  | .i16 v => v.toInt
  | .u32 v => v.toNat
  | .i32 v => v.toInt
  | .u64 v => v.toNat
  | .i64 v => v.toInt
  | .blob _ => 0

/-- A case label, converted to the promoted type of the discriminant. -/
def Ty.caseLabel (ty : Ty) (label : Int) : Int :=
  match ty with
  | .uint32 => (UInt32.ofInt label).toNat
  | .uint64 => (UInt64.ofInt label).toNat
  | .int64 => (Int64.ofInt label).toInt
  | _ => (Int32.ofInt label).toInt

/-- The variant the `switch` of the encoder selects. -/
def CaseBlock.active (b : CaseBlock) (m : Values) : Option Variant :=
  b.variants.find? fun v => b.disc.ty.caseLabel v.label = (m b.disc.tag).toInt

/-- The fields the encoder writes, in order. -/
def Message.written (s : Message) (m : Values) : List Field :=
  s.plain ++ match s.block with
    | none => []
    | some b => b.disc :: match b.active m with
      | none => []
      | some v => v.fields

/-- The write of one field. -/
def writeVal (buf : Mem) (pos len : Nat) (field : UInt8) : Val → Mem × Option Nat
  | .u8 v => Memory.msWriteTagU8 buf pos len field v
  | .i8 v => Memory.msWriteTagI8 buf pos len field v
  | .u16 v => Memory.msWriteTagU16 buf pos len field v
  | .i16 v => Memory.msWriteTagI16 buf pos len field v
  | .u32 v => Memory.msWriteTagU32 buf pos len field v
  | .i32 v => Memory.msWriteTagI32 buf pos len field v
  | .u64 v => Memory.msWriteTagU64 buf pos len field v
  | .i64 v => Memory.msWriteTagI64 buf pos len field v
  | .blob d => Memory.msWriteTagBytes buf pos len field d

/-- The writes of the fields; each returns `MS_ERR` at once. -/
def encodeFields (m : Values) (len : Nat) : List Field → Mem → Nat → Mem × Option Nat
  | [], buf, pos => (buf, some pos)
  | f :: fs, buf, pos =>
    match writeVal buf pos len f.tag (m f.tag) with
    | (buf, none) => (buf, none)
    | (buf, some pos) => encodeFields m len fs buf pos

/-- `X_encode`: the memory after it, and what it returns. -/
def Message.encode (s : Message) (m : Values) (buf : Mem) (len : Nat) : Mem × Option Nat :=
  match encodeFields m len (s.written m) buf 2 with
  | (buf, none) => (buf, none)
  | (buf, some pos) => (buf.write 0 (leBytes 2 (pos - 2)), some pos)

/-! ## Decoding -/

/-- The struct after `memset`. -/
def Message.zeroed (s : Message) : Values := fun n =>
  match s.fields.find? fun f => f.tag = n with
  | some f => f.ty.zero
  | none => .u8 0

/-- The read of one field. -/
def readVal (buf : List UInt8) (pos stop : Nat) : Ty → Except Stop (Val × Nat)
  | .uint8 | .enum => do
    let (v, pos) ← Checked.msReadU8 buf pos stop
    return (.u8 v, pos)
  | .int8 => do
    let (v, pos) ← Checked.msReadI8 buf pos stop
    return (.i8 v, pos)
  | .uint16 => do
    let (v, pos) ← Checked.msReadU16 buf pos stop
    return (.u16 v, pos)
  | .int16 => do
    let (v, pos) ← Checked.msReadI16 buf pos stop
    return (.i16 v, pos)
  | .uint32 => do
    let (v, pos) ← Checked.msReadU32 buf pos stop
    return (.u32 v, pos)
  | .int32 => do
    let (v, pos) ← Checked.msReadI32 buf pos stop
    return (.i32 v, pos)
  | .uint64 => do
    let (v, pos) ← Checked.msReadU64 buf pos stop
    return (.u64 v, pos)
  | .int64 => do
    let (v, pos) ← Checked.msReadI64 buf pos stop
    return (.i64 v, pos)
  | .bytes | .string => do
    let (d, pos) ← Checked.msReadBytes buf pos stop 65535
    return (.blob d, pos)

/-- The loop body of `X_decode`. A field that is known is read by its type, whatever wire type its
tag has. -/
def Message.decodeBody (s : Message) (buf : List UInt8) (stop : Nat) (m : Values)
    (field wire : UInt8) (pos : Nat) : Except Stop (Values × Nat) :=
  match s.fields.find? fun f => f.tag = field with
  | some f => do
    let (v, pos) ← readVal buf pos stop f.ty
    return (Function.update m field v, pos)
  | none => do
    let pos ← Checked.msSkip buf pos stop wire
    return (m, pos)

/-- `X_decode`: the struct and what it returns. -/
def Message.decode (s : Message) (buf : List UInt8) : Except Stop (Values × Nat) :=
  if buf.length < 2 then .error .err
  else do
    let l ← Checked.bytesFrom buf 0 2
    let stop := leVal l + 2
    if stop > buf.length then .error .err
    else
      let m ← Checked.readLoop (s.decodeBody buf stop) buf stop stop s.zeroed 2
      return (m, stop)

/-! ## Dispatch -/

/-- A line of a `dispatch` block. -/
structure Entry where
  tag : UInt8
  schema : Schema

/-- A `dispatch` block with the generator's checks on it. -/
structure Dispatch where
  entries : List Entry
  numbers : ∀ e ∈ entries, 1 ≤ e.tag
  unique : (entries.map Entry.tag).Nodup

/-- `D_encode_X`: the tag, and the message at `buf + 1`. -/
def Entry.encode (e : Entry) (m : Values) (buf : Mem) (len : Nat) : Mem × Option Nat :=
  if len < 1 then (buf, none)
  else
    let r := e.schema.encode m buf.tail (len - 1)
    (r.1.cons e.tag, r.2.map (· + 1))

/-- `struct D_msg`: the type, `D_NONE` for a message of another version, and the message. -/
structure Decoded where
  type : UInt8
  msg : Option Values

/-- `D_msg_type`. -/
def msgType (buf : List UInt8) : Except Stop UInt8 :=
  if buf.length < 1 then .error .err else Checked.byteAt buf 0

/-- `D_decode`. -/
def Dispatch.decode (d : Dispatch) (buf : List UInt8) : Except Stop (Decoded × Nat) :=
  if buf.length < 1 then .error .err
  else do
    let tag ← Checked.byteAt buf 0
    match d.entries.find? fun e => e.tag = tag with
    | some e =>
      let (m, n) ← e.schema.decode (buf.drop 1)
      return (⟨tag, some m⟩, n + 1)
    | none =>
      if buf.length < 3 then .error .err
      else
        let l ← Checked.bytesFrom buf 1 2
        let n := leVal l + 2
        if n + 1 > buf.length then .error .err else return (⟨0, none⟩, n + 1)

end Netchan.Idl
