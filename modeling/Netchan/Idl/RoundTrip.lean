import Mathlib.Data.List.Forall2
import Mathlib.Data.List.Nodup
import Netchan.Idl.Codec

/-!
# Round trips of generated codecs

* `encode_fit`, `encode_full`: what `X_encode` writes and returns.
* `decode_items`: what `X_decode` makes of a body of tagged values.
* `decode_compatible`: a decoder reads what the encoder of another version of the message wrote, as
  long as the two agree on the types of the field numbers they share.
* `codecs_round_trip`: when what is encoded stays in its buffer and is decoded again. The encoder
  checks the room for each field, not for the length in front of them, and not that the length fits
  16 bits.
-/

namespace Netchan.Idl

open Lib

/-! ## Values -/

def Val.wire : Val → UInt8
  | .u8 _ | .i8 _ => msWire8
  | .u16 _ | .i16 _ => msWire16
  | .u32 _ | .i32 _ => msWire32
  | .u64 _ | .i64 _ => msWire64
  | .blob _ => msWireBytes

/-- The bytes of a value. -/
def Val.data : Val → List UInt8
  | .u8 v => leBytes 1 v.toNat
  | .i8 v => leBytes 1 v.toUInt8.toNat
  | .u16 v => leBytes 2 v.toNat
  | .i16 v => leBytes 2 v.toUInt16.toNat
  | .u32 v => leBytes 4 v.toNat
  | .i32 v => leBytes 4 v.toUInt32.toNat
  | .u64 v => leBytes 8 v.toNat
  | .i64 v => leBytes 8 v.toUInt64.toNat
  | .blob d => d

def Ty.wire : Ty → UInt8
  | .uint8 | .int8 | .enum => msWire8
  | .uint16 | .int16 => msWire16
  | .uint32 | .int32 => msWire32
  | .uint64 | .int64 => msWire64
  | .bytes | .string => msWireBytes

/-- The value a field of this type has from these bytes. -/
def Ty.val : Ty → List UInt8 → Val
  | .uint8, d | .enum, d => .u8 (UInt8.ofNat (leVal d))
  | .int8, d => .i8 (UInt8.ofNat (leVal d)).toInt8
  | .uint16, d => .u16 (UInt16.ofNat (leVal d))
  | .int16, d => .i16 (UInt16.ofNat (leVal d)).toInt16
  | .uint32, d => .u32 (UInt32.ofNat (leVal d))
  | .int32, d => .i32 (UInt32.ofNat (leVal d)).toInt32
  | .uint64, d => .u64 (UInt64.ofNat (leVal d))
  | .int64, d => .i64 (UInt64.ofNat (leVal d)).toInt64
  | .bytes, d | .string, d => .blob d

section
variable {ty : Ty} {v : Val}

theorem Ty.Holds.wire (h : ty.Holds v) : v.wire = ty.wire := by
  cases ty <;> cases v <;> first | rfl | exact h.elim

theorem Ty.Holds.short {d : List UInt8} (h : ty.Holds (.blob d)) : d.length < 65536 := by
  cases ty <;> first | exact h | exact h.elim

theorem Ty.Holds.fits (h : ty.Holds v) : Fits v.wire v.data := by
  have h1 : msWire8 ≤ msWire64 := by decide
  have h2 : msWire16 ≤ msWire64 := by decide
  have h4 : msWire32 ≤ msWire64 := by decide
  have h8 : msWire64 ≤ msWire64 := by decide
  cases v with
  | u8 | i8 => exact .inl ⟨h1, length_leBytes 1 _⟩
  | u16 | i16 => exact .inl ⟨h2, length_leBytes 2 _⟩
  | u32 | i32 => exact .inl ⟨h4, length_leBytes 4 _⟩
  | u64 | i64 => exact .inl ⟨h8, length_leBytes 8 _⟩
  | blob d => exact .inr ⟨rfl, h.short⟩

theorem leVal_u8 (v : UInt8) : UInt8.ofNat (leVal (leBytes 1 v.toNat)) = v := by
  rw [leVal_leBytes]
  apply UInt8.toNat_inj.1
  have := v.toNat_lt
  rw [UInt8.toNat_ofNat']
  omega

theorem leVal_u16 (v : UInt16) : UInt16.ofNat (leVal (leBytes 2 v.toNat)) = v := by
  rw [leVal_leBytes]
  apply UInt16.toNat_inj.1
  have := v.toNat_lt
  rw [UInt16.toNat_ofNat']
  omega

theorem leVal_u32 (v : UInt32) : UInt32.ofNat (leVal (leBytes 4 v.toNat)) = v := by
  rw [leVal_leBytes]
  apply UInt32.toNat_inj.1
  have := v.toNat_lt
  rw [UInt32.toNat_ofNat']
  omega

theorem leVal_u64 (v : UInt64) : UInt64.ofNat (leVal (leBytes 8 v.toNat)) = v := by
  rw [leVal_leBytes]
  apply UInt64.toNat_inj.1
  have := v.toNat_lt
  rw [UInt64.toNat_ofNat']
  omega

theorem Ty.Holds.val (h : ty.Holds v) : ty.val v.data = v := by
  cases v with
  | u8 v =>
    have := congrArg Val.u8 (leVal_u8 v)
    cases ty <;> first | exact h.elim | exact this
  | i8 v =>
    have hv : (UInt8.ofNat (leVal (leBytes 1 v.toUInt8.toNat))).toInt8 = v := by
      rw [leVal_u8]
      exact Int8.toInt8_toUInt8 v
    have := congrArg Val.i8 hv
    cases ty <;> first | exact h.elim | exact this
  | u16 v =>
    have := congrArg Val.u16 (leVal_u16 v)
    cases ty <;> first | exact h.elim | exact this
  | i16 v =>
    have hv : (UInt16.ofNat (leVal (leBytes 2 v.toUInt16.toNat))).toInt16 = v := by
      rw [leVal_u16]
      exact Int16.toInt16_toUInt16 v
    have := congrArg Val.i16 hv
    cases ty <;> first | exact h.elim | exact this
  | u32 v =>
    have := congrArg Val.u32 (leVal_u32 v)
    cases ty <;> first | exact h.elim | exact this
  | i32 v =>
    have hv : (UInt32.ofNat (leVal (leBytes 4 v.toUInt32.toNat))).toInt32 = v := by
      rw [leVal_u32]
      exact Int32.toInt32_toUInt32 v
    have := congrArg Val.i32 hv
    cases ty <;> first | exact h.elim | exact this
  | u64 v =>
    have := congrArg Val.u64 (leVal_u64 v)
    cases ty <;> first | exact h.elim | exact this
  | i64 v =>
    have hv : (UInt64.ofNat (leVal (leBytes 8 v.toUInt64.toNat))).toInt64 = v := by
      rw [leVal_u64]
      exact Int64.toInt64_toUInt64 v
    have := congrArg Val.i64 hv
    cases ty <;> first | exact h.elim | exact this
  | blob d => cases ty <;> first | exact h.elim | rfl

/-- **What a field is read from**: the value of the field's own wire type. -/
theorem readVal_eq {buf : List UInt8} {pos stop : Nat} (hs : stop ≤ buf.length) (hp : pos ≤ stop)
    (ty : Ty) : readVal buf pos stop ty =
      located stop ((takeValue ty.wire (region buf pos stop)).map fun p => (ty.val p.1, p.2)) := by
  have h1 (l : List UInt8) : takeValue msWire8 l = cut 1 l := rfl
  have h8 (l : List UInt8) : takeValue msWire64 l = cut 8 l := rfl
  cases ty with
  | bytes | string =>
    simp only [readVal, Ty.wire, Ty.val]
    rw [msReadBytes_eq hs hp]
    cases takeValue msWireBytes (region buf pos stop) <;> rfl
  | uint8 | enum =>
    simp only [readVal, Ty.wire, Ty.val, Checked.msReadU8]
    rw [msReadLe_eq hs hp, h1]
    cases cut 1 (region buf pos stop) <;> rfl
  | int8 =>
    simp only [readVal, Ty.wire, Ty.val, Checked.msReadI8, Checked.msReadU8]
    rw [msReadLe_eq hs hp, h1]
    cases cut 1 (region buf pos stop) <;> rfl
  | uint16 =>
    simp only [readVal, Ty.wire, Ty.val]
    rw [msReadU16_eq hs hp]
    cases takeValue msWire16 (region buf pos stop) <;> rfl
  | int16 =>
    simp only [readVal, Ty.wire, Ty.val, Checked.msReadI16]
    rw [msReadU16_eq hs hp]
    cases takeValue msWire16 (region buf pos stop) <;> rfl
  | uint32 =>
    simp only [readVal, Ty.wire, Ty.val]
    rw [msReadU32_eq hs hp]
    cases takeValue msWire32 (region buf pos stop) <;> rfl
  | int32 =>
    simp only [readVal, Ty.wire, Ty.val, Checked.msReadI32]
    rw [msReadU32_eq hs hp]
    cases takeValue msWire32 (region buf pos stop) <;> rfl
  | uint64 =>
    simp only [readVal, Ty.wire, Ty.val, Checked.msReadU64]
    rw [msReadLe_eq hs hp, h8]
    cases cut 8 (region buf pos stop) <;> rfl
  | int64 =>
    simp only [readVal, Ty.wire, Ty.val, Checked.msReadI64, Checked.msReadU64]
    rw [msReadLe_eq hs hp, h8]
    cases cut 8 (region buf pos stop) <;> rfl

end

/-! ## Encoding -/

/-- A field on the wire. -/
def fieldBytes (m : Values) (f : Field) : List UInt8 :=
  (f.tag <<< 3 ||| (m f.tag).wire) :: valueBytes (m f.tag).wire (m f.tag).data

/-- The body of a message: what follows its length. -/
def Message.body (s : Message) (m : Values) : List UInt8 := (s.written m).flatMap (fieldBytes m)

section
variable {s : Message} {m : Values} {len : Nat}

theorem writeVal_eq (buf : Mem) (pos len : Nat) (field : UInt8) (v : Val) :
    writeVal buf pos len field v =
      Memory.msWriteTag buf pos len field v.wire (valueBytes v.wire v.data) := by
  cases v <;> rfl

theorem writeVal_field (buf : Mem) (pos len : Nat) (f : Field) :
    writeVal buf pos len f.tag (m f.tag) =
      if pos + (fieldBytes m f).length > len then (buf, none)
      else (buf.write pos (fieldBytes m f), some (pos + (fieldBytes m f).length)) := by
  rw [writeVal_eq, Memory.msWriteTag, fieldBytes, List.length_cons]
  simp only [Nat.add_assoc, Nat.add_comm 1]

theorem encodeFields_fit : ∀ {fs : List Field} {buf : Mem} {pos : Nat},
    fs = [] ∨ pos + (fs.flatMap (fieldBytes m)).length ≤ len →
    encodeFields m len fs buf pos = (buf.write pos (fs.flatMap (fieldBytes m)),
      some (pos + (fs.flatMap (fieldBytes m)).length))
  | [], buf, pos, _ => by simp [encodeFields]
  | f :: fs, buf, pos, h => by
    have hlen := h.resolve_left (by simp)
    rw [List.flatMap_cons, List.length_append] at hlen
    rw [encodeFields, writeVal_field, if_neg (by omega)]
    dsimp only
    rw [encodeFields_fit (.inr (by omega)), Mem.write_append, List.flatMap_cons, List.length_append,
      Nat.add_assoc]

/-- Fields that do not fit are refused. -/
theorem encodeFields_full : ∀ {fs : List Field} {buf : Mem} {pos : Nat}, fs ≠ [] →
    len < pos + (fs.flatMap (fieldBytes m)).length → (encodeFields m len fs buf pos).2 = none
  | [], _, _, h, _ => absurd rfl h
  | f :: fs, buf, pos, _, hlen => by
    rw [List.flatMap_cons, List.length_append] at hlen
    rw [encodeFields, writeVal_field]
    by_cases hf : pos + (fieldBytes m f).length > len
    · rw [if_pos hf]
    · rw [if_neg hf]
      dsimp only
      refine encodeFields_full ?_ (by omega)
      rintro rfl
      simp at hlen
      omega

/-- **What `X_encode` does**: it writes the length of the body modulo 65536 and the body, and
returns their length, if the body fits; a message without fields it does not check. -/
theorem encode_fit (buf : Mem) (h : s.written m = [] ∨ 2 + (s.body m).length ≤ len) :
    s.encode m buf len = (buf.write 0 (leBytes 2 (s.body m).length ++ s.body m),
      some (2 + (s.body m).length)) := by
  rw [Message.encode, encodeFields_fit h]
  dsimp only
  have hw := buf.append_write 0 (leBytes 2 (s.body m).length) (s.body m)
  rw [length_leBytes] at hw
  rw [← hw, Nat.add_sub_cancel_left]
  rfl

theorem encode_full (buf : Mem) (h : s.written m ≠ []) (hlen : len < 2 + (s.body m).length) :
    (s.encode m buf len).2 = none := by
  have : (encodeFields m len (s.written m) buf 2).2 = none := encodeFields_full h hlen
  rw [Message.encode]
  split
  · rfl
  · rename_i he
    rw [he] at this
    cases this

end

/-! ## Decoding -/

/-- What the decoder makes of an item. -/
def Message.take (s : Message) (m : Values) (it : Item) : Values :=
  match s.fields.find? fun f => f.tag = it.field with
  | some f => Function.update m it.field (f.ty.val it.data)
  | none => m

/-- An item that has the wire type of the field it is for, if that is known. -/
def Message.Agrees (s : Message) (it : Item) : Prop :=
  ∀ f ∈ s.fields, f.tag = it.field → f.ty.wire = it.wire

theorem decodeBody_item {s : Message} {buf : List UInt8} {stop pos : Nat} {it : Item}
    (hs : stop ≤ buf.length) (hp : pos ≤ stop) (hit : s.Agrees it) {r : List UInt8}
    (hr : region buf pos stop = valueBytes it.wire it.data ++ r) (m : Values) :
    s.decodeBody buf stop m it.field it.wire pos = .ok (s.take m it, stop - r.length) := by
  have hv := takeValue_append it.fits r
  rw [← hr] at hv
  unfold Message.decodeBody Message.take
  cases hf : s.fields.find? fun f => f.tag = it.field with
  | none =>
    dsimp only
    rw [msSkip_eq hs hp, hv]
    rfl
  | some f =>
    have htag : f.tag = it.field := by simpa using List.find?_some hf
    dsimp only
    rw [readVal_eq hs hp, hit f (List.mem_of_find?_eq_some hf) htag, hv]
    rfl

/-- **The decoder on a body of items**, whatever follows it: it takes them one after the other. -/
theorem decode_items (s : Message) {items : List Item} (hit : ∀ it ∈ items, s.Agrees it)
    (hlen : (items.flatMap Item.encode).length < 65536) (rest : List UInt8) :
    s.decode (leBytes 2 (items.flatMap Item.encode).length ++ items.flatMap Item.encode ++ rest) =
      .ok (items.foldl s.take s.zeroed, 2 + (items.flatMap Item.encode).length) := by
  generalize hb : items.flatMap Item.encode = body at hlen
  generalize hbuf : leBytes 2 body.length ++ body ++ rest = buf
  have hl : buf.length = 2 + body.length + rest.length := by
    rw [← hbuf]
    simp [Nat.add_assoc]
  have hpre : Checked.bytesFrom buf 0 2 = .ok (leBytes 2 body.length) := by
    rw [Checked.bytesFrom, if_pos (by omega), List.drop_zero, ← hbuf, List.append_assoc,
      List.take_left' (length_leBytes ..)]
  have hval : leVal (leBytes 2 body.length) + 2 = 2 + body.length := by
    rw [leVal_leBytes, Nat.mod_eq_of_lt (by omega)]
    omega
  have hregion : region buf 2 (2 + body.length) = items.flatMap Item.encode := by
    rw [region, ← hbuf, List.take_left' (by simp), List.drop_left' (length_leBytes ..), hb]
  have hloop : Checked.readLoop (s.decodeBody buf (2 + body.length)) buf (2 + body.length)
      (2 + body.length) s.zeroed 2 = .ok (items.foldl s.take s.zeroed) :=
    readLoop_run (by omega)
      (fun m it hm pos hp r hr => decodeBody_item (by omega) hp (hit it hm) hr m)
      (by omega) (by omega) hregion
  unfold Message.decode
  rw [if_neg (by omega), hpre]
  simp only [bind, Except.bind, hval]
  rw [if_neg (by omega), hloop]
  rfl

/-! ## One version decodes another -/

/-- Two messages give the field numbers they share the same types. -/
def Compatible (R W : Message) : Prop :=
  ∀ f ∈ R.fields, ∀ g ∈ W.fields, f.tag = g.tag → f.ty = g.ty

/-- The item is the field's value. -/
def IsField (m : Values) (it : Item) (f : Field) : Prop :=
  it.field = f.tag ∧ it.wire = (m f.tag).wire ∧ it.data = (m f.tag).data

section
variable {R : Message} {W : Schema} {m : Values}

theorem find_field (s : Schema) {f : Field} (hf : f ∈ s.fields) :
    (s.fields.find? fun g => g.tag = f.tag) = some f := by
  cases hg : s.fields.find? fun g => g.tag = f.tag with
  | none => simpa using List.find?_eq_none.1 hg f hf
  | some g =>
    have htag : g.tag = f.tag := by simpa using List.find?_some hg
    rw [List.inj_on_of_nodup_map s.accepted.unique (List.mem_of_find?_eq_some hg) hf htag]

theorem zeroed_field (s : Schema) {f : Field} (hf : f ∈ s.fields) :
    s.zeroed f.tag = f.ty.zero := by
  rw [Message.zeroed, find_field s hf]

theorem written_sub (s : Message) (m : Values) : s.written m ⊆ s.fields := by
  unfold Message.written Message.fields
  cases s.block with
  | none => exact fun f hf => hf
  | some b =>
    refine List.append_subset_of_subset_of_subset (List.subset_append_left ..) ?_
    refine List.subset_append_of_subset_right _ (List.cons_subset_cons _ fun f hf => ?_)
    cases ha : b.active m with
    | none =>
      simp only [ha] at hf
      cases hf
    | some v =>
      simp only [ha] at hf
      exact List.mem_flatMap.2 ⟨v, List.mem_of_find?_eq_some ha, hf⟩

theorem exists_items : ∀ {fs : List Field},
    (∀ f ∈ fs, f.tag < 32 ∧ Fits (m f.tag).wire (m f.tag).data) →
    ∃ items : List Item, items.flatMap Item.encode = fs.flatMap (fieldBytes m) ∧
      List.Forall₂ (IsField m) items fs
  | [], _ => ⟨[], rfl, .nil⟩
  | f :: fs, h => by
    obtain ⟨items, hi, hall⟩ := exists_items fun g hg => h g (.tail _ hg)
    obtain ⟨h32, hfits⟩ := h f (.head _)
    refine ⟨⟨f.tag, (m f.tag).wire, (m f.tag).data, h32, hfits⟩ :: items, ?_,
      .cons ⟨rfl, rfl, rfl⟩ hall⟩
    rw [List.flatMap_cons, List.flatMap_cons, hi]
    rfl

theorem take_field {it : Item} {g : Field} (hc : Compatible R W.toMessage) (ht : W.Typed m)
    (hg : g ∈ W.fields) (hit : IsField m it g) (v : Values) {f : Field} (hf : f ∈ R.fields) :
    R.take v it f.tag = if f.tag = g.tag then m f.tag else v f.tag := by
  obtain ⟨h1, -, h3⟩ := hit
  unfold Message.take
  rw [h1, h3]
  by_cases he : f.tag = g.tag
  · rw [if_pos he]
    cases hr : R.fields.find? fun f => f.tag = g.tag with
    | none => exact absurd he (by simpa using List.find?_eq_none.1 hr f hf)
    | some k =>
      have hk : k.tag = g.tag := by simpa using List.find?_some hr
      have hty := hc k (List.mem_of_find?_eq_some hr) g hg hk
      dsimp only
      rw [he, Function.update_self, hty, (ht g hg).val]
  · rw [if_neg he]
    cases R.fields.find? fun f => f.tag = g.tag with
    | none => rfl
    | some k => exact Function.update_of_ne he ..

theorem foldl_take (hc : Compatible R W.toMessage) (ht : W.Typed m) {items : List Item}
    {fs : List Field} (h : List.Forall₂ (IsField m) items fs) (hfs : fs ⊆ W.fields) (v : Values) {f : Field}
    (hf : f ∈ R.fields) : items.foldl R.take v f.tag =
      if f.tag ∈ fs.map Field.tag then m f.tag else v f.tag := by
  induction h generalizing v with
  | nil => rfl
  | @cons it g items fs hit _ ih =>
    rw [List.foldl_cons, ih (fun k hk => hfs (.tail _ hk)), List.map_cons,
      take_field hc ht (hfs (.head _)) hit v hf]
    by_cases h1 : f.tag ∈ fs.map Field.tag
    · rw [if_pos h1, if_pos (.tail _ h1)]
    · rw [if_neg h1]
      by_cases h2 : f.tag = g.tag
      · rw [if_pos h2, if_pos (by rw [h2]; exact .head _)]
      · rw [if_neg h2, if_neg (by simp only [List.mem_cons, not_or]; exact ⟨h2, h1⟩)]

/-- **One version decodes another**: the reader has every field it knows that was written, and zero
for the others. -/
theorem decode_compatible (R W : Schema) (hc : Compatible R.toMessage W.toMessage)
    (ht : W.Typed m) (hlen : (W.body m).length < 65536) (rest : List UInt8) :
    ∃ m', R.decode (leBytes 2 (W.body m).length ++ W.body m ++ rest) =
        .ok (m', 2 + (W.body m).length) ∧
      ∀ f ∈ R.fields, m' f.tag =
        if f.tag ∈ (W.written m).map Field.tag then m f.tag else f.ty.zero := by
  have hsub := written_sub W.toMessage m
  have hok : ∀ f ∈ W.written m, f.tag < 32 ∧ Fits (m f.tag).wire (m f.tag).data := by
    intro f hf
    have hn := (W.accepted.numbers f (hsub hf)).2
    exact ⟨UInt8.lt_of_le_of_lt hn (by decide), (ht f (hsub hf)).fits⟩
  obtain ⟨items, hi, hall⟩ := exists_items hok
  have hbody : W.body m = items.flatMap Item.encode := hi.symm
  have hagree : ∀ it ∈ items, R.Agrees it := by
    intro it hit f hf htag
    obtain ⟨g, hg, hisf⟩ := forall₂_mem hall hit
    have hty := hc f hf g (hsub hg) (htag.trans hisf.1)
    rw [hisf.2.1, (ht g (hsub hg)).wire, hty]
  rw [hbody] at hlen ⊢
  refine ⟨_, decode_items R.toMessage hagree hlen rest, fun f hf => ?_⟩
  rw [foldl_take hc ht hall hsub R.zeroed hf, zeroed_field R hf]

end

/-! ## Round trips -/

/-- The struct has the values that were written, and zero for the others. -/
def Message.Restores (s : Message) (m m' : Values) : Prop :=
  (∀ f ∈ s.written m, m' f.tag = m f.tag) ∧ ∀ f ∈ s.fields, f ∉ s.written m → m' f.tag = f.ty.zero

/-- What `X_encode` puts into a buffer of `len` bytes stays inside it, and `X_decode` restores the
message from it, whatever follows. -/
def Message.RoundTrips (s : Message) (m : Values) (buf : Mem) (len : Nat) : Prop :=
  ∀ buf' n, s.encode m buf len = (buf', some n) →
    n ≤ len ∧ (∀ i, n ≤ i → buf' i = buf i) ∧
    ∀ rest, ∃ m', s.decode (buf'.read 0 n ++ rest) = .ok (m', n) ∧ s.Restores m m'

/-- The same through a dispatch, which returns the tag as well. -/
def Dispatch.RoundTrips (d : Dispatch) (e : Entry) (m : Values) (buf : Mem) (len : Nat) : Prop :=
  ∀ buf' n, e.encode m buf len = (buf', some n) →
    n ≤ len ∧ (∀ i, n ≤ i → buf' i = buf i) ∧
    ∀ rest, msgType (buf'.read 0 n ++ rest) = .ok e.tag ∧
      ∃ m', d.decode (buf'.read 0 n ++ rest) = .ok (⟨e.tag, some m'⟩, n) ∧ e.schema.Restores m m'

/-- The message fits the 16-bit length and the buffer holds that length, or its fields do not fit
the buffer. -/
def Message.Sound (s : Message) (m : Values) (len : Nat) : Prop :=
  (s.body m).length < 65536 ∧ 2 ≤ len ∨ s.written m ≠ [] ∧ len < 2 + (s.body m).length

section
variable {s : Schema} {m : Values} {len : Nat}

theorem decode_returns {s : Message} {buf : List UInt8} {m' : Values} {n : Nat}
    (h : s.decode buf = .ok (m', n)) : n < 65538 := by
  unfold Message.decode at h
  split at h
  · cases h
  · rename_i hlen
    have hpre : Checked.bytesFrom buf 0 2 = .ok (buf.take 2) := by
      rw [Checked.bytesFrom, if_pos (by omega), List.drop_zero]
    have hlt := leVal_lt (buf.take 2)
    rw [List.length_take, Nat.min_eq_left (by omega)] at hlt
    simp only [hpre, bind, Except.bind] at h
    split at h
    · cases h
    · split at h
      · cases h
      · cases h
        omega

theorem restores_of_decode (ht : s.Typed m) (hlen : (s.body m).length < 65536)
    (rest : List UInt8) : ∃ m', s.decode (leBytes 2 (s.body m).length ++ s.body m ++ rest) =
      .ok (m', 2 + (s.body m).length) ∧ s.Restores m m' := by
  have hself : Compatible s.toMessage s.toMessage := by
    intro f hf g hg htag
    rw [List.inj_on_of_nodup_map s.accepted.unique hf hg htag]
  obtain ⟨m', hd, hm⟩ := decode_compatible s s hself ht hlen rest
  have hsub := written_sub s.toMessage m
  refine ⟨m', hd, fun f hf => ?_, fun f hf hno => ?_⟩
  · rw [hm f (hsub hf), if_pos (List.mem_map_of_mem hf)]
  · rw [hm f hf, if_neg]
    intro hmem
    obtain ⟨g, hg, htag⟩ := List.mem_map.1 hmem
    rw [List.inj_on_of_nodup_map s.accepted.unique (hsub hg) hf htag] at hg
    exact hno hg

/-- **When a message makes the round trip.** -/
theorem roundTrips_iff (ht : s.Typed m) (buf : Mem) (len : Nat) :
    s.RoundTrips m buf len ↔ s.Sound m len := by
  unfold Message.Sound
  by_cases hfull : s.written m ≠ [] ∧ len < 2 + (s.body m).length
  · refine ⟨fun _ => .inr hfull, fun _ buf' n he => ?_⟩
    have := encode_full buf hfull.1 hfull.2
    rw [he] at this
    cases this
  have hfit : s.written m = [] ∨ 2 + (s.body m).length ≤ len := by
    by_contra hno
    push Not at hno
    exact hfull hno
  have henc := encode_fit buf hfit
  have hread : (buf.write 0 (leBytes 2 (s.body m).length ++ s.body m)).read 0
      (2 + (s.body m).length) = leBytes 2 (s.body m).length ++ s.body m := by
    have := buf.read_write_self 0 (leBytes 2 (s.body m).length ++ s.body m)
    rwa [List.length_append, length_leBytes] at this
  refine ⟨fun h => ?_, fun h buf' n he => ?_⟩
  · obtain ⟨hn, -, hd⟩ := h _ _ henc
    obtain ⟨m', hdec, -⟩ := hd []
    have := decode_returns hdec
    exact .inl ⟨by omega, by omega⟩
  · rw [henc] at he
    cases he
    obtain ⟨hlen, h2⟩ := h.resolve_right hfull
    have hle : 2 + (s.body m).length ≤ len := by
      rcases hfit with hnil | hle
      · rw [Message.body, hnil]
        exact h2
      · exact hle
    refine ⟨hle, fun i hi => Mem.write_outside _ (.inr ?_), fun rest => ?_⟩
    · rw [List.length_append, length_leBytes]
      omega
    · rw [hread]
      exact restores_of_decode ht hlen rest

theorem find_entry (d : Dispatch) {e : Entry} (he : e ∈ d.entries) :
    (d.entries.find? fun k => k.tag = e.tag) = some e := by
  cases hk : d.entries.find? fun k => k.tag = e.tag with
  | none => simpa using List.find?_eq_none.1 hk e he
  | some k =>
    have htag : k.tag = e.tag := by simpa using List.find?_some hk
    rw [List.inj_on_of_nodup_map d.unique (List.mem_of_find?_eq_some hk) he htag]

theorem decode_known {d : Dispatch} {e : Entry} (he : e ∈ d.entries) {l : List UInt8} {m' : Values}
    {n : Nat} : d.decode (e.tag :: l) = .ok (⟨e.tag, some m'⟩, n + 1) ↔
      e.schema.decode l = .ok (m', n) := by
  have htag : Checked.byteAt (e.tag :: l) 0 = .ok e.tag := rfl
  unfold Dispatch.decode
  rw [if_neg (by simp), htag]
  simp only [bind, Except.bind, find_entry d he, List.drop_one, List.tail_cons]
  cases e.schema.decode l with
  | error => simp
  | ok p => simp [pure, Except.pure, Prod.ext_iff]

/-- A message makes the round trip through a dispatch if it does behind the tag. -/
theorem dispatch_iff {d : Dispatch} {e : Entry} (he : e ∈ d.entries) (buf : Mem) (len : Nat) :
    d.RoundTrips e m buf len ↔ len = 0 ∨ e.schema.RoundTrips m buf.tail (len - 1) := by
  by_cases h0 : len = 0
  · subst h0
    refine ⟨fun _ => .inl rfl, fun _ buf' n hn => ?_⟩
    rw [Entry.encode, if_pos (Nat.lt_succ_self 0)] at hn
    cases hn
  rw [or_iff_right h0]
  cases hr : e.schema.encode m buf.tail (len - 1) with
  | mk b o =>
  have henc : e.encode m buf len = (b.cons e.tag, o.map (· + 1)) := by
    rw [Entry.encode, if_neg (by omega), hr]
  refine ⟨fun h b' k hk => ?_, fun h buf' n hn => ?_⟩
  · rw [hr] at hk
    cases hk
    obtain ⟨hle, hout, hdec⟩ := h _ (k + 1) henc
    refine ⟨by omega, fun i hi => hout (i + 1) (by omega), fun rest => ?_⟩
    obtain ⟨-, m', hd, hm⟩ := hdec rest
    rw [Mem.read_cons, List.cons_append] at hd
    exact ⟨m', (decode_known he).1 hd, hm⟩
  · rw [henc, Prod.mk.injEq] at hn
    obtain ⟨rfl, hn⟩ := hn
    obtain ⟨k, rfl, rfl⟩ := Option.map_eq_some_iff.1 hn
    obtain ⟨hle, hout, hdec⟩ := h b k hr
    refine ⟨by omega, fun i hi => ?_, fun rest => ?_⟩
    · obtain ⟨j, rfl⟩ : ∃ j, i = j + 1 := ⟨i - 1, by omega⟩
      exact hout j (by omega)
    · obtain ⟨m', hd, hm⟩ := hdec rest
      rw [Mem.read_cons, List.cons_append]
      exact ⟨rfl, m', (decode_known he).2 hd, hm⟩

/-- **Round trips of every schema**: the encoder of a message, and that of a dispatch, stays in its
buffer and is undone by the decoder exactly if the message is sound for that buffer. -/
theorem codecs_round_trip (s : Schema) {m : Values} (ht : s.Typed m) (buf : Mem) (len : Nat)
    (d : Dispatch) {e : Entry} (he : e ∈ d.entries) {m' : Values} (ht' : e.schema.Typed m') :
    (s.RoundTrips m buf len ↔ s.Sound m len) ∧
      (d.RoundTrips e m' buf len ↔ len = 0 ∨ e.schema.Sound m' (len - 1)) := by
  refine ⟨roundTrips_iff ht buf len, ?_⟩
  rw [dispatch_iff he, roundTrips_iff ht']

end

/-- A message without fields. -/
def emptySchema : Schema := ⟨⟨[], none⟩, ⟨by decide, by decide, nofun, nofun⟩⟩

/-- A message with one bytes field. -/
def blobSchema : Schema := ⟨⟨[⟨.bytes, 1⟩], none⟩, ⟨by decide, by decide, nofun, nofun⟩⟩

def blobDispatch : Dispatch := ⟨[⟨7, blobSchema⟩], by decide, by decide⟩

theorem blob_typed {d : List UInt8} (h : d.length < 65536) : blobSchema.Typed fun _ => .blob d := by
  intro f hf
  obtain rfl : f = ⟨.bytes, 1⟩ := by simpa [blobSchema, Message.fields] using hf
  exact h

/-- A cleared buffer. -/
def clearedBuf : Mem := fun _ => 0

theorem codecs_round_trip_blob :
    blobSchema.RoundTrips (fun _ => .blob [1, 2]) clearedBuf 8 ∧
      blobDispatch.RoundTrips ⟨7, blobSchema⟩ (fun _ => .blob [1, 2]) clearedBuf 8 := by
  have ht := blob_typed (d := [1, 2]) (by decide)
  have he : ⟨7, blobSchema⟩ ∈ blobDispatch.entries := .head _
  obtain ⟨h1, h2⟩ := codecs_round_trip blobSchema ht clearedBuf 8 blobDispatch he ht
  exact ⟨h1.2 (.inl ⟨by decide, by decide⟩), h2.2 (.inr (.inl ⟨by decide, by decide⟩))⟩

theorem length_blob_body (d : List UInt8) :
    (blobSchema.body fun _ => .blob d).length = d.length + 3 := by
  simp only [Message.body, Message.written, blobSchema, List.append_nil, List.flatMap_cons,
    List.flatMap_nil, fieldBytes, Val.wire, Val.data, valueBytes, if_true, List.length_cons,
    List.length_append, length_leBytes]
  omega

/-- **Two that do not make it**: a message without fields writes its length into a buffer that has
no room for it, and a body of more than 65535 bytes is announced by its length modulo 65536. -/
theorem round_trip_fails :
    ¬ emptySchema.RoundTrips (fun _ => .u8 0) clearedBuf 1 ∧
    ¬ blobSchema.RoundTrips (fun _ => .blob (List.replicate 65535 0)) clearedBuf 65540 := by
  have hlong : (List.replicate 65535 (0 : UInt8)).length = 65535 := List.length_replicate
  generalize List.replicate 65535 (0 : UInt8) = d at hlong
  have ht := blob_typed (d := d) (by omega)
  have hlen := length_blob_body d
  rw [roundTrips_iff (fun f hf => by cases hf), roundTrips_iff ht]
  unfold Message.Sound
  refine ⟨by decide, ?_⟩
  omega

end Netchan.Idl
