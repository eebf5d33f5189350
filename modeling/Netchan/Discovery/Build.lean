import Netchan.Discovery.Beacon
import Netchan.Idl.RoundTrip

/-!
# Building the discovery packet

`nc_beacon_build` and `nc_beacon_probe` of `discovery/nc_beacon.c`. They write to a memory of which
`outlen` bytes belong to the caller; the position is `none` once a value did not fit, as it is
negative in the source.

* `Beacon.items`: the values of a beacon; a field that is zero has none.
* `Stands`: what a builder has written after some values.
* `beacon_round_trip`: every beacon that fits is read back, and one that does not is refused.
-/

namespace Netchan.Discovery

open Lib Idl

/-! ## The builders -/

/-- `bounded_len` of a whole array. -/
def boundedLen (s : List UInt8) : Nat := (s.takeWhile (· ≠ 0)).length

def putHeader (out : Mem) (kind : UInt8) : Mem := out.write 0 (leBytes 4 ncBeaconMagic ++ [kind])

/-- `if (pos >= 0 && cond) pos = write (o, pos)`. -/
def putIf (cond : Bool) (write : Mem → Nat → Mem × Option Nat) :
    Mem × Option Nat → Mem × Option Nat
  | (o, some pos) => if cond then write o pos else (o, some pos)
  | (o, none) => (o, none)

def put16 (cap : Nat) (field : UInt8) (v : UInt16) : Mem × Option Nat → Mem × Option Nat :=
  putIf (v != 0) fun o pos => Memory.msWriteTagU16 o pos cap field v

def put32 (cap : Nat) (field : UInt8) (v : UInt32) : Mem × Option Nat → Mem × Option Nat :=
  putIf (v != 0) fun o pos => Memory.msWriteTagU32 o pos cap field v

def putStr (cap : Nat) (field : UInt8) (s : List UInt8) (max : Nat) :
    Mem × Option Nat → Mem × Option Nat :=
  let n := boundedLen s
  putIf (0 < n && n ≤ max) fun o pos => Memory.msWriteTagBytes o pos cap field (s.take n)

def putKey (cap : Nat) (hasKey : Bool) (key : Bytes 32) : Mem × Option Nat → Mem × Option Nat :=
  putIf hasKey fun o pos => Memory.msWriteTagBytes o pos cap fKey key.val

def ncBeaconBuild (out : Mem) (outlen : Nat) (b : Beacon) : Mem × Option Nat :=
  let cap := if outlen < ncBeaconMax then outlen else ncBeaconMax
  if cap < hdr then (out, none)
  else
    (putHeader out ncBeaconAnnounce, some hdr)
      |> put32 cap fGame b.game
      |> put16 cap fWire b.wire
      |> put16 cap fMajor b.major
      |> put16 cap fMinor b.minor
      |> put16 cap fPort b.port
      |> put16 cap fPlayers b.players
      |> put16 cap fCapacity b.capacity
      |> put32 cap fModes b.modes
      |> put32 cap fFlags b.flags
      |> put32 cap fInstance b.inst
      |> putStr cap fName b.name.val ncBeaconMaxName
      |> putStr cap fContact b.contact.val ncBeaconMaxContact
      |> putKey cap b.hasKey b.key

/-- `nc_beacon_probe`. -/
def ncBeaconProbeInto (out : Mem) (outlen : Nat) (game : UInt32) : Mem × Option Nat :=
  let cap := if outlen < ncBeaconMax then outlen else ncBeaconMax
  if cap < hdr then (out, none)
  else Memory.msWriteTagU32 (putHeader out ncBeaconProbe) hdr cap fGame game

/-! ## The values of a beacon -/

section
variable (field : UInt8)

def item16 (hf : field < 32) (v : UInt16) : Item :=
  ⟨field, msWire16, leBytes 2 v.toNat, hf, .inl ⟨by decide, length_leBytes ..⟩⟩

def item32 (hf : field < 32) (v : UInt32) : Item :=
  ⟨field, msWire32, leBytes 4 v.toNat, hf, .inl ⟨by decide, length_leBytes ..⟩⟩

def itemBytes (hf : field < 32) (d : List UInt8) (hd : d.length < 65536) : Item :=
  ⟨field, msWireBytes, d, hf, .inr ⟨rfl, hd⟩⟩

theorem length_ofBytes (l : List UInt8) : (CStr.ofBytes l).val.length ≤ l.length :=
  (List.takeWhile_sublist _).length_le

/-- The value of a name or a contact. -/
def itemStr (hf : field < 32) (s : Bytes 65) : Item :=
  itemBytes field hf (CStr.ofBytes s.val).val
    (by have := length_ofBytes s.val; have := s.property; omega)

def itemKey (key : Bytes 32) : Item :=
  itemBytes fKey (by decide) key.val (by have := key.property; omega)

/-- The value, if it is there. -/
def itemIf (cond : Bool) (it : Item) : List Item := if cond then [it] else []

def items16 (hf : field < 32) (v : UInt16) : List Item := itemIf (v != 0) (item16 field hf v)

def items32 (hf : field < 32) (v : UInt32) : List Item := itemIf (v != 0) (item32 field hf v)

def itemsStr (hf : field < 32) (s : Bytes 65) : List Item :=
  itemIf (0 < boundedLen s.val) (itemStr field hf s)

end

/-- The values of a beacon, in the order they are written in. -/
def Beacon.items (b : Beacon) : List Item :=
  items32 fGame (by decide) b.game ++ items16 fWire (by decide) b.wire ++
  items16 fMajor (by decide) b.major ++ items16 fMinor (by decide) b.minor ++
  items16 fPort (by decide) b.port ++ items16 fPlayers (by decide) b.players ++
  items16 fCapacity (by decide) b.capacity ++
  items32 fModes (by decide) b.modes ++ items32 fFlags (by decide) b.flags ++
  items32 fInstance (by decide) b.inst ++ itemsStr fName (by decide) b.name ++
  itemsStr fContact (by decide) b.contact ++ itemIf b.hasKey (itemKey b.key)

/-- A packet of this kind with these values. -/
def packet (kind : UInt8) (items : List Item) : List UInt8 :=
  leBytes 4 ncBeaconMagic ++ kind :: items.flatMap Item.encode

/-! ## What is written -/

/-- `l` has been written at the start of `cap` bytes, or a part of it and the rest does not fit. -/
structure Stands (out : Mem) (cap : Nat) (l : List UInt8) (r : Mem × Option Nat) : Prop where
  outside : ∀ x, cap ≤ x → r.1 x = out x
  fits : l.length ≤ cap → r = (out.write 0 l, some l.length)
  full : cap < l.length → r.2 = none

section
variable {out : Mem} {cap : Nat} {l : List UInt8} {r : Mem × Option Nat} {field : UInt8}

/-- **A write** of a value: behind what stands there, or not at all. -/
theorem Stands.write (h : Stands out cap l r) (it : Item) {cond : Bool}
    {write : Mem → Nat → Mem × Option Nat}
    (hw : ∀ o pos, write o pos =
      Memory.msWriteTag o pos cap it.field it.wire (valueBytes it.wire it.data)) :
    Stands out cap (l ++ (itemIf cond it).flatMap Item.encode) (putIf cond write r) := by
  cases cond with
  | false =>
    have hsame : putIf false write r = r := by
      obtain ⟨o, _ | pos⟩ := r <;> rfl
    rw [hsame, itemIf, if_neg Bool.false_ne_true, List.flatMap_nil, List.append_nil]
    exact h
  | true =>
    have hlen : it.encode.length = 1 + (valueBytes it.wire it.data).length := by
      rw [Item.encode, List.length_cons, Nat.add_comm]
    rw [itemIf, if_pos rfl, List.flatMap_singleton]
    by_cases hfull : cap < l.length
    · have hnone := h.full hfull
      have hsame : putIf true write r = (r.1, none) := by
        obtain ⟨o, pos⟩ := r
        cases hnone
        rfl
      rw [hsame]
      refine ⟨h.outside, fun hfit => ?_, fun _ => rfl⟩
      rw [List.length_append] at hfit
      omega
    · have hr := h.fits (Nat.not_lt.1 hfull)
      have hput : putIf true write r = write (out.write 0 l) l.length := by rw [hr]; rfl
      rw [hput, hw, Memory.msWriteTag]
      by_cases hover : l.length + 1 + (valueBytes it.wire it.data).length > cap
      · rw [if_pos hover]
        refine ⟨fun x hx => out.write_outside (.inr (by omega)), fun hfit => ?_, fun _ => rfl⟩
        rw [List.length_append] at hfit
        omega
      · rw [if_neg hover]
        have hmem : (out.write 0 l).write l.length it.encode = out.write 0 (l ++ it.encode) := by
          have := out.write_append 0 l it.encode
          rwa [Nat.zero_add] at this
        have hend : l.length + 1 + (valueBytes it.wire it.data).length =
            (l ++ it.encode).length := by
          rw [List.length_append]
          omega
        have hres : ((out.write 0 l).write l.length
            ((it.field <<< 3 ||| it.wire) :: valueBytes it.wire it.data),
            some (l.length + 1 + (valueBytes it.wire it.data).length)) =
            (out.write 0 (l ++ it.encode), some (l ++ it.encode).length) := by
          rw [hend, ← hmem]
          rfl
        rw [hres]
        exact ⟨fun x hx => out.write_outside (.inr (by omega)), fun _ => rfl, fun hlt => by omega⟩

theorem Stands.put16 (h : Stands out cap l r) (field : UInt8) (hf : field < 32) (v : UInt16) :
    Stands out cap (l ++ (items16 field hf v).flatMap Item.encode) (Discovery.put16 cap field v r) :=
  h.write (item16 field hf v) fun _ _ => rfl

theorem Stands.put32 (h : Stands out cap l r) (field : UInt8) (hf : field < 32) (v : UInt32) :
    Stands out cap (l ++ (items32 field hf v).flatMap Item.encode) (Discovery.put32 cap field v r) :=
  h.write (item32 field hf v) fun _ _ => rfl

theorem take_boundedLen (s : List UInt8) : s.take (boundedLen s) = (CStr.ofBytes s).val :=
  List.prefix_iff_eq_take.1 (List.takeWhile_prefix _) |>.symm

theorem boundedLen_lt {s : List UInt8} (h : 0 ∈ s) : boundedLen s < s.length := by
  unfold boundedLen
  induction s with
  | nil => cases h
  | cons a s ih =>
    rw [List.takeWhile_cons]
    split
    · rename_i ha
      have ha : a ≠ 0 := of_decide_eq_true ha
      rw [List.length_cons, List.length_cons]
      exact Nat.succ_lt_succ (ih ((List.mem_cons.1 h).resolve_left fun h0 => ha h0.symm))
    · exact Nat.succ_pos _

theorem Stands.putStr (h : Stands out cap l r) (field : UInt8) (hf : field < 32) (s : Bytes 65) (hs : 0 ∈ s.val) :
    Stands out cap (l ++ (itemsStr field hf s).flatMap Item.encode)
      (Discovery.putStr cap field s.val 64 r) := by
  have hlt := boundedLen_lt hs
  rw [s.property] at hlt
  have hle : decide (boundedLen s.val ≤ 64) = true := decide_eq_true (Nat.le_of_lt_succ hlt)
  unfold Discovery.putStr
  rw [hle, Bool.and_true, take_boundedLen]
  exact h.write (itemStr field hf s) fun _ _ => rfl

theorem Stands.putKey (h : Stands out cap l r) (hasKey : Bool) (key : Bytes 32) :
    Stands out cap (l ++ (itemIf hasKey (itemKey key)).flatMap Item.encode)
      (Discovery.putKey cap hasKey key r) :=
  h.write (itemKey key) fun _ _ => rfl

theorem packet_append (kind : UInt8) (items : List Item) :
    packet kind items = leBytes 4 ncBeaconMagic ++ [kind] ++ items.flatMap Item.encode := by
  rw [packet, List.append_assoc, List.singleton_append]

theorem length_packet (kind : UInt8) (items : List Item) :
    (packet kind items).length = hdr + (items.flatMap Item.encode).length := by
  rw [packet_append, List.length_append, List.length_append, length_leBytes]
  rfl

/-- A buffer too small for the header is left alone. -/
theorem packet_full (out : Mem) {kind : UInt8} {items : List Item} (h : cap < hdr) :
    Stands out cap (packet kind items) (out, none) := by
  refine ⟨fun _ _ => rfl, fun hfit => ?_, fun _ => rfl⟩
  rw [length_packet] at hfit
  omega

theorem putHeader_stands (out : Mem) (kind : UInt8) (h : hdr ≤ cap) :
    Stands out cap (leBytes 4 ncBeaconMagic ++ [kind]) (putHeader out kind, some hdr) :=
  ⟨fun _ hx => out.write_outside (.inr (by
    rw [List.length_append, length_leBytes, List.length_singleton]
    simp only [hdr] at h
    omega)), fun _ => rfl, fun hlt => by
      rw [List.length_append, length_leBytes, List.length_singleton] at hlt
      simp only [hdr] at h
      omega⟩

/-- **What `nc_beacon_build` writes**. -/
theorem build_stands (out : Mem) (outlen : Nat) {b : Beacon} (hname : 0 ∈ b.name.val)
    (hcontact : 0 ∈ b.contact.val) :
    Stands out (min outlen ncBeaconMax) (packet ncBeaconAnnounce b.items)
      (ncBeaconBuild out outlen b) := by
  have hcap : (if outlen < ncBeaconMax then outlen else ncBeaconMax) = min outlen ncBeaconMax := by
    split <;> omega
  unfold ncBeaconBuild
  simp only [hcap]
  generalize min outlen ncBeaconMax = cap
  by_cases hsmall : cap < hdr
  · rw [if_pos hsmall]
    exact packet_full out hsmall
  · have hstart := putHeader_stands out ncBeaconAnnounce (Nat.not_lt.1 hsmall)
    have hall := (((((((((((hstart.put32 fGame (by decide) b.game).put16
      fWire (by decide) b.wire).put16 fMajor (by decide) b.major).put16
      fMinor (by decide) b.minor).put16 fPort (by decide) b.port).put16
      fPlayers (by decide) b.players).put16 fCapacity (by decide)
      b.capacity).put32 fModes (by decide) b.modes).put32 fFlags (by decide)
      b.flags).put32 fInstance (by decide) b.inst).putStr fName (by decide)
      b.name hname).putStr fContact (by decide) b.contact hcontact
    have hkey := hall.putKey b.hasKey b.key
    rw [if_neg hsmall, packet_append, Beacon.items]
    simp only [List.flatMap_append, ← List.append_assoc]
    exact hkey

/-- **What `nc_beacon_probe` writes.** -/
theorem probe_stands (out : Mem) (outlen : Nat) (game : UInt32) :
    Stands out (min outlen ncBeaconMax)
      (packet ncBeaconProbe [item32 fGame (by decide) game])
      (ncBeaconProbeInto out outlen game) := by
  have hcap : (if outlen < ncBeaconMax then outlen else ncBeaconMax) = min outlen ncBeaconMax := by
    split <;> omega
  unfold ncBeaconProbeInto
  simp only [hcap]
  generalize min outlen ncBeaconMax = cap
  by_cases hsmall : cap < hdr
  · rw [if_pos hsmall]
    exact packet_full out hsmall
  · have hstart := putHeader_stands out ncBeaconProbe (Nat.not_lt.1 hsmall)
    have hgame : Stands out cap _ (putIf true _ _) := hstart.write
      (item32 fGame (by decide) game) fun _ _ => rfl
    rw [if_neg hsmall, packet_append]
    exact hgame

end

/-! ## What is read back -/

section
variable {α : Type} {field : UInt8}

theorem lastOf_append (sel : Item → Option α) (l l' : List Item) :
    lastOf sel (l ++ l') = (lastOf sel l').or (lastOf sel l) := by
  unfold lastOf
  rw [List.filterMap_append, List.getLast?_append]

theorem lastOf_itemIf (sel : Item → Option α) (cond : Bool) (it : Item) :
    lastOf sel (itemIf cond it) = if cond then sel it else none := by
  unfold lastOf itemIf
  cases cond with
  | false => rfl
  | true =>
    rw [if_pos rfl, if_pos rfl]
    cases hs : sel it with
    | none => simp [hs]
    | some a => simp [hs]

@[simp] theorem u16Of_item16 (hf : field < 32) (f : UInt8) (v : UInt16) :
    u16Of f (item16 field hf v) = if field = f then some v else none := by
  simp [u16Of, item16, leVal_u16]

@[simp] theorem u16Of_item32 (hf : field < 32) (f : UInt8) (v : UInt32) :
    u16Of f (item32 field hf v) = none := u16Of_none (fun h => by cases h)

@[simp] theorem u16Of_itemStr (hf : field < 32) (f : UInt8) (s : Bytes 65) :
    u16Of f (itemStr field hf s) = none := u16Of_none (fun h => by cases h)

@[simp] theorem u16Of_itemKey (f : UInt8) (key : Bytes 32) : u16Of f (itemKey key) = none :=
  u16Of_none (fun h => by cases h)

@[simp] theorem u32Of_item16 (hf : field < 32) (f : UInt8) (v : UInt16) :
    u32Of f (item16 field hf v) = none := u32Of_none (fun h => by cases h)

@[simp] theorem u32Of_item32 (hf : field < 32) (f : UInt8) (v : UInt32) :
    u32Of f (item32 field hf v) = if field = f then some v else none := by
  simp [u32Of, item32, leVal_u32]

@[simp] theorem u32Of_itemStr (hf : field < 32) (f : UInt8) (s : Bytes 65) :
    u32Of f (itemStr field hf s) = none := u32Of_none (fun h => by cases h)

@[simp] theorem u32Of_itemKey (f : UInt8) (key : Bytes 32) : u32Of f (itemKey key) = none :=
  u32Of_none (fun h => by cases h)

@[simp] theorem bytesOf_item16 (hf : field < 32) (f : UInt8) (v : UInt16) :
    bytesOf f (item16 field hf v) = none := bytesOf_none (fun h => by cases h)

@[simp] theorem bytesOf_item32 (hf : field < 32) (f : UInt8) (v : UInt32) :
    bytesOf f (item32 field hf v) = none := bytesOf_none (fun h => by cases h)

@[simp] theorem bytesOf_itemStr (hf : field < 32) (f : UInt8) (s : Bytes 65) :
    bytesOf f (itemStr field hf s) = if field = f then some (CStr.ofBytes s.val).val else none := by
  simp [bytesOf, itemStr, itemBytes]

@[simp] theorem bytesOf_itemKey (f : UInt8) (key : Bytes 32) :
    bytesOf f (itemKey key) = if fKey = f then some key.val else none := by
  simp [bytesOf, itemKey, itemBytes]

/-- A number that is left out when it is zero is read as zero. -/
theorem getD_zero [OfNat α 0] [DecidableEq α] (v : α) :
    (if v = 0 then none else some v).getD 0 = v := by
  by_cases h : v = 0
  · rw [if_pos h, h]
    rfl
  · rw [if_neg h]
    rfl

/-- A string that is left out when it is empty is read as empty. -/
theorem getD_str (s : List UInt8) :
    ((if 0 < boundedLen s then some (CStr.ofBytes s).val else none).map CStr.ofBytes).getD
      (CStr.ofBytes []) = CStr.ofBytes s := by
  by_cases h : 0 < boundedLen s
  · rw [if_pos h, Option.map_some, Option.getD_some, ofBytes_val]
  · rw [if_neg h]
    apply Subtype.ext
    exact (List.eq_nil_of_length_eq_zero (Nat.eq_zero_of_not_pos h)).symm

end

/-- The beacons agree: the names and contacts as strings, and the keys if there is one. -/
structure Beacon.Same (b b' : Beacon) : Prop where
  game : b.game = b'.game
  wire : b.wire = b'.wire
  major : b.major = b'.major
  minor : b.minor = b'.minor
  port : b.port = b'.port
  players : b.players = b'.players
  capacity : b.capacity = b'.capacity
  modes : b.modes = b'.modes
  flags : b.flags = b'.flags
  inst : b.inst = b'.inst
  name : CStr.ofBytes b.name.val = CStr.ofBytes b'.name.val
  contact : CStr.ofBytes b.contact.val = CStr.ofBytes b'.contact.val
  hasKey : b.hasKey = b'.hasKey
  key : b'.hasKey = true → b.key = b'.key

section
variable {b b' : Beacon}

theorem lastOf_items {α : Type} (sel : Item → Option α) (b : Beacon) :
    lastOf sel b.items = (if b.hasKey then sel (itemKey b.key) else none).or
      ((lastOf sel (itemsStr fContact (by decide) b.contact)).or
      ((lastOf sel (itemsStr fName (by decide) b.name)).or
      ((lastOf sel (items32 fInstance (by decide) b.inst)).or
      ((lastOf sel (items32 fFlags (by decide) b.flags)).or
      ((lastOf sel (items32 fModes (by decide) b.modes)).or
      ((lastOf sel (items16 fCapacity (by decide) b.capacity)).or
      ((lastOf sel (items16 fPlayers (by decide) b.players)).or
      ((lastOf sel (items16 fPort (by decide) b.port)).or
      ((lastOf sel (items16 fMinor (by decide) b.minor)).or
      ((lastOf sel (items16 fMajor (by decide) b.major)).or
      ((lastOf sel (items16 fWire (by decide) b.wire)).or
      (lastOf sel (items32 fGame (by decide) b.game))))))))))))) := by
  simp only [Beacon.items, lastOf_append, lastOf_itemIf]

/-- **The values of a beacon show the beacon.** -/
theorem Beacon.Shows.same (h : b'.Shows b.items) : b'.Same b := by
  have hstr {f : UInt8} (items : List Item) : lastOf (strOf f) items =
      (lastOf (bytesOf f) items).map CStr.ofBytes := lastOf_map ..
  have hname : lastOf (bytesOf fName) b.items =
      if 0 < boundedLen b.name.val then some (CStr.ofBytes b.name.val).val else none := by
    simp [lastOf_items, items16, items32, itemsStr, lastOf_itemIf]
  have hcontact : lastOf (bytesOf fContact) b.items =
      if 0 < boundedLen b.contact.val then some (CStr.ofBytes b.contact.val).val else none := by
    simp [lastOf_items, items16, items32, itemsStr, lastOf_itemIf]
  have hkey : lastOf (bytesOf fKey) b.items = if b.hasKey then some b.key.val else none := by
    simp [lastOf_items, items16, items32, itemsStr, lastOf_itemIf]
  refine ⟨h.game.trans ?_, h.wire.trans ?_, h.major.trans ?_, h.minor.trans ?_, h.port.trans ?_,
    h.players.trans ?_, h.capacity.trans ?_, h.modes.trans ?_, h.flags.trans ?_, h.inst.trans ?_,
    h.name.trans ?_, h.contact.trans ?_, h.hasKey.trans ?_, fun hb => Subtype.ext (h.key.trans ?_)⟩
  case refine_11 => rw [hstr, hname, getD_str]
  case refine_12 => rw [hstr, hcontact, getD_str]
  case refine_13 =>
    rw [hkey]
    cases b.hasKey <;> rfl
  case refine_14 =>
    rw [hkey, if_pos hb]
    rfl
  all_goals
    simp [lastOf_items, items16, items32, itemsStr, lastOf_itemIf, getD_zero]

theorem forall_itemIf {P : Item → Prop} {cond : Bool} {it : Item} (h : P it) :
    ∀ x ∈ itemIf cond it, P x := by
  intro x hx
  cases cond with
  | false => cases hx
  | true =>
    rw [List.mem_singleton.1 hx]
    exact h

theorem allowed_number {it : Item} (h : it.wire ≠ msWireBytes) : Allowed it := by
  simp [Allowed, bytesOf_none h]

theorem length_text {s : Bytes 65} (hs : 0 ∈ s.val) : (CStr.ofBytes s.val).val.length < 65 := by
  have := boundedLen_lt hs
  rwa [s.property] at this

theorem allowed_itemStr (field : UInt8) (hf : field < 32) {s : Bytes 65} (hs : 0 ∈ s.val)
    (hkey : field ≠ fKey) : Allowed (itemStr field hf s) := by
  have hlen := length_text hs
  refine ⟨fun d hd => ?_, fun d hd => ?_, fun d hd => ?_⟩
  · rw [bytesOf_itemStr, Option.ite_none_right_eq_some] at hd
    rw [← Option.some.inj hd.2]
    exact Nat.le_of_lt_succ hlen
  · rw [bytesOf_itemStr, Option.ite_none_right_eq_some] at hd
    rw [← Option.some.inj hd.2]
    exact Nat.le_of_lt_succ hlen
  · rw [bytesOf_itemStr, if_neg hkey] at hd
    cases hd

theorem allowed_itemKey (key : Bytes 32) : Allowed (itemKey key) := by
  simp [Allowed, key.property]

/-- The values of a beacon are ones that the parser has room for. -/
theorem items_allowed (hname : 0 ∈ b.name.val) (hcontact : 0 ∈ b.contact.val) :
    ∀ it ∈ b.items, Allowed it := by
  have h16 (f : UInt8) (hf : f < 32) (v : UInt16) : ∀ it ∈ items16 f hf v, Allowed it :=
    forall_itemIf (allowed_number fun h => by cases h)
  have h32 (f : UInt8) (hf : f < 32) (v : UInt32) : ∀ it ∈ items32 f hf v, Allowed it :=
    forall_itemIf (allowed_number fun h => by cases h)
  have hn : ∀ it ∈ itemsStr fName (by decide) b.name, Allowed it :=
    forall_itemIf (allowed_itemStr fName (by decide) hname (by decide))
  have hc : ∀ it ∈ itemsStr fContact (by decide) b.contact, Allowed it :=
    forall_itemIf (allowed_itemStr fContact (by decide) hcontact (by decide))
  have hk : ∀ it ∈ itemIf b.hasKey (itemKey b.key), Allowed it :=
    forall_itemIf (allowed_itemKey b.key)
  simp only [Beacon.items, List.forall_mem_append]
  exact ⟨⟨⟨⟨⟨⟨⟨⟨⟨⟨⟨⟨h32 _ _ _, h16 _ _ _⟩, h16 _ _ _⟩, h16 _ _ _⟩, h16 _ _ _⟩, h16 _ _ _⟩, h16 _ _ _⟩,
    h32 _ _ _⟩, h32 _ _ _⟩, h32 _ _ _⟩, hn⟩, hc⟩, hk⟩

/-- A beacon of any fields has at most 212 bytes. -/
theorem length_beacon (hname : 0 ∈ b.name.val) (hcontact : 0 ∈ b.contact.val) :
    (packet ncBeaconAnnounce b.items).length ≤ 212 := by
  have hif {cond : Bool} {it : Item} {n : Nat} (h : it.encode.length ≤ n) :
      ((itemIf cond it).flatMap Item.encode).length ≤ n := by
    cases cond with
    | false => exact Nat.zero_le _
    | true => rwa [itemIf, if_pos rfl, List.flatMap_singleton]
  have h16 (f : UInt8) (hf : f < 32) (v : UInt16) :
      ((items16 f hf v).flatMap Item.encode).length ≤ 3 := hif (Nat.le_of_eq rfl)
  have h32 (f : UInt8) (hf : f < 32) (v : UInt32) :
      ((items32 f hf v).flatMap Item.encode).length ≤ 5 := hif (Nat.le_of_eq rfl)
  have hstr (f : UInt8) (hf : f < 32) {s : Bytes 65} (hs : 0 ∈ s.val) :
      ((itemsStr f hf s).flatMap Item.encode).length ≤ 67 := by
    have hlen := length_text hs
    refine hif ?_
    change (CStr.ofBytes s.val).val.length + 2 + 1 ≤ 67
    omega
  have hkey : ((itemIf b.hasKey (itemKey b.key)).flatMap Item.encode).length ≤ 35 := by
    refine hif ?_
    change b.key.val.length + 2 + 1 ≤ 35
    rw [b.key.property]
  have hn := hstr fName (by decide) hname
  have hc := hstr fContact (by decide) hcontact
  rw [length_packet]
  simp only [Beacon.items, List.flatMap_append, List.length_append, hdr]
  have h1 := h32 fGame (by decide) b.game
  have h2 := h16 fWire (by decide) b.wire
  have h3 := h16 fMajor (by decide) b.major
  have h4 := h16 fMinor (by decide) b.minor
  have h5 := h16 fPort (by decide) b.port
  have h6 := h16 fPlayers (by decide) b.players
  have h7 := h16 fCapacity (by decide) b.capacity
  have h8 := h32 fModes (by decide) b.modes
  have h9 := h32 fFlags (by decide) b.flags
  have h10 := h32 fInstance (by decide) b.inst
  omega

end

/-! ## Round trips -/

/-- What a builder owes a caller with `outlen` bytes: a packet in them, of at least a header, of
which `read` holds, or `NC_BEACON_ERR`, which it does not return from 512 bytes on. -/
structure Built (out : Mem) (outlen : Nat) (r : Mem × Option Nat) (read : List UInt8 → Prop) :
    Prop where
  result : ∀ n, r.2 = some n → hdr ≤ n ∧ n ≤ min outlen ncBeaconMax ∧ read (r.1.read 0 n)
  roomy : ncBeaconMax ≤ outlen → r.2 ≠ none
  outside : ∀ x, min outlen ncBeaconMax ≤ x → r.1 x = out x

theorem Stands.built {out : Mem} {outlen : Nat} {kind : UInt8} {items : List Item}
    {r : Mem × Option Nat} {read : List UInt8 → Prop}
    (h : Stands out (min outlen ncBeaconMax) (packet kind items) r)
    (hsmall : (packet kind items).length ≤ ncBeaconMax)
    (hread : (packet kind items).length ≤ ncBeaconMax → read (packet kind items)) :
    Built out outlen r read where
  result n hn := by
    by_cases hfit : (packet kind items).length ≤ min outlen ncBeaconMax
    · have hr := h.fits hfit
      rw [hr] at hn ⊢
      cases hn
      rw [Mem.read_write_self]
      exact ⟨by rw [length_packet]; exact Nat.le_add_right _ _, hfit, hread hsmall⟩
    · rw [h.full (Nat.not_le.1 hfit)] at hn
      cases hn
  roomy hlen hnone := by
    have hr := h.fits (by rw [Nat.min_eq_right hlen]; exact hsmall)
    rw [hr] at hnone
    cases hnone
  outside := h.outside

theorem packet_carries {kind : UInt8} {items : List Item}
    (h : (packet kind items).length ≤ ncBeaconMax) : Carries (packet kind items) kind items :=
  ⟨by rw [length_packet]; exact Nat.le_add_right _ _, h, rfl⟩

theorem parse_packet {items : List Item} (hall : ∀ it ∈ items, Allowed it)
    (hsmall : (packet ncBeaconAnnounce items).length ≤ ncBeaconMax) :
    ∃ b, ncBeaconParse (packet ncBeaconAnnounce items) = .ok b ∧ b.Shows items := by
  obtain ⟨b, hf⟩ := (foldlM_accepts beaconStep_accepts items {}).2 hall
  obtain ⟨-, hparse⟩ := loop_carries {} (.inl rfl)
    (parseBody_reads (packet ncBeaconAnnounce items)) _ rfl
  exact ⟨b, (hparse b).2 ⟨items, packet_carries hsmall, hf⟩, beacon_shows hf⟩

theorem probe_packet {game : UInt32} {items : List Item}
    (hf : items.foldlM (Item.step probeStep) 0 = some game)
    (hsmall : (packet ncBeaconProbe items).length ≤ ncBeaconMax) :
    ncBeaconProbeGame (packet ncBeaconProbe items) = .ok game := by
  obtain ⟨-, hprobe⟩ := loop_carries 0 (.inr rfl) (probeBody_reads (packet ncBeaconProbe items)) _ rfl
  exact (hprobe game).2 ⟨items, packet_carries hsmall, hf⟩

/-- **Beacons round-trip**: an announcement that is built is parsed to an equal beacon, and a probe
to its game. -/
theorem beacon_round_trip (out : Mem) (outlen : Nat) :
    (∀ b : Beacon, 0 ∈ b.name.val → 0 ∈ b.contact.val →
      Built out outlen (ncBeaconBuild out outlen b) fun pkt =>
        ∃ b', ncBeaconParse pkt = .ok b' ∧ b'.Same b) ∧
    ∀ game : UInt32, Built out outlen (ncBeaconProbeInto out outlen game) fun pkt =>
      ncBeaconProbeGame pkt = .ok game := by
  constructor
  · intro b hname hcontact
    have hlen := length_beacon hname hcontact
    refine (build_stands out outlen hname hcontact).built (hlen.trans (by decide)) fun hsmall => ?_
    obtain ⟨b', hb', hshows⟩ := parse_packet (items_allowed hname hcontact) hsmall
    exact ⟨b', hb', hshows.same⟩
  · intro game
    refine (probe_stands out outlen game).built ?_ fun hsmall => probe_packet ?_ hsmall
    · rw [length_packet]
      exact Nat.le_of_ble_eq_true rfl
    · rw [List.foldlM_cons, Item.step, probeStep, if_pos ⟨rfl, rfl⟩]
      exact congrArg some (leVal_u32 game)

/-- A beacon with a number, a name and a key. -/
def lanBeacon : Beacon :=
  { port := 4433, name := ⟨[104, 105] ++ List.replicate 63 0, by decide⟩, hasKey := true }

theorem beacon_round_trip_lan : ∃ n,
    (ncBeaconBuild (fun _ => 0) 512 lanBeacon).2 = some n ∧
      ∃ b', ncBeaconParse ((ncBeaconBuild (fun _ => 0) 512 lanBeacon).1.read 0 n) = .ok b' ∧
        b'.Same lanBeacon := by
  have h := (beacon_round_trip (fun _ => 0) 512).1 lanBeacon (by decide) (by decide)
  obtain ⟨n, hn⟩ := Option.ne_none_iff_exists'.1 (h.roomy (Nat.le_refl _))
  exact ⟨n, hn, (h.result n hn).2.2⟩

end Netchan.Discovery
