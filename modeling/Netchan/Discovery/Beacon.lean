import Netchan.Idl.Tagged

/-!
# The discovery packet

`nc_beacon_kind`, `nc_beacon_parse` and `nc_beacon_probe_game` of `discovery/nc_beacon.c`, with
every access to the packet checked (`Stop.fault`); `Stop.err` is `NC_BEACON_ERR`. The packet is a
magic, a kind byte and a list of tagged values.

* `beaconStep`, `probeStep`: what the parsers make of one value.
* `beacon_grammar`: which packets they accept, and what they read of them.
-/

namespace Netchan.Discovery

open Lib Idl

abbrev hdr : Nat := 5
abbrev ncBeaconMax : Nat := 512
abbrev ncBeaconMaxName : Nat := 64
abbrev ncBeaconMaxContact : Nat := 64
abbrev ncBeaconMagic : Nat := 0x3142434e
abbrev ncBeaconAnnounce : UInt8 := 1
abbrev ncBeaconProbe : UInt8 := 2

@[simp] abbrev fGame : UInt8 := 1
@[simp] abbrev fWire : UInt8 := 2
@[simp] abbrev fMajor : UInt8 := 3
@[simp] abbrev fMinor : UInt8 := 4
@[simp] abbrev fPort : UInt8 := 5
@[simp] abbrev fPlayers : UInt8 := 6
@[simp] abbrev fCapacity : UInt8 := 7
@[simp] abbrev fModes : UInt8 := 8
@[simp] abbrev fFlags : UInt8 := 9
@[simp] abbrev fInstance : UInt8 := 10
@[simp] abbrev fName : UInt8 := 11
@[simp] abbrev fContact : UInt8 := 12
@[simp] abbrev fKey : UInt8 := 13

/-- `struct nc_beacon`. -/
structure Beacon where
  game : UInt32 := 0
  wire : UInt16 := 0
  major : UInt16 := 0
  minor : UInt16 := 0
  port : UInt16 := 0
  players : UInt16 := 0
  capacity : UInt16 := 0
  modes : UInt32 := 0
  flags : UInt32 := 0
  inst : UInt32 := 0
  name : Bytes (ncBeaconMaxName + 1) := .zero _
  contact : Bytes (ncBeaconMaxContact + 1) := .zero _
  key : Bytes 32 := .zero 32
  hasKey : Bool := false

/-! ## The parsers -/

def ncBeaconKind (pkt : List UInt8) : Except Stop UInt8 :=
  if pkt.length < hdr ∨ pkt.length > ncBeaconMax then .error .err
  else do
    let magic ← Checked.bytesFrom pkt 0 4
    if leVal magic ≠ ncBeaconMagic then .error .err
    else
      let kind ← Checked.byteAt pkt 4
      if kind ≠ ncBeaconAnnounce ∧ kind ≠ ncBeaconProbe then .error .err
      else return kind

/-- `take_str`: the bytes and a NUL go to the start of the array. -/
def takeStr {n : Nat} (dst : Bytes n) (src : List UInt8) : Option (Bytes n) :=
  if h : src.length + 1 > n then none
  else some ⟨src ++ 0 :: dst.val.drop (src.length + 1), by simp [dst.property]; omega⟩

/-- The `switch` for a bytes value. -/
def Beacon.setBytes (b : Beacon) (field : UInt8) (data : List UInt8) : Option Beacon :=
  if field = fName then (takeStr b.name data).map fun s => { b with name := s }
  else if field = fContact then (takeStr b.contact data).map fun s => { b with contact := s }
  else if field = fKey then
    if h : data.length = 32 then some { b with key := ⟨data, h⟩, hasKey := true } else none
  else some b

/-- The `switch` for a 16-bit value. -/
def Beacon.set16 (b : Beacon) (field : UInt8) (v : UInt16) : Beacon :=
  if field = fWire then { b with wire := v }
  else if field = fMajor then { b with major := v }
  else if field = fMinor then { b with minor := v }
  else if field = fPort then { b with port := v }
  else if field = fPlayers then { b with players := v }
  else if field = fCapacity then { b with capacity := v }
  else b

/-- The `switch` for a 32-bit value. -/
def Beacon.set32 (b : Beacon) (field : UInt8) (v : UInt32) : Beacon :=
  if field = fGame then { b with game := v }
  else if field = fModes then { b with modes := v }
  else if field = fFlags then { b with flags := v }
  else if field = fInstance then { b with inst := v }
  else b

/-- The loop body of `nc_beacon_parse`. -/
def parseBody (p : List UInt8) (b : Beacon) (field wire : UInt8) (pos : Nat) :
    Except Stop (Beacon × Nat) :=
  if wire = msWireBytes then do
    let (data, pos) ← Checked.msReadBytes p pos p.length 0xffff
    match b.setBytes field data with
    | none => .error .err
    | some b => return (b, pos)
  else if wire = msWire16 then do
    let (v, pos) ← Checked.msReadU16 p pos p.length
    return (b.set16 field v, pos)
  else if wire = msWire32 then do
    let (v, pos) ← Checked.msReadU32 p pos p.length
    return (b.set32 field v, pos)
  else do
    let pos ← Checked.msSkip p pos p.length wire
    return (b, pos)

def ncBeaconParse (pkt : List UInt8) : Except Stop Beacon := do
  let kind ← ncBeaconKind pkt
  if kind ≠ ncBeaconAnnounce then .error .err
  else Checked.readLoop (parseBody pkt) pkt pkt.length pkt.length {} hdr

/-- The loop body of `nc_beacon_probe_game`. -/
def probeBody (p : List UInt8) (game : UInt32) (field wire : UInt8) (pos : Nat) :
    Except Stop (UInt32 × Nat) :=
  if field = fGame ∧ wire = msWire32 then Checked.msReadU32 p pos p.length
  else do
    let pos ← Checked.msSkip p pos p.length wire
    return (game, pos)

def ncBeaconProbeGame (pkt : List UInt8) : Except Stop UInt32 := do
  let kind ← ncBeaconKind pkt
  if kind ≠ ncBeaconProbe then .error .err
  else Checked.readLoop (probeBody pkt) pkt pkt.length pkt.length 0 hdr

/-! ## One value -/

/-- What `nc_beacon_parse` makes of a value. -/
def beaconStep (b : Beacon) (field wire : UInt8) (data : List UInt8) : Option Beacon :=
  if wire = msWireBytes then b.setBytes field data
  else if wire = msWire16 then some (b.set16 field (UInt16.ofNat (leVal data)))
  else if wire = msWire32 then some (b.set32 field (UInt32.ofNat (leVal data)))
  else some b

/-- What `nc_beacon_probe_game` makes of a value. -/
def probeStep (game : UInt32) (field wire : UInt8) (data : List UInt8) : Option UInt32 :=
  if field = fGame ∧ wire = msWire32 then some (UInt32.ofNat (leVal data)) else some game

theorem parseBody_reads (p : List UInt8) : ReadsValues (parseBody p) beaconStep p p.length := by
  intro b field wire pos hp
  unfold parseBody beaconStep
  by_cases h4 : wire = msWireBytes
  · simp only [if_pos h4]
    rw [msReadBytes_eq (Nat.le_refl _) hp, h4]
    rcases takeValue msWireBytes (region p pos p.length) with _ | ⟨d, r⟩
    · rfl
    · simp only [located, Option.bind_some, bind, Except.bind]
      cases b.setBytes field d <;> rfl
  · simp only [if_neg h4]
    by_cases h1 : wire = msWire16
    · simp only [if_pos h1]
      rw [msReadU16_eq (Nat.le_refl _) hp, h1]
      cases takeValue msWire16 (region p pos p.length) <;> rfl
    · simp only [if_neg h1]
      by_cases h2 : wire = msWire32
      · simp only [if_pos h2]
        rw [msReadU32_eq (Nat.le_refl _) hp, h2]
        cases takeValue msWire32 (region p pos p.length) <;> rfl
      · simp only [if_neg h2]
        rw [msSkip_eq (Nat.le_refl _) hp]
        cases takeValue wire (region p pos p.length) <;> rfl

theorem probeBody_reads (p : List UInt8) : ReadsValues (probeBody p) probeStep p p.length := by
  intro g field wire pos hp
  unfold probeBody probeStep
  by_cases h : field = fGame ∧ wire = msWire32
  · simp only [if_pos h]
    rw [msReadU32_eq (Nat.le_refl _) hp, h.2]
    cases takeValue msWire32 (region p pos p.length) <;> rfl
  · simp only [if_neg h]
    rw [msSkip_eq (Nat.le_refl _) hp]
    cases takeValue wire (region p pos p.length) <;> rfl

/-! ## The fields -/

/-- The value of a 16-bit field. -/
def u16Of (field : UInt8) (it : Item) : Option UInt16 :=
  if it.field = field ∧ it.wire = msWire16 then some (UInt16.ofNat (leVal it.data)) else none

/-- The value of a 32-bit field. -/
def u32Of (field : UInt8) (it : Item) : Option UInt32 :=
  if it.field = field ∧ it.wire = msWire32 then some (UInt32.ofNat (leVal it.data)) else none

/-- The value of a bytes field. -/
def bytesOf (field : UInt8) (it : Item) : Option (List UInt8) :=
  if it.field = field ∧ it.wire = msWireBytes then some it.data else none

/-- A bytes field as a string, up to its first NUL. -/
def strOf (field : UInt8) (it : Item) : Option CStr := (bytesOf field it).map CStr.ofBytes

/-- A name or contact fits its array, a key has the length of one. -/
def Allowed (it : Item) : Prop :=
  (∀ d, bytesOf fName it = some d → d.length ≤ ncBeaconMaxName) ∧
  (∀ d, bytesOf fContact it = some d → d.length ≤ ncBeaconMaxContact) ∧
  ∀ d, bytesOf fKey it = some d → d.length = 32

/-- The beacon has each field from its last occurrence, and the fields that do not occur are
zero. -/
structure Beacon.Shows (b : Beacon) (items : List Item) : Prop where
  game : b.game = (lastOf (u32Of fGame) items).getD 0
  wire : b.wire = (lastOf (u16Of fWire) items).getD 0
  major : b.major = (lastOf (u16Of fMajor) items).getD 0
  minor : b.minor = (lastOf (u16Of fMinor) items).getD 0
  port : b.port = (lastOf (u16Of fPort) items).getD 0
  players : b.players = (lastOf (u16Of fPlayers) items).getD 0
  capacity : b.capacity = (lastOf (u16Of fCapacity) items).getD 0
  modes : b.modes = (lastOf (u32Of fModes) items).getD 0
  flags : b.flags = (lastOf (u32Of fFlags) items).getD 0
  inst : b.inst = (lastOf (u32Of fInstance) items).getD 0
  name : CStr.ofBytes b.name.val = (lastOf (strOf fName) items).getD (CStr.ofBytes [])
  contact : CStr.ofBytes b.contact.val = (lastOf (strOf fContact) items).getD (CStr.ofBytes [])
  key : b.key.val = (lastOf (bytesOf fKey) items).getD (List.replicate 32 0)
  hasKey : b.hasKey = (lastOf (bytesOf fKey) items).isSome

section
variable {b b' : Beacon} {it : Item}

theorem ofBytes_nul (s rest : List UInt8) : CStr.ofBytes (s ++ 0 :: rest) = CStr.ofBytes s := by
  apply Subtype.ext
  simp only [CStr.ofBytes]
  induction s with
  | nil => simp
  | cons c s ih =>
    rw [List.cons_append, List.takeWhile_cons, List.takeWhile_cons, ih]

theorem takeStr_some {n : Nat} {dst s : Bytes n} {src : List UInt8} (h : takeStr dst src = some s) :
    CStr.ofBytes s.val = CStr.ofBytes src := by
  unfold takeStr at h
  split at h
  · cases h
  · cases h
    exact ofBytes_nul ..

theorem takeStr_isSome {n : Nat} (dst : Bytes n) (src : List UInt8) :
    (takeStr dst src).isSome = true ↔ src.length + 1 ≤ n := by
  unfold takeStr
  split <;> simp <;> omega

theorem setBytes_isSome (b : Beacon) (field : UInt8) (data : List UInt8) :
    (b.setBytes field data).isSome = true ↔
      (field = fName → data.length ≤ ncBeaconMaxName) ∧
      (field = fContact → data.length ≤ ncBeaconMaxContact) ∧
      (field = fKey → data.length = 32) := by
  unfold Beacon.setBytes
  by_cases h11 : field = fName
  · subst h11
    simp [takeStr_isSome]
  · by_cases h12 : field = fContact
    · subst h12
      simp [takeStr_isSome]
    · by_cases h13 : field = fKey
      · subst h13
        by_cases hl : data.length = 32 <;> simp [hl]
      · simp [h11, h12, h13]

theorem beaconStep_accepts (b : Beacon) (it : Item) :
    (∃ b', it.step beaconStep b = some b') ↔ Allowed it := by
  rw [← Option.isSome_iff_exists]
  unfold Item.step beaconStep Allowed bytesOf
  by_cases h4 : it.wire = msWireBytes
  · simp only [h4, if_true, and_true]
    rw [setBytes_isSome]
    simp
  · simp only [h4, if_false, and_false]
    simp only [reduceCtorEq, false_implies, implies_true, and_self, iff_true]
    repeat' split
    all_goals rfl

theorem setBytes_cases {field : UInt8} {data : List UInt8} (h : b.setBytes field data = some b') :
    (∃ s, field = fName ∧ takeStr b.name data = some s ∧ b' = { b with name := s }) ∨
    (∃ s, field = fContact ∧ takeStr b.contact data = some s ∧ b' = { b with contact := s }) ∨
    (∃ hl : data.length = 32, field = fKey ∧ b' = { b with key := ⟨data, hl⟩, hasKey := true }) ∨
    (field ≠ fName ∧ field ≠ fContact ∧ field ≠ fKey ∧ b' = b) := by
  unfold Beacon.setBytes at h
  split at h
  · rename_i h11
    obtain ⟨s, hs, hb⟩ := Option.map_eq_some_iff.1 h
    exact .inl ⟨s, h11, hs, hb.symm⟩
  split at h
  · rename_i h12
    obtain ⟨s, hs, hb⟩ := Option.map_eq_some_iff.1 h
    exact .inr (.inl ⟨s, h12, hs, hb.symm⟩)
  split at h
  · rename_i h13
    split at h
    · rename_i hl
      exact .inr (.inr (.inl ⟨hl, h13, (Option.some.inj h).symm⟩))
    · cases h
  · rename_i h11 h12 h13
    exact .inr (.inr (.inr ⟨h11, h12, h13, (Option.some.inj h).symm⟩))

/-- What a value does to each field: it sets the field it is for. -/
structure Sets (b : Beacon) (it : Item) (b' : Beacon) : Prop where
  game : b'.game = (u32Of fGame it).getD b.game
  wire : b'.wire = (u16Of fWire it).getD b.wire
  major : b'.major = (u16Of fMajor it).getD b.major
  minor : b'.minor = (u16Of fMinor it).getD b.minor
  port : b'.port = (u16Of fPort it).getD b.port
  players : b'.players = (u16Of fPlayers it).getD b.players
  capacity : b'.capacity = (u16Of fCapacity it).getD b.capacity
  modes : b'.modes = (u32Of fModes it).getD b.modes
  flags : b'.flags = (u32Of fFlags it).getD b.flags
  inst : b'.inst = (u32Of fInstance it).getD b.inst
  name : CStr.ofBytes b'.name.val = (strOf fName it).getD (CStr.ofBytes b.name.val)
  contact : CStr.ofBytes b'.contact.val = (strOf fContact it).getD (CStr.ofBytes b.contact.val)
  key : b'.key.val = (bytesOf fKey it).getD b.key.val
  hasKey : b'.hasKey = ((bytesOf fKey it).map fun _ => true).getD b.hasKey

theorem u16Of_none {field : UInt8} (h : it.wire ≠ msWire16) : u16Of field it = none :=
  if_neg fun h' => h h'.2

theorem u32Of_none {field : UInt8} (h : it.wire ≠ msWire32) : u32Of field it = none :=
  if_neg fun h' => h h'.2

theorem bytesOf_none {field : UInt8} (h : it.wire ≠ msWireBytes) : bytesOf field it = none :=
  if_neg fun h' => h h'.2

theorem strOf_none {field : UInt8} (h : it.wire ≠ msWireBytes) : strOf field it = none := by
  rw [strOf, bytesOf_none h]
  rfl

/-- A value sets the field it is for and no other. -/
theorem beaconStep_sets (h : it.step beaconStep b = some b') : Sets b it b' := by
  unfold Item.step beaconStep at h
  by_cases h4 : it.wire = msWireBytes
  · rw [if_pos h4] at h
    have h16 {f : UInt8} : u16Of f it = none := u16Of_none (by rw [h4]; decide)
    have h32 {f : UInt8} : u32Of f it = none := u32Of_none (by rw [h4]; decide)
    rcases setBytes_cases h with ⟨s, hf, hs, rfl⟩ | ⟨s, hf, hs, rfl⟩ | ⟨hl, hf, rfl⟩ |
      ⟨h11, h12, h13, rfl⟩
    · have := takeStr_some hs
      constructor <;> simp [h16, h32, strOf, bytesOf, h4, hf, this]
    · have := takeStr_some hs
      constructor <;> simp [h16, h32, strOf, bytesOf, h4, hf, this]
    · constructor <;> simp [h16, h32, strOf, bytesOf, h4, hf]
    · have hb {f : UInt8} (hf : it.field ≠ f) : bytesOf f it = none := if_neg fun h' => hf h'.1
      constructor <;> simp only [h16, h32, strOf, hb h11, hb h12, hb h13] <;> rfl
  rw [if_neg h4] at h
  have hb {f : UInt8} : bytesOf f it = none := bytesOf_none h4
  have hs {f : UInt8} : strOf f it = none := strOf_none h4
  by_cases h1 : it.wire = msWire16
  · rw [if_pos h1] at h
    have h32 {f : UInt8} : u32Of f it = none := u32Of_none (by rw [h1]; decide)
    cases h
    unfold Beacon.set16
    repeat' split
    all_goals constructor <;> simp_all [u16Of]
  rw [if_neg h1] at h
  have h16 {f : UInt8} : u16Of f it = none := u16Of_none h1
  by_cases h2 : it.wire = msWire32
  · rw [if_pos h2] at h
    cases h
    unfold Beacon.set32
    repeat' split
    all_goals constructor <;> simp_all [u32Of]
  · rw [if_neg h2] at h
    have h32 {f : UInt8} : u32Of f it = none := u32Of_none h2
    cases h
    constructor <;> simp only [h16, h32, hb, hs] <;> rfl

end

/-! ## The packets that are accepted -/

/-- The packet is of this kind and carries these values. -/
structure Carries (pkt : List UInt8) (kind : UInt8) (items : List Item) : Prop where
  long : hdr ≤ pkt.length
  short : pkt.length ≤ ncBeaconMax
  bytes : pkt = leBytes 4 ncBeaconMagic ++ kind :: items.flatMap Item.encode

theorem magic_iff {m : List UInt8} (h : m.length = 4) :
    leVal m = ncBeaconMagic ↔ m = leBytes 4 ncBeaconMagic := by
  refine ⟨fun hv => ?_, fun hm => by rw [hm, leVal_leBytes]; rfl⟩
  have := leBytes_leVal m
  rw [h, hv] at this
  exact this.symm

/-- **The header** is read inside the packet, and is one of two. -/
theorem kind_spec (pkt : List UInt8) : ncBeaconKind pkt ≠ .error .fault ∧
    ∀ kind, ncBeaconKind pkt = .ok kind ↔
      (hdr ≤ pkt.length ∧ pkt.length ≤ ncBeaconMax) ∧
      pkt = leBytes 4 ncBeaconMagic ++ kind :: pkt.drop hdr ∧
      (kind = ncBeaconAnnounce ∨ kind = ncBeaconProbe) := by
  unfold ncBeaconKind
  by_cases hlen : pkt.length < hdr ∨ pkt.length > ncBeaconMax
  · rw [if_pos hlen]
    refine ⟨by simp, fun kind => ⟨by simp, fun h => ?_⟩⟩
    omega
  rw [if_neg hlen]
  obtain ⟨m, k, rest, rfl, hm4⟩ : ∃ m k rest, pkt = m ++ k :: rest ∧ m.length = 4 := by
    have h5 : 4 < pkt.length := by
      simp only [hdr] at hlen
      omega
    refine ⟨pkt.take 4, pkt[4], pkt.drop 5, ?_, by rw [List.length_take]; omega⟩
    rw [← List.drop_eq_getElem_cons h5, List.take_append_drop]
  have hmagic : Checked.bytesFrom (m ++ k :: rest) 0 4 = .ok m := by
    rw [Checked.bytesFrom, if_pos (by simp [hm4]), List.drop_zero, List.take_left' hm4]
  have hkind : Checked.byteAt (m ++ k :: rest) 4 = .ok k := by
    rw [Checked.byteAt, List.getElem?_append_right (by omega), hm4]
    rfl
  have hrest : (m ++ k :: rest).drop hdr = rest := by
    rw [List.drop_append, hm4, List.drop_of_length_le (by rw [hm4]; decide)]
    rfl
  have hiff (kind : UInt8) : m ++ k :: rest = leBytes 4 ncBeaconMagic ++ kind :: rest ↔
      m = leBytes 4 ncBeaconMagic ∧ k = kind := by
    constructor
    · intro h
      obtain ⟨h1, h2⟩ := List.append_inj h hm4
      exact ⟨h1, (List.cons.inj h2).1⟩
    · rintro ⟨h1, h2⟩
      rw [h1, h2]
  simp only [hmagic, hkind, hrest, hiff, bind, Except.bind]
  by_cases hm : m = leBytes 4 ncBeaconMagic
  · rw [if_neg (not_not.2 ((magic_iff hm4).2 hm))]
    by_cases hk : k ≠ ncBeaconAnnounce ∧ k ≠ ncBeaconProbe
    · rw [if_pos hk]
      refine ⟨by simp, fun kind => ⟨by simp, ?_⟩⟩
      rintro ⟨-, ⟨-, he⟩, ho⟩
      exact absurd ho (not_or.2 (he ▸ hk))
    · rw [if_neg hk]
      have hok : k = ncBeaconAnnounce ∨ k = ncBeaconProbe := by
        by_contra hno
        exact hk (not_or.1 hno)
      refine ⟨by simp [pure, Except.pure], fun kind => ⟨fun h => ?_, ?_⟩⟩
      · obtain rfl : k = kind := Except.ok.inj h
        exact ⟨by omega, ⟨hm, rfl⟩, hok⟩
      · rintro ⟨-, ⟨-, he⟩, -⟩
        rw [he]
        rfl
  · rw [if_pos fun hv => hm ((magic_iff hm4).1 hv)]
    refine ⟨by simp, fun kind => ⟨by simp, ?_⟩⟩
    rintro ⟨-, ⟨h1, -⟩, -⟩
    exact absurd h1 hm

/-- A parser of packets of one kind reads exactly those that carry values its steps accept. -/
theorem loop_carries {σ : Type} {body : σ → UInt8 → UInt8 → Nat → Except Stop (σ × Nat)}
    {step : σ → UInt8 → UInt8 → List UInt8 → Option σ} {pkt : List UInt8} {kind : UInt8} (s : σ)
    (hkind : kind = ncBeaconAnnounce ∨ kind = ncBeaconProbe)
    (hbody : ReadsValues body step pkt pkt.length) (result : Except Stop σ)
    (hr : result = (ncBeaconKind pkt).bind fun k =>
      if k ≠ kind then .error .err else Checked.readLoop body pkt pkt.length pkt.length s hdr) :
    result ≠ .error .fault ∧ ∀ s', result = .ok s' ↔
      ∃ items, Carries pkt kind items ∧ items.foldlM (Item.step step) s = some s' := by
  obtain ⟨hok, hiff⟩ := kind_spec pkt
  rw [hr]
  have hhead : ∀ {items : List Item}, Carries pkt kind items →
      ncBeaconKind pkt = .ok kind ∧ pkt.drop hdr = items.flatMap Item.encode := by
    intro items hc
    have hdrop : pkt.drop hdr = items.flatMap Item.encode := by
      rw [hc.bytes]
      rfl
    exact ⟨(hiff kind).2 ⟨⟨hc.long, hc.short⟩, by rw [hdrop]; exact hc.bytes, hkind⟩, hdrop⟩
  cases hk : ncBeaconKind pkt with
  | error e =>
    have he : e ≠ .fault := fun he => hok (by rw [hk, he])
    simp only [Except.bind, ne_eq, Except.error.injEq, he, not_false_eq_true, true_and]
    refine fun s' => ⟨fun h => (by cases h), ?_⟩
    rintro ⟨items, hc, -⟩
    rw [(hhead hc).1] at hk
    cases hk
  | ok k =>
    simp only [Except.bind]
    by_cases hne : k ≠ kind
    · rw [if_pos hne]
      refine ⟨by simp, fun s' => ⟨by simp, ?_⟩⟩
      rintro ⟨items, hc, -⟩
      rw [(hhead hc).1] at hk
      exact absurd (Except.ok.inj hk).symm hne
    · rw [if_neg hne]
      obtain rfl : k = kind := by simpa using hne
      obtain ⟨⟨h1, h2⟩, hbytes, -⟩ := (hiff k).1 hk
      obtain ⟨hsafe, hloop⟩ := readLoop_items hbody (Nat.le_refl _) (s := s) h1
        (Nat.le_add_left pkt.length hdr)
      refine ⟨hsafe, fun s' => (hloop s').trans ?_⟩
      have hregion : region pkt hdr pkt.length = pkt.drop hdr := by simp [region]
      rw [hregion]
      constructor
      · rintro ⟨items, hi, hf⟩
        exact ⟨items, ⟨h1, h2, by rw [← hi]; exact hbytes⟩, hf⟩
      · rintro ⟨items, hc, hf⟩
        exact ⟨items, (hhead hc).2, hf⟩

theorem probeStep_sets {g g' : UInt32} {it : Item} (h : it.step probeStep g = some g') :
    g' = (u32Of fGame it).getD g := by
  unfold Item.step probeStep at h
  unfold u32Of
  split at h
  · rename_i hg
    rw [if_pos hg]
    exact (Option.some.inj h).symm
  · rename_i hg
    rw [if_neg hg]
    exact (Option.some.inj h).symm

theorem probeStep_accepts (g : UInt32) (it : Item) :
    (∃ g', it.step probeStep g = some g') ↔ True := by
  unfold Item.step probeStep
  split <;> simp

theorem beacon_shows {items : List Item} {b : Beacon}
    (h : items.foldlM (Item.step beaconStep) {} = some b) : b.Shows items := by
  have last {α : Type} (get : Beacon → α) (sel : Item → Option α)
      (hs : ∀ {b it b'}, Sets b it b' → get b' = (sel it).getD (get b)) :
      get b = (lastOf sel items).getD (get {}) :=
    foldlM_last get sel (fun _ _ _ hstep => hs (beaconStep_sets hstep)) h
  refine ⟨last (·.game) _ Sets.game, last (·.wire) _ Sets.wire, last (·.major) _ Sets.major,
    last (·.minor) _ Sets.minor, last (·.port) _ Sets.port, last (·.players) _ Sets.players,
    last (·.capacity) _ Sets.capacity, last (·.modes) _ Sets.modes, last (·.flags) _ Sets.flags,
    last (·.inst) _ Sets.inst, ?_, ?_, last (·.key.val) _ Sets.key, ?_⟩
  · exact last (fun b => CStr.ofBytes b.name.val) _ Sets.name
  · exact last (fun b => CStr.ofBytes b.contact.val) _ Sets.contact
  · rw [last (·.hasKey) _ Sets.hasKey, lastOf_map]
    cases lastOf (bytesOf fKey) items <;> rfl

/-- **The beacon grammar.** No byte at or beyond the end of a packet is read. `nc_beacon_parse`
accepts exactly the announcements whose values it has room for, and reads each field from its last
occurrence; `nc_beacon_probe_game` accepts exactly the probes and reads the game. No packet is
both. -/
theorem beacon_grammar (pkt : List UInt8) :
    (ncBeaconParse pkt ≠ .error .fault ∧ ncBeaconProbeGame pkt ≠ .error .fault) ∧
    ((∃ b, ncBeaconParse pkt = .ok b) ↔
      ∃ items, Carries pkt ncBeaconAnnounce items ∧ ∀ it ∈ items, Allowed it) ∧
    (∀ b items, ncBeaconParse pkt = .ok b → Carries pkt ncBeaconAnnounce items → b.Shows items) ∧
    ((∃ g, ncBeaconProbeGame pkt = .ok g) ↔ ∃ items, Carries pkt ncBeaconProbe items) ∧
    (∀ g items, ncBeaconProbeGame pkt = .ok g → Carries pkt ncBeaconProbe items →
      g = (lastOf (u32Of fGame) items).getD 0) ∧
    ¬ ((∃ b, ncBeaconParse pkt = .ok b) ∧ ∃ g, ncBeaconProbeGame pkt = .ok g) := by
  obtain ⟨hsafe, hparse⟩ := loop_carries {} (.inl rfl) (parseBody_reads pkt) (ncBeaconParse pkt) rfl
  obtain ⟨hsafe', hprobe⟩ := loop_carries 0 (.inr rfl) (probeBody_reads pkt)
    (ncBeaconProbeGame pkt) rfl
  have hsame {k : UInt8} {items items' : List Item} (h : Carries pkt k items)
      (h' : Carries pkt k items') : items = items' := by
    have := h.bytes.symm.trans h'.bytes
    exact encode_inj (List.cons.inj (List.append_cancel_left this)).2
  refine ⟨⟨hsafe, hsafe'⟩, ?_, fun b items hb hc => ?_, ?_, fun g items hg hc => ?_, ?_⟩
  · refine ⟨fun ⟨b, hb⟩ => ?_, fun ⟨items, hc, hall⟩ => ?_⟩
    · obtain ⟨items, hc, hf⟩ := (hparse b).1 hb
      exact ⟨items, hc, (foldlM_accepts beaconStep_accepts items {}).1 ⟨b, hf⟩⟩
    · obtain ⟨b, hf⟩ := (foldlM_accepts beaconStep_accepts items {}).2 hall
      exact ⟨b, (hparse b).2 ⟨items, hc, hf⟩⟩
  · obtain ⟨items', hc', hf⟩ := (hparse b).1 hb
    rw [hsame hc hc']
    exact beacon_shows hf
  · refine ⟨fun ⟨g, hg⟩ => ?_, fun ⟨items, hc⟩ => ?_⟩
    · obtain ⟨items, hc, -⟩ := (hprobe g).1 hg
      exact ⟨items, hc⟩
    · obtain ⟨g, hf⟩ := (foldlM_accepts probeStep_accepts items 0).2 fun _ _ => trivial
      exact ⟨g, (hprobe g).2 ⟨items, hc, hf⟩⟩
  · obtain ⟨items', hc', hf⟩ := (hprobe g).1 hg
    rw [hsame hc hc']
    exact foldlM_last id _ (fun _ _ _ hstep => probeStep_sets hstep) hf
  · intro ⟨⟨b, hb⟩, g, hg⟩
    obtain ⟨items, hc, -⟩ := (hparse b).1 hb
    obtain ⟨items', hc', -⟩ := (hprobe g).1 hg
    have := hc.bytes.symm.trans hc'.bytes
    exact absurd (List.cons.inj (List.append_cancel_left this)).1 (by decide)

end Netchan.Discovery
