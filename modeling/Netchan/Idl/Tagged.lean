import Netchan.Idl.Microser
import Netchan.Lib.Fields
import Netchan.Lib.Related

/-!
# Tagged values

The readers of `idl/microser.h` with every access checked, and the grammar they read.

* `Stop`: a read ends in `MS_ERR`, or it touches a byte that the buffer does not have.
* `Item`: a complete tagged value, with its bytes on the wire (`Item.encode`).
* `readLoop_items`: a loop that reads its values with these readers touches no byte outside, ends,
  and succeeds exactly on the encodings of lists of items that its steps accept.
-/

namespace Netchan.Idl

open Lib

abbrev msWire16 : UInt8 := 1
abbrev msWire32 : UInt8 := 2

/-- Why a reader stops: with `MS_ERR`, or at an access out of bounds. -/
inductive Stop
  | err
  | fault
  deriving DecidableEq, Repr

/-! ## The readers -/

namespace Checked

/-- `buf[i]`. -/
def byteAt (buf : List UInt8) (i : Nat) : Except Stop UInt8 :=
  match buf[i]? with
  | some b => .ok b
  | none => .error .fault

/-- The `n` bytes from `buf + i` on. -/
def bytesFrom (buf : List UInt8) (i n : Nat) : Except Stop (List UInt8) :=
  if i + n ≤ buf.length then .ok ((buf.drop i).take n) else .error .fault

/-- The readers of `n` bytes, least significant first. -/
def msReadLe (n : Nat) (buf : List UInt8) (pos stop : Nat) : Except Stop (Nat × Nat) :=
  if pos + n > stop then .error .err
  else do
    let l ← bytesFrom buf pos n
    return (leVal l, pos + n)

def msReadU8 (buf : List UInt8) (pos stop : Nat) : Except Stop (UInt8 × Nat) := do
  let (v, pos) ← msReadLe 1 buf pos stop
  return (UInt8.ofNat v, pos)

def msReadU16 (buf : List UInt8) (pos stop : Nat) : Except Stop (UInt16 × Nat) := do
  let (v, pos) ← msReadLe 2 buf pos stop
  return (UInt16.ofNat v, pos)

def msReadU32 (buf : List UInt8) (pos stop : Nat) : Except Stop (UInt32 × Nat) := do
  let (v, pos) ← msReadLe 4 buf pos stop
  return (UInt32.ofNat v, pos)

def msReadU64 (buf : List UInt8) (pos stop : Nat) : Except Stop (UInt64 × Nat) := do
  let (v, pos) ← msReadLe 8 buf pos stop
  return (UInt64.ofNat v, pos)

def msReadI8 (buf : List UInt8) (pos stop : Nat) : Except Stop (Int8 × Nat) := do
  let (v, pos) ← msReadU8 buf pos stop
  return (v.toInt8, pos)

def msReadI16 (buf : List UInt8) (pos stop : Nat) : Except Stop (Int16 × Nat) := do
  let (v, pos) ← msReadU16 buf pos stop
  return (v.toInt16, pos)

def msReadI32 (buf : List UInt8) (pos stop : Nat) : Except Stop (Int32 × Nat) := do
  let (v, pos) ← msReadU32 buf pos stop
  return (v.toInt32, pos)

def msReadI64 (buf : List UInt8) (pos stop : Nat) : Except Stop (Int64 × Nat) := do
  let (v, pos) ← msReadU64 buf pos stop
  return (v.toInt64, pos)

def msReadBytes (buf : List UInt8) (pos stop dmax : Nat) : Except Stop (List UInt8 × Nat) :=
  if pos + 2 > stop then .error .err
  else do
    let l ← bytesFrom buf pos 2
    let dlen := leVal l
    if pos + 2 + dlen > stop ∨ dlen > dmax then .error .err
    else
      let data ← bytesFrom buf (pos + 2) dlen
      return (data, pos + 2 + dlen)

def msSkip (buf : List UInt8) (pos stop : Nat) (wire : UInt8) : Except Stop Nat :=
  if wire ≤ msWire64 then
    let pos := pos + 2 ^ wire.toNat
    if pos ≤ stop then .ok pos else .error .err
  else if wire = msWireBytes then
    if pos + 2 > stop then .error .err
    else do
      let l ← bytesFrom buf pos 2
      let pos := pos + 2 + leVal l
      if pos ≤ stop then return pos else .error .err
  else .error .err

/-- The loop of a reader: `body` takes what was read so far, the field number and the wire type of a
tag and the position after it. A loop that does not end within its fuel is a fault. -/
def readLoop {σ : Type} (body : σ → UInt8 → UInt8 → Nat → Except Stop (σ × Nat))
    (buf : List UInt8) (stop : Nat) : Nat → σ → Nat → Except Stop σ
  | 0, s, pos => if pos < stop then .error .fault else .ok s
  | n + 1, s, pos =>
    if pos < stop then do
      let tag ← byteAt buf pos
      let (s, pos) ← body s (tag >>> 3) (tag &&& 7) (pos + 1)
      readLoop body buf stop n s pos
    else .ok s

end Checked

/-! ## The grammar -/

/-- The bytes of a value of this wire type. -/
def Fits (wire : UInt8) (data : List UInt8) : Prop :=
  (wire ≤ msWire64 ∧ data.length = 2 ^ wire.toNat) ∨ (wire = msWireBytes ∧ data.length < 65536)

/-- A complete tagged value: its field number, its wire type and its bytes, without the length that
a bytes value is prefixed with. -/
structure Item where
  field : UInt8
  wire : UInt8
  data : List UInt8
  small : field < 32
  fits : Fits wire data

/-- A value on the wire. -/
def valueBytes (wire : UInt8) (data : List UInt8) : List UInt8 :=
  if wire = msWireBytes then leBytes 2 data.length ++ data else data

def Item.encode (it : Item) : List UInt8 :=
  (it.field <<< 3 ||| it.wire) :: valueBytes it.wire it.data

/-- The first `n` bytes and the rest. -/
def cut (n : Nat) (l : List UInt8) : Option (List UInt8 × List UInt8) :=
  if n ≤ l.length then some (l.take n, l.drop n) else none

/-- The value at the start of a byte string and what follows it. -/
def takeValue (wire : UInt8) (l : List UInt8) : Option (List UInt8 × List UInt8) :=
  if wire ≤ msWire64 then cut (2 ^ wire.toNat) l
  else if wire = msWireBytes then (cut 2 l).bind fun p => cut (leVal p.1) p.2
  else none

theorem Fits.wire_lt {wire : UInt8} {data : List UInt8} (h : Fits wire data) : wire < 8 := by
  rcases h with ⟨h, -⟩ | ⟨h, -⟩
  · exact UInt8.lt_of_le_of_lt h (by decide)
  · rw [h]
    decide

theorem cut_append {n : Nat} {d : List UInt8} (h : d.length = n) (r : List UInt8) :
    cut n (d ++ r) = some (d, r) := by
  unfold cut
  rw [if_pos (by simp [← h]), List.take_left' h, List.drop_left' h]

theorem cut_sound {n : Nat} {l d r : List UInt8} (h : cut n l = some (d, r)) :
    l = d ++ r ∧ d.length = n := by
  unfold cut at h
  split at h
  · rename_i hn
    cases h
    exact ⟨(List.take_append_drop n l).symm, by simp [hn]⟩
  · cases h

theorem takeValue_append {wire : UInt8} {d : List UInt8} (h : Fits wire d) (r : List UInt8) :
    takeValue wire (valueBytes wire d ++ r) = some (d, r) := by
  unfold takeValue valueBytes
  rcases h with ⟨hw, hl⟩ | ⟨rfl, hl⟩
  · rw [if_pos hw, if_neg (by rintro rfl; exact absurd hw (by decide)), cut_append hl]
  · rw [if_neg (by decide), if_pos rfl, if_pos rfl, List.append_assoc,
      cut_append (length_leBytes 2 d.length), Option.bind_some, leVal_leBytes,
      Nat.mod_eq_of_lt (by omega), cut_append rfl]

/-- What is read is a value. -/
theorem takeValue_sound {wire : UInt8} {l d r : List UInt8} (h : takeValue wire l = some (d, r)) :
    l = valueBytes wire d ++ r ∧ Fits wire d := by
  unfold takeValue at h
  unfold valueBytes
  split at h
  · rename_i hw
    obtain ⟨hl, hlen⟩ := cut_sound h
    rw [if_neg (by rintro rfl; exact absurd hw (by decide))]
    exact ⟨hl, .inl ⟨hw, hlen⟩⟩
  · split at h
    · rename_i hw
      obtain ⟨⟨p, q⟩, hp, hd⟩ := Option.bind_eq_some_iff.1 h
      dsimp only at hd
      obtain ⟨hl, hlen⟩ := cut_sound hp
      obtain ⟨hq, hdlen⟩ := cut_sound hd
      have hlt := leVal_lt p
      have hback := leBytes_leVal p
      rw [hlen] at hlt hback
      refine ⟨?_, .inr ⟨hw, by rw [hdlen]; exact hlt⟩⟩
      rw [if_pos hw, hdlen, hback, hl, hq, List.append_assoc]
    · cases h

/-! ## What the readers read -/

/-- The bytes from `pos` up to `stop`. -/
def region (buf : List UInt8) (pos stop : Nat) : List UInt8 := (buf.take stop).drop pos

/-- The result of a reader that took a value off the region up to `stop` and left the rest. -/
def located {α : Type} (stop : Nat) : Option (α × List UInt8) → Except Stop (α × Nat)
  | none => .error .err
  | some (a, r) => .ok (a, stop - r.length)

section
variable {buf : List UInt8} {pos stop : Nat}

theorem length_region (pos : Nat) (hs : stop ≤ buf.length) :
    (region buf pos stop).length = stop - pos := by
  simp [region, Nat.min_eq_left hs]

theorem drop_region (n : Nat) : (region buf pos stop).drop n = region buf (pos + n) stop := by
  simp [region]

theorem bytesFrom_eq (hs : stop ≤ buf.length) {n : Nat} (h : pos + n ≤ stop) :
    Checked.bytesFrom buf pos n = .ok ((region buf pos stop).take n) := by
  unfold Checked.bytesFrom region
  rw [if_pos (by omega), List.drop_take, List.take_take, Nat.min_eq_left (by omega)]

theorem cut_region (hs : stop ≤ buf.length) {n : Nat} (h : pos + n ≤ stop) :
    cut n (region buf pos stop) =
      some ((region buf pos stop).take n, region buf (pos + n) stop) := by
  have hl := length_region pos hs
  unfold cut
  rw [if_pos (by omega), drop_region]

theorem cut_region_none (hs : stop ≤ buf.length) (hp : pos ≤ stop) {n : Nat}
    (h : stop < pos + n) : cut n (region buf pos stop) = none := by
  have hl := length_region pos hs
  exact if_neg (by omega)

theorem msReadLe_eq (hs : stop ≤ buf.length) (hp : pos ≤ stop) (n : Nat) :
    Checked.msReadLe n buf pos stop =
      located stop ((cut n (region buf pos stop)).map fun p => (leVal p.1, p.2)) := by
  unfold Checked.msReadLe
  by_cases h : stop < pos + n
  · rw [if_pos h, cut_region_none hs hp h]
    rfl
  · have hl := length_region (pos + n) hs
    rw [if_neg h, bytesFrom_eq hs (by omega), cut_region hs (by omega)]
    simp only [Option.map_some, located, hl, bind, Except.bind, pure, Except.pure]
    rw [show stop - (stop - (pos + n)) = pos + n by omega]

theorem msReadBytes_eq (hs : stop ≤ buf.length) (hp : pos ≤ stop) :
    Checked.msReadBytes buf pos stop 0xffff =
      located stop (takeValue msWireBytes (region buf pos stop)) := by
  have htake : takeValue msWireBytes (region buf pos stop) =
      (cut 2 (region buf pos stop)).bind fun p => cut (leVal p.1) p.2 := rfl
  rw [htake]
  unfold Checked.msReadBytes
  by_cases h : stop < pos + 2
  · rw [if_pos h, cut_region_none hs hp h]
    rfl
  · rw [if_neg h, bytesFrom_eq hs (by omega), cut_region hs (by omega)]
    simp only [Option.bind_some, bind, Except.bind]
    have hlt := leVal_lt ((region buf pos stop).take 2)
    rw [List.length_take, length_region _ hs, Nat.min_eq_left (by omega)] at hlt
    generalize leVal ((region buf pos stop).take 2) = dlen at hlt
    by_cases h2 : stop < pos + 2 + dlen
    · rw [if_pos (.inl h2), cut_region_none hs (by omega) h2]
      rfl
    · have hl := length_region (pos + 2 + dlen) hs
      rw [if_neg (by omega), bytesFrom_eq hs (by omega), cut_region hs (by omega)]
      simp only [located, hl, pure, Except.pure]
      rw [show stop - (stop - (pos + 2 + dlen)) = pos + 2 + dlen by omega]

theorem msSkip_eq (hs : stop ≤ buf.length) (hp : pos ≤ stop) (wire : UInt8) :
    Checked.msSkip buf pos stop wire =
      (located stop (takeValue wire (region buf pos stop))).map Prod.snd := by
  unfold Checked.msSkip takeValue
  split
  · generalize 2 ^ wire.toNat = n
    by_cases h : pos + n ≤ stop
    · have hl := length_region (pos + n) hs
      dsimp only
      rw [if_pos h, cut_region hs h]
      simp only [located, hl, Except.map]
      rw [show stop - (stop - (pos + n)) = pos + n by omega]
    · dsimp only
      rw [if_neg h, cut_region_none hs hp (by omega)]
      rfl
  · split
    · by_cases h : stop < pos + 2
      · rw [if_pos h, cut_region_none hs hp h]
        rfl
      · rw [if_neg h, bytesFrom_eq hs (by omega), cut_region hs (by omega)]
        simp only [Option.bind_some, bind, Except.bind]
        generalize leVal ((region buf pos stop).take 2) = dlen
        by_cases h2 : pos + 2 + dlen ≤ stop
        · have hl := length_region (pos + 2 + dlen) hs
          rw [if_pos h2, cut_region hs h2]
          simp only [located, hl, Except.map, pure, Except.pure]
          rw [show stop - (stop - (pos + 2 + dlen)) = pos + 2 + dlen by omega]
        · rw [if_neg h2, cut_region_none hs (by omega) (by omega)]
          rfl
    · rfl

/-! ## Loops -/

/-- `body` reads one value off the region and takes the step for it. -/
def ReadsValues {σ : Type} (body : σ → UInt8 → UInt8 → Nat → Except Stop (σ × Nat))
    (step : σ → UInt8 → UInt8 → List UInt8 → Option σ) (buf : List UInt8) (stop : Nat) : Prop :=
  ∀ s field wire pos, pos ≤ stop → body s field wire pos =
    located stop ((takeValue wire (region buf pos stop)).bind fun p =>
      (step s field wire p.1).map fun s' => (s', p.2))

/-- What a step makes of an item. -/
def Item.step {σ : Type} (step : σ → UInt8 → UInt8 → List UInt8 → Option σ) (s : σ) (it : Item) :
    Option σ :=
  step s it.field it.wire it.data

theorem encode_ne_nil (it : Item) : it.encode ≠ [] := by simp [Item.encode]

theorem region_cons (hs : stop ≤ buf.length) (h : pos < stop) :
    ∃ tag, buf[pos]? = some tag ∧ region buf pos stop = tag :: region buf (pos + 1) stop := by
  have hpos : pos < (buf.take stop).length := by
    rw [List.length_take, Nat.min_eq_left hs]
    exact h
  refine ⟨(buf.take stop)[pos], ?_, List.drop_eq_getElem_cons hpos⟩
  rw [List.getElem_take, List.getElem?_eq_getElem (by omega)]

/-- Every tag byte is a field number below 32 and a wire type below 8. -/
theorem tag_split (tag : UInt8) :
    tag >>> 3 < 32 ∧ tag &&& 7 < 8 ∧ tag >>> 3 <<< 3 ||| tag &&& 7 = tag := by
  have h : ∀ t : Fin 256, UInt8.ofNat t.val >>> 3 < 32 ∧ UInt8.ofNat t.val &&& 7 < 8 ∧
      UInt8.ofNat t.val >>> 3 <<< 3 ||| UInt8.ofNat t.val &&& 7 = UInt8.ofNat t.val := by
    decide +kernel
  have := h ⟨tag.toNat, tag.toNat_lt⟩
  simpa using this

/-- The first of a list of items is what a reader takes off its encoding. -/
theorem item_head {tag : UInt8} {l : List UInt8} {it : Item} {items : List Item}
    (h : tag :: l = (it :: items).flatMap Item.encode) :
    it.field = tag >>> 3 ∧ it.wire = tag &&& 7 ∧
      takeValue (tag &&& 7) l = some (it.data, items.flatMap Item.encode) := by
  rw [List.flatMap_cons, Item.encode, List.cons_append, List.cons.injEq] at h
  obtain ⟨htag, hl⟩ := h
  obtain ⟨h1, h2⟩ := tag_field it.small it.fits.wire_lt
  rw [← htag] at h1 h2
  refine ⟨h1.symm, h2.symm, ?_⟩
  rw [h2, hl]
  exact takeValue_append it.fits _

/-- A byte string is the encoding of one list of items at most. -/
theorem encode_inj {items items' : List Item}
    (h : items.flatMap Item.encode = items'.flatMap Item.encode) : items = items' := by
  have hcons {it : Item} {items : List Item} :
      ∃ tag l, tag :: l = (it :: items).flatMap Item.encode := ⟨_, _, rfl⟩
  induction items generalizing items' with
  | nil =>
    cases items' with
    | nil => rfl
    | cons it' items' =>
      obtain ⟨tag, l, hl⟩ := @hcons it' items'
      rw [← h] at hl
      cases hl
  | cons it items ih =>
    obtain ⟨tag, l, hl⟩ := @hcons it items
    cases items' with
    | nil =>
      rw [h] at hl
      cases hl
    | cons it' items' =>
      obtain ⟨h1, h2, h3⟩ := item_head hl
      obtain ⟨h1', h2', h3'⟩ := item_head (hl.trans h)
      rw [h3, Option.some_inj, Prod.mk.injEq] at h3'
      have hit : it = it' := by
        cases it
        cases it'
        simp only [Item.mk.injEq]
        exact ⟨h1.trans h1'.symm, h2.trans h2'.symm, h3'.1⟩
      rw [hit, ih h3'.2]

theorem region_rest (hs : stop ≤ buf.length) {a r : List UInt8}
    (h : region buf pos stop = a ++ r) (hp : pos ≤ stop) :
    r = region buf (stop - r.length) stop ∧ pos ≤ stop - r.length ∧ r.length ≤ stop := by
  have hl := congrArg List.length h
  rw [length_region _ hs, List.length_append] at hl
  have hr : r = region buf (pos + a.length) stop := by
    rw [← drop_region, h, List.drop_left]
  have hpos : pos + a.length = stop - r.length := by omega
  exact ⟨by rw [← hpos]; exact hr, by omega, by omega⟩

/-- **A loop of tagged values** touches nothing outside, ends, and succeeds exactly on the encodings
of the lists of items its steps accept. -/
theorem readLoop_items {σ : Type} {body : σ → UInt8 → UInt8 → Nat → Except Stop (σ × Nat)}
    {step : σ → UInt8 → UInt8 → List UInt8 → Option σ} (hbody : ReadsValues body step buf stop)
    (hs : stop ≤ buf.length) {n : Nat} : ∀ {pos : Nat} {s : σ}, pos ≤ stop → stop ≤ pos + n →
      Checked.readLoop body buf stop n s pos ≠ .error .fault ∧
      ∀ s', Checked.readLoop body buf stop n s pos = .ok s' ↔
        ∃ items : List Item, region buf pos stop = items.flatMap Item.encode ∧
          items.foldlM (Item.step step) s = some s' := by
  -- at the end there are no items left
  have hend : ∀ {pos : Nat} {s : σ}, pos = stop →
      (Except.ok s : Except Stop σ) ≠ .error .fault ∧
      ∀ s', (Except.ok s : Except Stop σ) = .ok s' ↔
        ∃ items : List Item, region buf pos stop = items.flatMap Item.encode ∧
          items.foldlM (Item.step step) s = some s' := by
    intro pos s hp
    have hnil : region buf pos stop = [] := by
      rw [← List.length_eq_zero_iff, length_region _ hs]
      omega
    refine ⟨nofun, fun s' => ⟨fun h => ⟨[], hnil, congrArg some (Except.ok.inj h)⟩, ?_⟩⟩
    intro ⟨items, hitems, hfold⟩
    cases items with
    | nil => exact congrArg Except.ok (Option.some.inj hfold)
    | cons it items =>
      rw [hnil, List.flatMap_cons] at hitems
      exact absurd (List.append_eq_nil_iff.1 hitems.symm).1 (encode_ne_nil it)
  induction n with
  | zero =>
    intro pos s hp hn
    rw [Checked.readLoop, if_neg (by omega)]
    exact hend (by omega)
  | succ n ih =>
    intro pos s hp hn
    by_cases hlt : pos < stop
    swap
    · rw [Checked.readLoop, if_neg hlt]
      exact hend (by omega)
    obtain ⟨tag, htag, hreg⟩ := region_cons hs hlt
    have hstep : Checked.readLoop body buf stop (n + 1) s pos =
        (located stop ((takeValue (tag &&& 7) (region buf (pos + 1) stop)).bind fun p =>
          (step s (tag >>> 3) (tag &&& 7) p.1).map fun s' => (s', p.2))).bind fun r =>
            Checked.readLoop body buf stop n r.1 r.2 := by
      rw [Checked.readLoop, if_pos hlt, Checked.byteAt, htag]
      simp only [bind, Except.bind]
      rw [hbody _ _ _ _ hlt]
    rw [hstep, hreg]
    cases hv : takeValue (tag &&& 7) (region buf (pos + 1) stop) with
    | none =>
      refine ⟨by simp [located, Except.bind], fun s' => ⟨by simp [located, Except.bind], ?_⟩⟩
      intro ⟨items, hitems, _⟩
      cases items with
      | nil => cases hitems
      | cons it items =>
        rw [(item_head hitems).2.2] at hv
        cases hv
    | some p =>
      obtain ⟨d, r⟩ := p
      obtain ⟨hl, hfits⟩ := takeValue_sound hv
      obtain ⟨hr, hle, hlen⟩ := region_rest hs hl hlt
      -- an item list starts with this value
      have hhead : ∀ {it : Item} {items : List Item},
          tag :: region buf (pos + 1) stop = (it :: items).flatMap Item.encode →
          it.step step s = step s (tag >>> 3) (tag &&& 7) d ∧ r = items.flatMap Item.encode := by
        intro it items hitems
        obtain ⟨h1, h2, h3⟩ := item_head hitems
        rw [hv, Option.some_inj, Prod.mk.injEq] at h3
        exact ⟨by rw [Item.step, h1, h2, ← h3.1], h3.2⟩
      cases hst : step s (tag >>> 3) (tag &&& 7) d with
      | none =>
        refine ⟨by simp [located, Except.bind, hst],
          fun s' => ⟨by simp [located, Except.bind, hst], ?_⟩⟩
        intro ⟨items, hitems, hfold⟩
        cases items with
        | nil => cases hitems
        | cons it items =>
          rw [List.foldlM_cons, (hhead hitems).1, hst] at hfold
          cases hfold
      | some s1 =>
        simp only [Option.bind_some, hst, Option.map_some, located, Except.bind]
        obtain ⟨hok, hiff⟩ := @ih (stop - r.length) s1 (by omega) (by omega)
        refine ⟨hok, fun s' => (hiff s').trans ?_⟩
        rw [← hr]
        refine ⟨fun ⟨items, hitems, hfold⟩ => ?_, fun ⟨items, hitems, hfold⟩ => ?_⟩
        · obtain ⟨h32, -, hjoin⟩ := tag_split tag
          refine ⟨⟨tag >>> 3, tag &&& 7, d, h32, hfits⟩ :: items, ?_, ?_⟩
          · rw [List.flatMap_cons, ← hitems, Item.encode, List.cons_append, hjoin, hl]
          · rw [List.foldlM_cons, Item.step, hst]
            exact hfold
        · cases items with
          | nil => cases hitems
          | cons it items =>
            obtain ⟨h1, h2⟩ := hhead hitems
            rw [List.foldlM_cons, h1, hst] at hfold
            exact ⟨items, h2, hfold⟩

/-- **A loop over items it knows**: where each item is read as one, the loop reads them all. -/
theorem readLoop_run {σ : Type} {body : σ → UInt8 → UInt8 → Nat → Except Stop (σ × Nat)}
    {step : σ → Item → σ} (hs : stop ≤ buf.length) {items : List Item} : ∀ {n pos : Nat} {s : σ},
    (∀ s, ∀ it ∈ items, ∀ pos ≤ stop, ∀ r, region buf pos stop = valueBytes it.wire it.data ++ r →
      body s it.field it.wire pos = .ok (step s it, stop - r.length)) →
    pos ≤ stop → stop ≤ pos + n → region buf pos stop = items.flatMap Item.encode →
    Checked.readLoop body buf stop n s pos = .ok (items.foldl step s) := by
  induction items with
  | nil =>
    intro n pos s _ hp hn hr
    have hl := length_region pos hs
    rw [hr, List.flatMap_nil, List.length_nil] at hl
    cases n with
    | zero => rw [Checked.readLoop, if_neg (by omega)]; rfl
    | succ n => rw [Checked.readLoop, if_neg (by omega)]; rfl
  | cons it items ih =>
    intro n pos s hbody hp hn hr
    have hl := length_region pos hs
    rw [hr, List.flatMap_cons, List.length_append] at hl
    have hpos := List.length_pos_of_ne_nil (encode_ne_nil it)
    obtain ⟨k, rfl⟩ : ∃ k, n = k + 1 := ⟨n - 1, by omega⟩
    have hlt : pos < stop := by omega
    obtain ⟨tag, htag, hreg⟩ := region_cons hs hlt
    rw [hreg] at hr
    obtain ⟨h1, h2, h3⟩ := item_head hr
    have hrest := (takeValue_sound h3).1
    rw [← h2] at hrest
    obtain ⟨hr', hle, hlen⟩ := region_rest hs hrest (by omega)
    have hstep : Checked.readLoop body buf stop (k + 1) s pos =
        Checked.readLoop body buf stop k (step s it)
          (stop - (items.flatMap Item.encode).length) := by
      rw [Checked.readLoop, if_pos (by omega), Checked.byteAt, htag]
      simp only [bind, Except.bind]
      rw [← h1, ← h2, hbody s it (.head _) _ (by omega) _ hrest]
    rw [hstep]
    exact ih (fun s j hj => hbody s j (.tail _ hj)) (by omega) (by omega) hr'.symm

theorem takeValue_16 (l : List UInt8) : takeValue msWire16 l = cut 2 l := rfl

theorem takeValue_32 (l : List UInt8) : takeValue msWire32 l = cut 4 l := rfl

theorem msReadU16_eq (hs : stop ≤ buf.length) (hp : pos ≤ stop) :
    Checked.msReadU16 buf pos stop = located stop ((takeValue msWire16 (region buf pos stop)).map
      fun p => (UInt16.ofNat (leVal p.1), p.2)) := by
  rw [Checked.msReadU16, msReadLe_eq hs hp, takeValue_16]
  cases cut 2 (region buf pos stop) <;> rfl

theorem msReadU32_eq (hs : stop ≤ buf.length) (hp : pos ≤ stop) :
    Checked.msReadU32 buf pos stop = located stop ((takeValue msWire32 (region buf pos stop)).map
      fun p => (UInt32.ofNat (leVal p.1), p.2)) := by
  rw [Checked.msReadU32, msReadLe_eq hs hp, takeValue_32]
  cases cut 4 (region buf pos stop) <;> rfl

end

/-! ## Folding over items -/

section
variable {σ : Type} {step : σ → UInt8 → UInt8 → List UInt8 → Option σ}

/-- The value of the last item that has one. -/
def lastOf {α : Type} (sel : Item → Option α) (items : List Item) : Option α :=
  (items.filterMap sel).getLast?

theorem lastOf_cons {α : Type} (sel : Item → Option α) (it : Item) (items : List Item) (a : α) :
    (lastOf sel (it :: items)).getD a = (lastOf sel items).getD ((sel it).getD a) := by
  unfold lastOf
  rw [List.filterMap_cons]
  cases sel it with
  | none => rfl
  | some v =>
    rw [List.getLast?_cons]
    rfl

theorem lastOf_map {α β : Type} (f : α → β) (sel : Item → Option α) (items : List Item) :
    lastOf (fun it => (sel it).map f) items = (lastOf sel items).map f := by
  unfold lastOf
  rw [← List.map_filterMap, List.getLast?_map]

theorem foldlM_accepts {ok : Item → Prop} (h : ∀ s it, (∃ s', it.step step s = some s') ↔ ok it)
    (items : List Item) (s : σ) :
    (∃ s', items.foldlM (Item.step step) s = some s') ↔ ∀ it ∈ items, ok it := by
  induction items generalizing s with
  | nil => simp
  | cons it items ih =>
    rw [List.forall_mem_cons, ← h s it]
    cases hs : it.step step s with
    | none => simp [hs]
    | some s1 =>
      rw [List.foldlM_cons, hs, ← ih s1]
      simp

/-- What each step sets from its item, a fold sets from the last item that has it. -/
theorem foldlM_last {α : Type} (get : σ → α) (sel : Item → Option α)
    (h : ∀ s it s', it.step step s = some s' → get s' = (sel it).getD (get s)) {items : List Item}
    {s s' : σ} (hf : items.foldlM (Item.step step) s = some s') :
    get s' = (lastOf sel items).getD (get s) := by
  induction items generalizing s with
  | nil =>
    cases hf
    rfl
  | cons it items ih =>
    rw [List.foldlM_cons] at hf
    obtain ⟨s1, h1, h2⟩ := Option.bind_eq_some_iff.1 hf
    rw [lastOf_cons, ← h s it s1 h1]
    exact ih h2

end

/-! ## The readers without checks -/

/-- A result that fails with `MS_ERR` only. -/
def orErr {α : Type} : Option α → Except Stop α
  | none => .error .err
  | some a => .ok a

/-- The checked computation fails with `MS_ERR` when the other one has no result, and has a related
result when that one has. -/
def Refines {α β : Type} (R : α → β → Prop) (x : Except Stop α) : Option β → Prop
  | none => x = .error .err
  | some b => ∃ a, x = .ok a ∧ R a b

section
variable {α β γ δ : Type} {R : α → β → Prop} {S : γ → δ → Prop} {x : Except Stop α} {y : Option β}

theorem orErr_map (f : α → γ) (y : Option α) : (orErr y).map f = orErr (y.map f) := by
  cases y with
  | none => rfl
  | some a => rfl

theorem refines_orErr (y : Option α) : Refines Eq (orErr y) y := by
  cases y with
  | none => rfl
  | some a => exact ⟨a, rfl, rfl⟩

theorem Refines.bind {f : α → Except Stop γ} {g : β → Option δ} (h : Refines R x y)
    (hf : ∀ a b, R a b → Refines S (f a) (g b)) : Refines S (x >>= f) (y >>= g) := by
  cases y with
  | none =>
    rw [show x = .error .err from h]
    rfl
  | some b =>
    obtain ⟨a, rfl, hab⟩ := h
    exact hf a b hab

theorem Refines.mono {R' : α → β → Prop} (h : Refines R x y) (hR : ∀ a b, R a b → R' a b) :
    Refines R' x y := by
  cases y with
  | none => exact h
  | some b =>
    obtain ⟨a, ha, hab⟩ := h
    exact ⟨a, ha, hR a b hab⟩

theorem Refines.ne_fault (h : Refines R x y) : x ≠ .error .fault := by
  cases y with
  | none =>
    rw [show x = .error .err from h]
    nofun
  | some b =>
    obtain ⟨a, rfl, -⟩ := h
    nofun

theorem Refines.ok {a : α} (h : Refines R x y) (ha : x = .ok a) : ∃ b, y = some b ∧ R a b := by
  cases y with
  | none =>
    rw [ha] at h
    cases h
  | some b =>
    obtain ⟨a', ha', hab⟩ := h
    rw [ha] at ha'
    cases ha'
    exact ⟨b, rfl, hab⟩

end

section
variable {buf : List UInt8} {stop : Nat}

theorem bytesFrom_two {pos : Nat} (h : pos + 2 ≤ buf.length) :
    Checked.bytesFrom buf pos 2 = .ok [byte buf pos, byte buf (pos + 1)] := by
  have h0 : pos < buf.length := by omega
  have h1 : pos + 1 < buf.length := by omega
  rw [Checked.bytesFrom, if_pos h, List.drop_eq_getElem_cons h0, List.drop_eq_getElem_cons h1]
  simp only [byte, List.getD_eq_getElem?_getD, List.getElem?_eq_getElem h0,
    List.getElem?_eq_getElem h1, Option.getD_some]
  rfl

theorem leVal_two (lo hi : UInt8) : leVal [lo, hi] = rdLe16 lo hi := by
  simp only [leVal, rdLe16]
  omega

theorem msReadBytes_checked (hs : stop ≤ buf.length) (pos dmax : Nat) :
    Checked.msReadBytes buf pos stop dmax = orErr (msReadBytes buf pos stop dmax) := by
  unfold Checked.msReadBytes msReadBytes
  by_cases h : pos + 2 > stop
  · rw [if_pos h, if_pos h]
    rfl
  · rw [if_neg h, if_neg h, bytesFrom_two (by omega)]
    simp only [bind, Except.bind, leVal_two]
    split
    · rfl
    · rw [Checked.bytesFrom, if_pos (by omega)]
      rfl

theorem msSkip_checked (hs : stop ≤ buf.length) (pos : Nat) (wire : UInt8) :
    Checked.msSkip buf pos stop wire = orErr (msSkip buf pos stop wire) := by
  unfold Checked.msSkip msSkip
  split
  · dsimp only
    split <;> rfl
  · split
    · by_cases h : pos + 2 > stop
      · rw [if_pos h, if_pos h]
        rfl
      · rw [if_neg h, if_neg h, bytesFrom_two (by omega)]
        simp only [bind, Except.bind, leVal_two]
        split <;> rfl
    · rfl

theorem msReadBytes_pos {pos dmax : Nat} {r : List UInt8 × Nat}
    (h : msReadBytes buf pos stop dmax = some r) : pos ≤ r.2 := by
  unfold msReadBytes at h
  split at h
  · cases h
  · dsimp only at h
    split at h
    · cases h
    · cases h
      dsimp only
      omega

theorem msSkip_pos {pos pos' : Nat} {wire : UInt8} (h : msSkip buf pos stop wire = some pos') :
    pos ≤ pos' := by
  unfold msSkip at h
  split at h
  · dsimp only at h
    split at h
    · cases h
      exact Nat.le_add_right ..
    · cases h
  · split at h
    · split at h
      · cases h
      · dsimp only at h
        split at h
        · cases h
          omega
        · cases h
    · cases h

/-- **A loop of checked readers** does what the loop without checks does. -/
theorem readLoop_checked {σ : Type} {cbody : σ → UInt8 → UInt8 → Nat → Except Stop (σ × Nat)}
    {body : σ → UInt8 → UInt8 → Nat → Option (σ × Nat)} (hs : stop ≤ buf.length)
    (hbody : ∀ s field wire pos, cbody s field wire pos = orErr (body s field wire pos))
    (hpos : ∀ s field wire pos r, body s field wire pos = some r → pos ≤ r.2) :
    ∀ (n : Nat) (s : σ) (pos : Nat), stop ≤ pos + n →
      Checked.readLoop cbody buf stop n s pos = orErr (readLoop body buf stop n s pos)
  | 0, s, pos, h => by
    rw [Checked.readLoop, readLoop, if_neg (by omega), if_neg (by omega)]
    rfl
  | n + 1, s, pos, h => by
    rw [Checked.readLoop, readLoop]
    by_cases hp : pos < stop
    · have htag : Checked.byteAt buf pos = .ok (byte buf pos) := by
        simp [Checked.byteAt, byte, List.getElem?_eq_getElem (show pos < buf.length by omega)]
      rw [if_pos hp, if_pos hp, htag]
      simp only [bind, Except.bind, hbody]
      cases hb : body s (byte buf pos >>> 3) (byte buf pos &&& 7) (pos + 1) with
      | none => rfl
      | some r =>
        have := hpos _ _ _ _ _ hb
        exact readLoop_checked hs hbody hpos n r.1 r.2 (by omega)
    · rw [if_neg hp, if_neg hp]
      rfl

end

end Netchan.Idl
