import Netchan.Idl.RoundTrip

/-!
# Boundaries of values

Where a generated decoder and `ms_skip` read the tags of one body. A decoder sizes a value by the
schema if it knows the field number and by the tag if not; `ms_skip` sizes all by the tag.

* `piece w`: a tag and a value of the wire type that `w` gives for it. `traced_loop`: a loop whose
  readers size values by `w` succeeds exactly on the bodies of such pieces, and reads its tags at
  their `starts`.
* `starts_eq_iff`: two ways to size the values of one body have the same starts exactly if each
  value has the same size both ways.
* `decode_boundaries_iff`: when a decoder fails or stays on the boundaries of the tags.
-/

namespace Netchan.Idl

open Lib

/-! ## Bodies sized by a rule -/

section
variable (w : UInt8 → UInt8 → UInt8)

/-- The wire type that the rule gives for a tag byte. -/
def ruleOf (tag : UInt8) : UInt8 := w (tag >>> 3) (tag &&& 7)

/-- A tag byte and its value, sized by the rule. -/
def piece (p : UInt8 × List UInt8) : List UInt8 := p.1 :: valueBytes (ruleOf w p.1) p.2

/-- The bytes are these tags and values. -/
def Splits (l : List UInt8) (ps : List (UInt8 × List UInt8)) : Prop :=
  l = ps.flatMap (piece w) ∧ ∀ p ∈ ps, Fits (ruleOf w p.1) p.2

/-- Where the tags are, if the first is at `pos`. -/
def starts : Nat → List (UInt8 × List UInt8) → List Nat
  | _, [] => []
  | pos, p :: ps => pos :: starts (pos + (piece w p).length) ps

variable {w}

theorem Splits.nil : Splits w [] [] := ⟨rfl, fun _ h => absurd h List.not_mem_nil⟩

theorem Splits.cons {tag : UInt8} {l d r : List UInt8} {ps : List (UInt8 × List UInt8)}
    (hv : takeValue (ruleOf w tag) l = some (d, r)) (h : Splits w r ps) :
    Splits w (tag :: l) ((tag, d) :: ps) := by
  obtain ⟨hl, hfits⟩ := takeValue_sound hv
  refine ⟨?_, ?_⟩
  · rw [List.flatMap_cons, piece, ← h.1, hl]
    rfl
  · intro p hp
    rcases List.mem_cons.1 hp with rfl | hp
    · exact hfits
    · exact h.2 p hp

theorem Splits.head {tag : UInt8} {l : List UInt8} {ps : List (UInt8 × List UInt8)}
    (h : Splits w (tag :: l) ps) :
    ∃ d r qs, ps = (tag, d) :: qs ∧ takeValue (ruleOf w tag) l = some (d, r) ∧ Splits w r qs := by
  cases ps with
  | nil => cases h.1
  | cons p qs =>
    obtain ⟨hl, hfits⟩ := h
    rw [List.flatMap_cons, piece, List.cons_append, List.cons.injEq] at hl
    obtain ⟨rfl, hl⟩ := hl
    refine ⟨p.2, qs.flatMap (piece w), qs, rfl, ?_, rfl, fun q hq => hfits q (.tail _ hq)⟩
    rw [hl]
    exact takeValue_append (hfits p (.head _)) _

theorem Splits.eq_nil {ps : List (UInt8 × List UInt8)} (h : Splits w [] ps) : ps = [] := by
  cases ps with
  | nil => rfl
  | cons p ps => cases h.1

end

/-! ## Two rules -/

/-- The value of a piece is one value under another rule as well. -/
def SameSize (w w' : UInt8 → UInt8 → UInt8) (p : UInt8 × List UInt8) : Prop :=
  ∃ d, takeValue (ruleOf w' p.1) (valueBytes (ruleOf w p.1) p.2) = some (d, [])

/-- **One body, two rules.** The tags are at the same places exactly if each value has one size. -/
theorem starts_eq_iff {w w' : UInt8 → UInt8 → UInt8} {ps : List (UInt8 × List UInt8)} :
    ∀ {l : List UInt8} {qs : List (UInt8 × List UInt8)} (pos : Nat), Splits w l ps →
      Splits w' l qs → (starts w' pos qs = starts w pos ps ↔ ∀ p ∈ ps, SameSize w w' p) := by
  induction ps with
  | nil =>
    intro l qs pos hp hq
    rw [hp.1] at hq
    rw [hq.eq_nil]
    simp [starts]
  | cons p ps ih =>
    intro l qs pos hp hq
    obtain ⟨tag, data⟩ := p
    have hl : l = tag :: (valueBytes (ruleOf w tag) data ++ ps.flatMap (piece w)) := hp.1
    have hrest : Splits w (ps.flatMap (piece w)) ps := ⟨rfl, fun p h => hp.2 p (.tail _ h)⟩
    rw [hl] at hq
    obtain ⟨d, r, qs, rfl, hv, hr⟩ := hq.head
    obtain ⟨hsplit, hfits⟩ := takeValue_sound hv
    have hsame : (piece w' (tag, d)).length = (piece w (tag, data)).length ↔
        SameSize w w' (tag, data) := by
      constructor
      · intro hlen
        have hlen' : (valueBytes (ruleOf w' tag) d).length =
            (valueBytes (ruleOf w tag) data).length := Nat.succ.inj hlen
        have heq := (List.append_inj hsplit hlen'.symm).1
        refine ⟨d, ?_⟩
        rw [heq]
        have h1 := takeValue_append hfits []
        rwa [List.append_nil] at h1
      · intro ⟨d', hd'⟩
        obtain ⟨hbytes, hfits'⟩ := takeValue_sound hd'
        rw [List.append_nil] at hbytes
        dsimp only at hbytes
        have h1 := takeValue_append hfits' (ps.flatMap (piece w))
        rw [← hbytes, hv] at h1
        have hd : d = d' := (Prod.mk.inj (Option.some.inj h1)).1
        rw [piece, piece, List.length_cons, List.length_cons, hd, ← hbytes]
    rw [List.forall_mem_cons, ← hsame, starts, starts, List.cons.injEq]
    constructor
    · intro ⟨_, htail⟩
      have hlen : (piece w' (tag, d)).length = (piece w (tag, data)).length := by
        have htotal := congrArg List.length hsplit
        cases ps with
        | nil =>
          cases qs with
          | cons q qs => cases htail
          | nil =>
            have hr' := hr.1
            rw [List.flatMap_nil] at hr'
            rw [hr', List.flatMap_nil, List.append_nil, List.append_nil] at htotal
            exact congrArg (· + 1) htotal.symm
        | cons p' ps =>
          cases qs with
          | nil => cases htail
          | cons q qs =>
            rw [starts, starts, List.cons.injEq] at htail
            exact Nat.add_left_cancel htail.1
      refine ⟨hlen, ?_⟩
      have hlen' : (valueBytes (ruleOf w' tag) d).length =
          (valueBytes (ruleOf w tag) data).length := Nat.succ.inj hlen
      rw [← (List.append_inj hsplit hlen'.symm).2] at hr
      rw [hlen] at htail
      exact (ih _ hrest hr).1 htail
    · intro ⟨hlen, hall⟩
      have hlen' : (valueBytes (ruleOf w' tag) d).length =
          (valueBytes (ruleOf w tag) data).length := Nat.succ.inj hlen
      rw [← (List.append_inj hsplit hlen'.symm).2] at hr
      rw [hlen]
      exact ⟨rfl, (ih _ hrest hr).2 hall⟩

/-! ## The tags a loop reads -/

/-- A loop body that keeps the positions of the tags it is called for. -/
def traced {σ : Type} (body : σ → UInt8 → UInt8 → Nat → Except Stop (σ × Nat))
    (s : σ × List Nat) (field wire : UInt8) (pos : Nat) : Except Stop ((σ × List Nat) × Nat) := do
  let (s', pos') ← body s.1 field wire pos
  return ((s', s.2 ++ [pos - 1]), pos')

/-- A loop over the values of a message: the length in front of them is checked as `X_decode` does,
and the positions of the tags read are the result. -/
def tagsOf {σ : Type} (body : List UInt8 → Nat → σ → UInt8 → UInt8 → Nat → Except Stop (σ × Nat))
    (s : σ) (buf : List UInt8) : Except Stop (List Nat) :=
  if buf.length < 2 then .error .err
  else do
    let l ← Checked.bytesFrom buf 0 2
    let stop := leVal l + 2
    if stop > buf.length then .error .err
    else
      let r ← Checked.readLoop (traced (body buf stop)) buf stop stop (s, []) 2
      return r.2

/-- The positions where `X_decode` reads a tag. -/
def Message.tagsRead (s : Message) (buf : List UInt8) : Except Stop (List Nat) :=
  tagsOf s.decodeBody s.zeroed buf

/-- The positions where `ms_skip` places the tags. -/
def skipTags (buf : List UInt8) : Except Stop (List Nat) :=
  tagsOf (fun buf stop (_ : Unit) _ wire pos => do
    let pos ← Checked.msSkip buf pos stop wire
    return ((), pos)) () buf

section
variable {σ : Type} {w : UInt8 → UInt8 → UInt8}
  {body : σ → UInt8 → UInt8 → Nat → Except Stop (σ × Nat)} {buf : List UInt8} {stop : Nat}

/-- The body sizes each value by the rule. -/
def SizedBy (w : UInt8 → UInt8 → UInt8)
    (body : σ → UInt8 → UInt8 → Nat → Except Stop (σ × Nat)) (buf : List UInt8) (stop : Nat) :
    Prop :=
  ∃ set : σ → UInt8 → List UInt8 → σ, ∀ s field wire pos, pos ≤ stop → body s field wire pos =
    located stop ((takeValue (w field wire) (region buf pos stop)).map fun p =>
      (set s field p.1, p.2))

/-- The positions do not change what a loop reads. -/
theorem traced_fst (n : Nat) (s : σ) (seen : List Nat) (pos : Nat) :
    (Checked.readLoop (traced body) buf stop n (s, seen) pos).map Prod.fst =
      Checked.readLoop body buf stop n s pos := by
  induction n generalizing s seen pos with
  | zero =>
    unfold Checked.readLoop
    split <;> rfl
  | succ n ih =>
    unfold Checked.readLoop
    split
    · simp only [bind, Except.bind]
      cases Checked.byteAt buf pos with
      | error e => rfl
      | ok tag =>
        dsimp only [traced]
        cases hb : body s (tag >>> 3) (tag &&& 7) (pos + 1) with
        | error e => rfl
        | ok r => exact ih r.1 _ r.2
    · rfl

/-- **The tags a loop reads.** A loop that sizes values by the rule ends with `MS_ERR` or with the
starts of the pieces of the region, and with the latter if the region is made of pieces. -/
theorem traced_loop (hbody : SizedBy w body buf stop) (hs : stop ≤ buf.length) (n : Nat) :
    ∀ (pos : Nat) (s : σ) (seen : List Nat), pos ≤ stop → stop ≤ pos + n →
      (∃ s' ps, Splits w (region buf pos stop) ps ∧
        Checked.readLoop (traced body) buf stop n (s, seen) pos =
          .ok (s', seen ++ starts w pos ps)) ∨
      Checked.readLoop (traced body) buf stop n (s, seen) pos = .error .err ∧
        ∀ ps, ¬Splits w (region buf pos stop) ps := by
  have hend : ∀ {pos : Nat} {s : σ} {seen : List Nat}, pos = stop →
      ∃ s' ps, Splits w (region buf pos stop) ps ∧
        (Except.ok (s, seen) : Except Stop (σ × List Nat)) = .ok (s', seen ++ starts w pos ps) := by
    intro pos s seen hp
    have hnil : region buf pos stop = [] := by
      rw [← List.length_eq_zero_iff, length_region _ hs]
      omega
    exact ⟨s, [], hnil ▸ Splits.nil, by rw [starts, List.append_nil]⟩
  obtain ⟨set, hset⟩ := hbody
  induction n with
  | zero =>
    intro pos s seen hp hn
    rw [Checked.readLoop, if_neg (by omega)]
    exact .inl (hend (by omega))
  | succ n ih =>
    intro pos s seen hp hn
    by_cases hlt : pos < stop
    swap
    · rw [Checked.readLoop, if_neg hlt]
      exact .inl (hend (by omega))
    obtain ⟨tag, htag, hreg⟩ := region_cons hs hlt
    have hstep : Checked.readLoop (traced body) buf stop (n + 1) (s, seen) pos =
        (located stop ((takeValue (ruleOf w tag) (region buf (pos + 1) stop)).map fun p =>
          (set s (tag >>> 3) p.1, p.2))).bind fun r =>
            Checked.readLoop (traced body) buf stop n (r.1, seen ++ [pos]) r.2 := by
      rw [Checked.readLoop, if_pos hlt, Checked.byteAt, htag]
      simp only [bind, Except.bind, traced]
      rw [hset _ _ _ _ hlt, ruleOf]
      cases located stop ((takeValue (w (tag >>> 3) (tag &&& 7)) (region buf (pos + 1) stop)).map
        fun p => (set s (tag >>> 3) p.1, p.2)) <;> rfl
    rw [hstep, hreg]
    cases hv : takeValue (ruleOf w tag) (region buf (pos + 1) stop) with
    | none =>
      refine .inr ⟨rfl, fun ps hps => ?_⟩
      obtain ⟨d, r, qs, -, hv', -⟩ := hps.head
      rw [hv] at hv'
      cases hv'
    | some p =>
      obtain ⟨d, r⟩ := p
      obtain ⟨hl, hfits⟩ := takeValue_sound hv
      obtain ⟨hr, hle, hlen⟩ := region_rest hs hl hlt
      have hnext : stop - r.length = pos + (piece w (tag, d)).length := by
        have h1 := congrArg List.length hl
        rw [length_region _ hs, List.length_append] at h1
        have h2 : (piece w (tag, d)).length = (valueBytes (ruleOf w tag) d).length + 1 := rfl
        omega
      simp only [Option.map_some, located, Except.bind]
      rcases ih (stop - r.length) (set s (tag >>> 3) d) (seen ++ [pos]) (by omega) (by omega) with
        ⟨s', ps, hps, hrun⟩ | ⟨hrun, hno⟩
      · refine .inl ⟨s', (tag, d) :: ps, ?_, ?_⟩
        · rw [← hr] at hps
          exact Splits.cons hv hps
        · rw [hrun, starts, hnext, List.append_assoc]
          rfl
      · refine .inr ⟨hrun, fun ps hps => ?_⟩
        obtain ⟨d', r', qs, -, hv', hqs⟩ := hps.head
        rw [hv] at hv'
        cases hv'
        rw [← hr] at hno
        exact hno qs hqs

end

/-! ## The decoder and the tags -/

/-- What sizes a value for `ms_skip`: the tag. -/
def byTag (_ wire : UInt8) : UInt8 := wire

/-- What sizes a value for the decoder: the schema, if the field number is known there. -/
def Message.bySchema (s : Message) (field wire : UInt8) : UInt8 :=
  ((s.fields.find? fun f => f.tag = field).map fun f => f.ty.wire).getD wire

/-- An item as a piece. -/
def Item.piece (it : Item) : UInt8 × List UInt8 := (it.field <<< 3 ||| it.wire, it.data)

theorem ruleOf_piece (w : UInt8 → UInt8 → UInt8) (it : Item) :
    ruleOf w it.piece.1 = w it.field it.wire := by
  obtain ⟨h1, h2⟩ := tag_field it.small it.fits.wire_lt
  rw [ruleOf, Item.piece, h1, h2]

/-- A body of items is split by its tags. -/
theorem splits_items (items : List Item) :
    Splits byTag (items.flatMap Item.encode) (items.map Item.piece) := by
  refine ⟨?_, fun p hp => ?_⟩
  · rw [List.flatMap_map]
    refine congrArg (items.flatMap ·) (funext fun it => ?_)
    rw [piece, ruleOf_piece]
    rfl
  · obtain ⟨it, -, rfl⟩ := List.mem_map.1 hp
    rw [ruleOf_piece]
    exact it.fits

theorem skip_sizedBy {buf : List UInt8} {stop : Nat} (hs : stop ≤ buf.length) :
    SizedBy byTag (fun (_ : Unit) _ wire pos => do
      let pos ← Checked.msSkip buf pos stop wire
      return ((), pos)) buf stop := by
  refine ⟨fun _ _ _ => (), fun s field wire pos hp => ?_⟩
  dsimp only [byTag]
  rw [msSkip_eq hs hp]
  cases takeValue wire (region buf pos stop) <;> rfl

theorem decodeBody_sizedBy (s : Message) {buf : List UInt8} {stop : Nat} (hs : stop ≤ buf.length) :
    SizedBy s.bySchema (s.decodeBody buf stop) buf stop := by
  refine ⟨fun m field d => ((s.fields.find? fun f => f.tag = field).map fun f =>
    Function.update m field (f.ty.val d)).getD m, fun m field wire pos hp => ?_⟩
  unfold Message.decodeBody Message.bySchema
  cases hf : s.fields.find? fun f => f.tag = field with
  | none =>
    simp only [hf, Option.map_none, Option.getD_none]
    rw [msSkip_eq hs hp]
    cases takeValue wire (region buf pos stop) <;> rfl
  | some f =>
    simp only [hf, Option.map_some, Option.getD_some]
    rw [readVal_eq hs hp]
    cases takeValue f.ty.wire (region buf pos stop) <;> rfl

section
variable {body : List UInt8} (hlen : body.length < 65536) (rest : List UInt8)
include hlen

theorem message_region :
    Checked.bytesFrom (leBytes 2 body.length ++ body ++ rest) 0 2 = .ok (leBytes 2 body.length) ∧
      leVal (leBytes 2 body.length) + 2 = 2 + body.length ∧
      (leBytes 2 body.length ++ body ++ rest).length = 2 + body.length + rest.length ∧
      region (leBytes 2 body.length ++ body ++ rest) 2 (2 + body.length) = body := by
  have hl : (leBytes 2 body.length ++ body ++ rest).length = 2 + body.length + rest.length := by
    simp [Nat.add_assoc]
  refine ⟨?_, ?_, hl, ?_⟩
  · rw [Checked.bytesFrom, if_pos (by omega), List.drop_zero, List.append_assoc,
      List.take_left' (length_leBytes ..)]
  · rw [leVal_leBytes, Nat.mod_eq_of_lt (by omega)]
    omega
  · rw [region, List.take_left' (by simp), List.drop_left' (length_leBytes ..)]

/-- The tags read in a message are the starts of the pieces of its body. -/
theorem tagsOf_message {σ : Type} {w : UInt8 → UInt8 → UInt8}
    {loop : List UInt8 → Nat → σ → UInt8 → UInt8 → Nat → Except Stop (σ × Nat)} (s : σ)
    (hloop : ∀ buf stop, stop ≤ buf.length → SizedBy w (loop buf stop) buf stop) :
    (∃ ps, Splits w body ps ∧
      tagsOf loop s (leBytes 2 body.length ++ body ++ rest) = .ok (starts w 2 ps)) ∨
    tagsOf loop s (leBytes 2 body.length ++ body ++ rest) = .error .err ∧
      ∀ ps, ¬Splits w body ps := by
  obtain ⟨hpre, hval, hl, hregion⟩ := message_region hlen rest
  generalize leBytes 2 body.length ++ body ++ rest = buf at hpre hl hregion ⊢
  unfold tagsOf
  rw [if_neg (by omega), hpre]
  simp only [bind, Except.bind, hval]
  rw [if_neg (by omega)]
  have hrun := traced_loop (hloop buf (2 + body.length) (by omega)) (by omega) (2 + body.length)
    2 s [] (by omega) (by omega)
  rw [hregion] at hrun
  rcases hrun with ⟨s', ps, hps, hrun⟩ | ⟨hrun, hno⟩
  · refine .inl ⟨ps, hps, ?_⟩
    rw [hrun]
    rfl
  · refine .inr ⟨?_, hno⟩
    rw [hrun]

/-- `X_decode` fails on a message exactly when it does not come to the end of the tags. -/
theorem decode_err_iff (s : Message) :
    s.decode (leBytes 2 body.length ++ body ++ rest) = .error .err ↔
      s.tagsRead (leBytes 2 body.length ++ body ++ rest) = .error .err := by
  obtain ⟨hpre, hval, hl, -⟩ := message_region hlen rest
  generalize leBytes 2 body.length ++ body ++ rest = buf at hpre hl ⊢
  unfold Message.decode Message.tagsRead tagsOf
  rw [if_neg (by omega), if_neg (by omega), hpre]
  simp only [bind, Except.bind, hval]
  rw [if_neg (by omega), if_neg (by omega),
    ← traced_fst (2 + body.length) s.zeroed [] 2]
  cases Checked.readLoop (traced (s.decodeBody buf (2 + body.length))) buf (2 + body.length)
    (2 + body.length) (s.zeroed, []) 2 with
  | error e => simp [Except.map]
  | ok r => simp [Except.map, pure, Except.pure]

end

/-- Every item is one value for the decoder too: a value of the schema's type if the field number is
known. -/
def Message.Sizes (s : Message) (items : List Item) : Prop :=
  ∀ it ∈ items, ∃ d,
    takeValue (s.bySchema it.field it.wire) (valueBytes it.wire it.data) = some (d, [])

/-- **Boundaries.** On every body of well-formed tagged values a decoder fails, or reads its tags
where `ms_skip` places them, if and only if each value has the size that the schema gives its field
number, or the body is not made of values that have these sizes. -/
theorem decode_boundaries_iff (s : Schema) (items : List Item) (rest : List UInt8)
    (hlen : (items.flatMap Item.encode).length < 65536) :
    let body := items.flatMap Item.encode
    let buf := leBytes 2 body.length ++ body ++ rest
    (s.decode buf = .error .err ∨ s.tagsRead buf = skipTags buf) ↔
      s.Sizes items ∨ ∀ ps, ¬Splits s.bySchema body ps := by
  intro body buf
  have hitems := splits_items items
  have hskip : skipTags buf = .ok (starts byTag 2 (items.map Item.piece)) := by
    rcases tagsOf_message hlen rest () (fun buf stop hs => skip_sizedBy hs) with
      ⟨ps, hps, hrun⟩ | ⟨-, hno⟩
    · refine hrun.trans (congrArg Except.ok ?_)
      refine (starts_eq_iff 2 hitems hps).2 fun p hp => ?_
      obtain ⟨it, -, rfl⟩ := List.mem_map.1 hp
      have h1 := takeValue_append it.fits []
      rw [List.append_nil] at h1
      exact ⟨it.data, by rw [ruleOf_piece]; exact h1⟩
    · exact absurd hitems (hno _)
  have hsizes : s.Sizes items ↔
      ∀ p ∈ items.map Item.piece, SameSize byTag s.bySchema p := by
    rw [List.forall_mem_map]
    refine forall₂_congr fun it _ => ?_
    rw [SameSize, ruleOf_piece, ruleOf_piece]
    rfl
  rw [hskip, decode_err_iff hlen rest, hsizes]
  rcases tagsOf_message hlen rest s.zeroed
    (fun buf stop hs => decodeBody_sizedBy s.toMessage hs) with ⟨ps, hps, hrun⟩ | ⟨hrun, hno⟩
  · have hread : s.tagsRead buf = .ok (starts s.bySchema 2 ps) := hrun
    have hno : ¬∀ ps, ¬Splits s.bySchema body ps := fun h => h ps hps
    rw [hread, or_iff_left hno, ← starts_eq_iff 2 hitems hps, Except.ok.injEq]
    simp
  · exact ⟨fun _ => .inr hno, fun _ => .inl hrun⟩

/-- A message with one `uint8`. -/
def byteSchema : Schema := ⟨⟨[⟨.uint8, 1⟩], none⟩, ⟨by decide, by decide, nofun, nofun⟩⟩

/-- A value of the field number 1, and a value of one that the schema does not know. -/
def byteItems (wire : UInt8) (data : List UInt8) (hfits : Fits wire data) : List Item :=
  [⟨1, wire, data, by decide, hfits⟩, ⟨9, msWire16, [8, 5], by decide, .inl (by decide)⟩]

theorem decode_boundaries_byte :
    byteSchema.tagsRead [5, 0, 8, 7, 73, 8, 5] = skipTags [5, 0, 8, 7, 73, 8, 5] := by
  have h := (decode_boundaries_iff byteSchema (byteItems msWire8 [7] (.inl (by decide))) []
    (by decide)).2 (.inl fun it hit => by
      rcases List.mem_cons.1 hit with rfl | hit
      · exact ⟨[7], by decide⟩
      · rw [List.mem_singleton.1 hit]
        exact ⟨[8, 5], by decide⟩)
  refine h.resolve_left fun herr => ?_
  have hread := (decode_err_iff (by decide) [] byteSchema.toMessage).1 herr
  revert hread
  decide

/-- A 16-bit value for the field: its second byte is read as a tag. -/
theorem wire_ignored :
    let buf : List UInt8 := [6, 0, 9, 7, 8, 73, 8, 5]
    buf = leBytes 2 6 ++ (byteItems msWire16 [7, 8] (.inl (by decide))).flatMap Item.encode ∧
      byteSchema.tagsRead buf = .ok [2, 4, 6] ∧ skipTags buf = .ok [2, 5] ∧
      ¬(byteSchema.decode buf = .error .err ∨ byteSchema.tagsRead buf = skipTags buf) := by
  refine ⟨by decide, by decide, by decide, fun h => ?_⟩
  rcases h with h | h
  · have hbuf : ([6, 0, 9, 7, 8, 73, 8, 5] : List UInt8) =
        leBytes 2 [9, 7, 8, 73, 8, (5 : UInt8)].length ++ [9, 7, 8, 73, 8, 5] ++ [] := by decide
    rw [hbuf] at h
    have hread := (decode_err_iff (by decide) [] byteSchema.toMessage).1 h
    revert hread
    decide
  · revert h
    decide

end Netchan.Idl
