import Netchan.Idl.Generator
import Netchan.Lib.Related

/-!
# What an `.idl` text declares

`Declared` is what the lines of a text say: enums, dispatches, and messages that are sequences of
plain fields and `case` blocks. `tables_agree`: the tables of the generator hold all of it but for
one thing. Of a message they keep the name, the plain fields, the list of all fields, and as `case`
block only the last one (`Keeps`).
-/

namespace Netchan.Idl.Gen

open Lib Lib.Awk

variable {N : Type} (A : Numbers N)

/-! ## Declarations -/

/-- A `case` block: the discriminant, and the variants with the newest first. -/
structure Block (N : Type) where
  disc : FieldRow N
  variants : List (VariantRow N) := []
  deriving DecidableEq

/-- A part of a message. -/
inductive Part (N : Type)
  | plain (f : FieldRow N)
  | block (b : Block N)
  deriving DecidableEq

/-- A message, the newest part first. -/
structure MessageDecl (N : Type) where
  name : Text
  parts : List (Part N) := []
  deriving DecidableEq

/-- What a text declares, the newest declaration first. -/
structure Declared (N : Type) where
  enums : List (EnumRow N) := []
  messages : List (MessageDecl N) := []
  dispatches : List (DispatchRow N) := []

def Block.fields (b : Block N) : List (FieldRow N) :=
  b.disc :: b.variants.reverse.flatMap VariantRow.fields

def Part.fields : Part N → List (FieldRow N)
  | .plain f => [f]
  | .block b => b.fields

def Part.plain? : Part N → Option (FieldRow N)
  | .plain f => some f
  | .block _ => none

def Part.block? : Part N → Option (Block N)
  | .plain _ => none
  | .block b => some b

/-- All fields, in the order of their lines. -/
def MessageDecl.fields (m : MessageDecl N) : List (FieldRow N) := m.parts.reverse.flatMap Part.fields

/-- The plain fields. -/
def MessageDecl.plain (m : MessageDecl N) : List (FieldRow N) :=
  m.parts.reverse.filterMap Part.plain?

/-- The `case` blocks, the newest first. -/
def MessageDecl.blocks (m : MessageDecl N) : List (Block N) := m.parts.filterMap Part.block?

/-! ## What a line adds -/

def MessageDecl.addPart (m : MessageDecl N) (p : Part N) : MessageDecl N :=
  { m with parts := p :: m.parts }

def Part.mapBlock (f : Block N → Block N) : Part N → Part N
  | .plain g => .plain g
  | .block b => .block (f b)

/-- A change of the `case` block that is being declared. -/
def MessageDecl.mapBlock (m : MessageDecl N) (f : Block N → Block N) : MessageDecl N :=
  { m with parts := m.parts.modifyHead (·.mapBlock f) }

def Block.addVariant (b : Block N) (v : VariantRow N) : Block N :=
  { b with variants := v :: b.variants }

def Block.addField (b : Block N) (f : FieldRow N) : Block N :=
  { b with variants := b.variants.modifyHead (·.addField f) }

/-- What is declared when one more line is read. -/
def Declared.add (d : Declared N) : Line N → Declared N
  | .ignored | .blockEnd | .caseEnd => d
  | .enumStart en => { d with enums := { en } :: d.enums }
  | .enumEntry name val => { d with enums := d.enums.modifyHead (·.addEntry name val) }
  | .messageStart name => { d with messages := { name } :: d.messages }
  | .caseStart disc =>
    { d with messages := d.messages.modifyHead (·.addPart (.block { disc })) }
  | .field f => { d with messages := d.messages.modifyHead (·.addPart (.plain f)) }
  | .label label value =>
    { d with
      messages := d.messages.modifyHead
        (·.mapBlock (·.addVariant { label, value := value.getD (A.ofInt 0) })) }
  | .varField f => { d with messages := d.messages.modifyHead (·.mapBlock (·.addField f)) }
  | .dispatchStart dn => { d with dispatches := { dn } :: d.dispatches }
  | .dispatchLine l => { d with dispatches := d.dispatches.modifyHead (·.addLine l) }

/-- What an `.idl` text declares. -/
def declared (text : Text) : Declared N := (idlLines A text).foldl (·.add A) {}

def Declared.enumNames (d : Declared N) : List Text := d.enums.reverse.map EnumRow.en

/-! ## One message -/

/-- What the tables keep of a message. -/
structure Keeps (r : MessageRow N) (m : MessageDecl N) : Prop where
  name : r.mn = m.name
  plain : r.rf = m.plain
  all : r.af = m.fields
  disc : r.md = m.blocks.head?.map Block.disc
  variants : r.variants = (m.blocks.head?.map Block.variants).getD []

variable {A} {r : MessageRow N} {m : MessageDecl N}

theorem fields_addPart (p : Part N) : (m.addPart p).fields = m.fields ++ p.fields := by
  simp [MessageDecl.fields, MessageDecl.addPart]

theorem plain_addPart (p : Part N) : (m.addPart p).plain = m.plain ++ p.plain?.toList := by
  cases p <;> simp [MessageDecl.plain, MessageDecl.addPart, Part.plain?]

theorem Keeps.addField (h : Keeps r m) (f : FieldRow N) :
    Keeps (r.addField f) (m.addPart (.plain f)) where
  name := h.name
  plain := by rw [plain_addPart, ← h.plain]; rfl
  all := by rw [fields_addPart, ← h.all]; rfl
  disc := h.disc
  variants := h.variants

theorem Keeps.startCase (h : Keeps r m) (disc : FieldRow N) :
    Keeps (r.startCase disc) (m.addPart (.block { disc })) where
  name := h.name
  plain := by rw [plain_addPart, ← h.plain]; exact (List.append_nil _).symm
  all := by rw [fields_addPart, ← h.all]; rfl
  disc := rfl
  variants := rfl

section
variable {b : Block N} {ps : List (Part N)} (hp : m.parts = .block b :: ps) (f : Block N → Block N)
include hp

theorem parts_mapBlock : (m.mapBlock f).parts = .block (f b) :: ps := by
  rw [MessageDecl.mapBlock, hp]
  rfl

theorem blocks_mapBlock : (m.mapBlock f).blocks = f b :: ps.filterMap Part.block? := by
  rw [MessageDecl.blocks, parts_mapBlock hp]
  rfl

theorem plain_mapBlock : (m.mapBlock f).plain = m.plain := by
  rw [MessageDecl.plain, MessageDecl.plain, parts_mapBlock hp, hp, List.reverse_cons,
    List.reverse_cons, List.filterMap_append, List.filterMap_append]
  rfl

theorem fields_mapBlock {fs : List (FieldRow N)} (hf : (f b).fields = b.fields ++ fs) :
    (m.mapBlock f).fields = m.fields ++ fs := by
  have h1 (b : Block N) : ((Part.block b :: ps).reverse.flatMap Part.fields) =
      ps.reverse.flatMap Part.fields ++ b.fields := by
    rw [List.reverse_cons, List.flatMap_append]
    exact congrArg _ (List.flatMap_singleton _ _)
  rw [MessageDecl.fields, MessageDecl.fields, parts_mapBlock hp, hp, h1, h1, hf, List.append_assoc]

theorem Keeps.newest (h : Keeps r m) : r.md = some b.disc ∧ r.variants = b.variants := by
  have hb : m.blocks = b :: ps.filterMap Part.block? := by
    rw [MessageDecl.blocks, hp]
    rfl
  exact ⟨by rw [h.disc, hb]; rfl, by rw [h.variants, hb]; rfl⟩

theorem Keeps.addLabel (h : Keeps r m) (label : Text) (value : Option N) :
    Keeps (r.addLabel A label value)
      (m.mapBlock (·.addVariant { label, value := value.getD (A.ofInt 0) })) where
  name := h.name
  plain := by rw [plain_mapBlock hp, ← h.plain]; rfl
  all := by
    have hf : (b.addVariant { label, value := value.getD (A.ofInt 0) }).fields =
        b.fields ++ [] := by
      simp [Block.fields, Block.addVariant]
    rw [fields_mapBlock hp _ hf, List.append_nil, ← h.all]
    rfl
  disc := by rw [blocks_mapBlock hp]; exact (h.newest hp).1
  variants := by
    rw [blocks_mapBlock hp]
    exact congrArg (_ :: ·) (h.newest hp).2

theorem Keeps.addVarField (h : Keeps r m) {v : VariantRow N} {vs : List (VariantRow N)}
    (hv : b.variants = v :: vs) (f : FieldRow N) :
    Keeps (r.addVarField f) (m.mapBlock (·.addField f)) where
  name := h.name
  plain := by rw [plain_mapBlock hp, ← h.plain]; rfl
  all := by
    have hf : (b.addField f).fields = b.fields ++ [f] := by
      simp [Block.fields, Block.addField, hv, VariantRow.addField]
    rw [fields_mapBlock hp _ hf, ← h.all]
    rfl
  disc := by rw [blocks_mapBlock hp]; exact (h.newest hp).1
  variants := by
    rw [blocks_mapBlock hp]
    exact congrArg (List.modifyHead _) (h.newest hp).2

end

/-! ## Every text -/

/-- Where a line of this kind stands. -/
def Line.Stands : Line N → Mode → Prop
  | .caseStart _, q | .field _, q => q = .inMsg
  | .label _ _, q => q = .inCase ∨ q = .inVar
  | .varField _, q => q = .inVar
  | .caseEnd, q => q = .inCase ∨ q = .inVar
  | _, _ => True

theorem Line.Stands.ite {c : Prop} [Decidable c] {l l' : Line N} {q : Mode}
    (h : c → l.Stands q) (h' : l'.Stands q) : (if c then l else l').Stands q := by
  split
  case isTrue hc => exact h hc
  case isFalse => exact h'

theorem read_stands (t : Tables N) (record : Text) : (t.read A record).Stands t.state := by
  unfold Tables.read
  extract_lets s w stops
  iterate 5 refine .ite (fun _ => trivial) ?_
  -- in a message: its end, a block, a field
  refine .ite (fun _ => trivial) (.ite (fun h => h.1) (.ite (fun h => h) ?_))
  -- in a block: its end before any variant, a label, its end, a variant's field
  refine .ite (fun h => .inl h.1) (.ite (fun h => h.1) ?_)
  refine .ite (fun h => .inr h.1) (.ite (fun h => h) ?_)
  iterate 3 refine .ite (fun _ => trivial) ?_
  trivial

/-- The message that is open when the program is in a state: in a `case` block the newest part is a
block, and after a label the block has a variant. -/
def Opened (ms : List (MessageDecl N)) : Mode → Prop
  | .inMsg => ∃ m ms', ms = m :: ms'
  | .inCase => ∃ m ms' b ps, ms = m :: ms' ∧ m.parts = .block b :: ps
  | .inVar => ∃ m ms' b ps v vs, ms = m :: ms' ∧ m.parts = .block b :: ps ∧ b.variants = v :: vs
  | _ => True

/-- The tables hold what is declared, as far as they keep it. -/
structure Agrees (t : Tables N) (d : Declared N) : Prop where
  enums : t.enums = d.enums
  messages : List.Forall₂ Keeps t.messages d.messages
  dispatches : t.dispatches = d.dispatches
  opened : Opened d.messages t.state

theorem Agrees.store {t : Tables N} {d : Declared N} (h : Agrees t d) {l : Line N}
    (hl : l.Stands t.state) : Agrees (t.store A l) (d.add A l) := by
  have ho := h.opened
  cases l with
  | ignored => exact h
  | enumStart en => exact ⟨congrArg _ h.enums, h.messages, h.dispatches, trivial⟩
  | enumEntry name val =>
    exact ⟨congrArg (List.modifyHead _) h.enums, h.messages, h.dispatches, ho⟩
  | blockEnd => exact ⟨h.enums, h.messages, h.dispatches, trivial⟩
  | messageStart name =>
    exact ⟨h.enums, .cons ⟨rfl, rfl, rfl, rfl, rfl⟩ h.messages, h.dispatches, _, _, rfl⟩
  | caseStart disc =>
    rw [show t.state = .inMsg from hl] at ho
    obtain ⟨m, ms, hd⟩ := ho
    refine ⟨h.enums, forall₂_modifyHead h.messages fun r m ms _ hk => hk.startCase disc,
      h.dispatches, m.addPart (.block { disc }), ms, { disc }, m.parts, ?_, rfl⟩
    rw [Declared.add, hd]
    rfl
  | field f =>
    have hs : (t.store A (.field f)).state = .inMsg := hl
    rw [show t.state = .inMsg from hl] at ho
    obtain ⟨m, ms, hd⟩ := ho
    refine ⟨h.enums, forall₂_modifyHead h.messages fun r m ms _ hk => hk.addField f,
      h.dispatches, ?_⟩
    rw [hs, Declared.add, hd]
    exact ⟨_, _, rfl⟩
  | caseEnd =>
    refine ⟨h.enums, h.messages, h.dispatches, ?_⟩
    rcases hl with hl | hl <;> rw [hl] at ho
    · obtain ⟨m, ms, b, ps, hd, hp⟩ := ho
      exact ⟨m, ms, hd⟩
    · obtain ⟨m, ms, b, ps, v, vs, hd, hp, hv⟩ := ho
      exact ⟨m, ms, hd⟩
  | label label value =>
    have hb : ∃ m ms b ps, d.messages = m :: ms ∧ m.parts = .block b :: ps := by
      rcases hl with hl | hl <;> rw [hl] at ho
      · exact ho
      · obtain ⟨m, ms, b, ps, v, vs, hd, hp, hv⟩ := ho
        exact ⟨m, ms, b, ps, hd, hp⟩
    obtain ⟨m, ms, b, ps, hd, hp⟩ := hb
    refine ⟨h.enums, forall₂_modifyHead h.messages fun r m' ms' hd' hk => ?_, h.dispatches, ?_⟩
    · rw [hd] at hd'
      cases hd'
      exact hk.addLabel hp label value
    · rw [Declared.add, hd]
      exact ⟨_, _, _, _, _, _, rfl, parts_mapBlock hp _, rfl⟩
  | varField f =>
    have hs : (t.store A (.varField f)).state = .inVar := hl
    rw [show t.state = .inVar from hl] at ho
    obtain ⟨m, ms, b, ps, v, vs, hd, hp, hv⟩ := ho
    refine ⟨h.enums, forall₂_modifyHead h.messages fun r m' ms' hd' hk => ?_, h.dispatches, ?_⟩
    · rw [hd] at hd'
      cases hd'
      exact hk.addVarField hp hv f
    · rw [hs, Declared.add, hd]
      exact ⟨_, _, _, _, _, _, rfl, parts_mapBlock hp _, congrArg (List.modifyHead _) hv⟩
  | dispatchStart dn => exact ⟨h.enums, h.messages, congrArg _ h.dispatches, trivial⟩
  | dispatchLine l =>
    exact ⟨h.enums, h.messages, congrArg (List.modifyHead _) h.dispatches, ho⟩

theorem Agrees.lines {t : Tables N} {d : Declared N} (h : Agrees t d) (rs : List Text) :
    Agrees ((t.lines A rs).foldl (·.store A) t) ((t.lines A rs).foldl (·.add A) d) := by
  induction rs generalizing t d with
  | nil => exact h
  | cons r rs ih => exact ih (h.store (read_stands t r))

/-- **The tables of the generator hold what the text declares**, of each message the last `case`
block only. -/
theorem tables_agree (text : Text) : Agrees (tables A text) (declared A text) :=
  Agrees.lines (t := {}) (d := {}) ⟨rfl, .nil, rfl, trivial⟩ _

end Netchan.Idl.Gen
