import Mathlib.Data.List.Nodup
import Mathlib.Data.List.Perm.Basic
import Netchan.Idl.Declared

/-!
# What the generator lets through

`Code.Valid` is what a C compiler and the codecs ask of the generated code: names that are
identifiers, distinct names and case labels, helpers that exist, and an encoder that writes every
field. The checks of the generator are about the numbers, the labels and the types; they leave
`Declared.Clean` open: the names, all but the last `case` block of a message, the type of a
discriminant, the values a discriminant can have, numbers and macros that differ in the text and not
in the C. `generated_valid_iff`: for the texts that the generator accepts that is all that is missing.
-/

namespace Netchan.Idl.Gen

open Lib Lib.Awk

variable {N : Type}

/-! ## Valid code -/

/-- The types that `microser.h` has helpers for. -/
def msSuffixes : List Text :=
  ["u8", "i8", "u16", "i16", "u32", "i32", "u64", "i64", "bytes"].map ascii

/-- The helpers of `microser.h`. -/
def msHelpers : List Text :=
  msSuffixes.map (ascii "ms_write_tag_" ++ ·) ++ msSuffixes.map (ascii "ms_read_" ++ ·)

/-- The labels of `switch (tag >> 3)`. -/
def Codec.decodeLabels (x : Codec) : List Int := x.decode.map fun r => Ty.uint8.caseLabel r.label

/-- The labels of the `switch` on the discriminant. -/
def Switch.labels (s : Switch) : List Int := s.cases.map fun k => s.ty.caseLabel k.label

/-- The writes in `X_encode`. -/
def Encode.all (e : Encode) : List Write :=
  e.writes ++ e.switch.toList.flatMap fun s => s.write :: s.cases.flatMap Case.body

/-- The helpers that are called. -/
def Codec.helpers (x : Codec) : List Text := x.encode.all.map Write.helper ++ x.decode.map Read.helper

/-- The case that is taken when the members have these values. -/
def Switch.taken (s : Switch) (m : Text → Val) : Option Case :=
  s.cases.find? fun k => s.ty.caseLabel k.label = (m s.write.member).toInt

/-- The writes that `X_encode` does when the members have these values. -/
def Encode.run (e : Encode) (m : Text → Val) : List Write :=
  e.writes ++ e.switch.toList.flatMap fun s => s.write :: (s.taken m).toList.flatMap Case.body

/-- The discriminant has a value of its type. -/
def Encode.Typed (e : Encode) (m : Text → Val) : Prop :=
  ∀ s, e.switch = some s → s.ty.Holds (m s.write.member)

/-- A message's struct and its codec. -/
structure Codec.Valid (x : Codec) : Prop where
  members : (x.members.map Member.name).Nodup
  decodeLabels : x.decodeLabels.Nodup
  switchLabels : ∀ s, x.encode.switch = some s → s.labels.Nodup
  helpers : ∀ h ∈ x.helpers, h ∈ msHelpers
  written : ∀ f ∈ x.members, f.isLen = false →
    ∃ m, x.encode.Typed m ∧ f.name ∈ (x.encode.run m).map Write.member

/-- What a macro stands for: its last definition. -/
def macroValue (defines : List (Text × Int)) (name : Text) : Int :=
  ((defines.reverse.find? fun d => d.1 = name).map Prod.snd).getD 0

/-- The labels of `switch (buf[0])`. -/
def Code.labels (c : Code) (d : DispatchCode) : List Int :=
  d.entries.map fun e => Ty.uint8.caseLabel (macroValue c.defines e.label)

/-- The struct and its members. -/
def Codec.names (x : Codec) : List Text := x.name :: x.members.map Member.name

/-- The struct and the members of its union. -/
def DispatchCode.names (d : DispatchCode) : List Text :=
  (d.name ++ ascii "_msg") :: d.entries.map Entry.message

/-- The types, structs and members that the code declares. -/
def Code.names (c : Code) : List Text :=
  c.typedefs ++ c.codecs.flatMap Codec.names ++ c.dispatches.flatMap DispatchCode.names

/-- The macros of `microser.h`. -/
def msMacros : List Text :=
  ["MICROSER_H", "MS_ERR", "MS_WIRE_8", "MS_WIRE_16", "MS_WIRE_32", "MS_WIRE_64",
    "MS_WIRE_BYTES"].map ascii

/-- A word that is the name of what is declared with it: an identifier and not a macro. -/
def IsName (defines : List (Text × Int)) (s : Text) : Prop :=
  isIdentifier s ∧ s ∉ msMacros ∧ s ∉ defines.map Prod.fst

instance (defines : List (Text × Int)) (s : Text) : Decidable (IsName defines s) :=
  inferInstanceAs (Decidable (_ ∧ _))

/-- **The generated C is one that compiles and drops nothing**, as far as names, labels, helpers
and writes go. The two members of a dispatch's struct are `type` and `u`; its union has a member for
each entry. -/
structure Code.Valid (c : Code) : Prop where
  names : ∀ s ∈ c.names, IsName c.defines s
  macros : ∀ s ∈ c.defines.map Prod.fst, isIdentifier s
  structs : (c.codecs.map Codec.name).Nodup
  codecs : ∀ x ∈ c.codecs, x.Valid
  unions : ∀ d ∈ c.dispatches, (d.entries.map Entry.message).Nodup
  labels : ∀ d ∈ c.dispatches, (c.labels d).Nodup

/-! ## Clean declarations -/

section
variable (A : Numbers N)

/-- The C value of a case label `n` for a discriminant of this type. -/
def labelValue (en : List Text) (ty : Text) (n : N) : Int := (tyOf A en ty).caseLabel (A.print n)

/-- What the checks leave open of a message. -/
structure MessageDecl.Clean (en : List Text) (m : MessageDecl N) : Prop where
  /-- no two fields of one name -/
  names : (m.fields.map FieldRow.name).Nodup
  /-- no field is called as the length of a `bytes` or `string` field -/
  lens : ∀ f ∈ m.fields, isBytes f.type → ∀ g ∈ m.fields, g.name ≠ lenName f.name
  /-- numbers that print alike are equal, as whole numbers are -/
  whole : m.fields.Pairwise fun f g =>
    Ty.uint8.caseLabel (A.print f.tag) = Ty.uint8.caseLabel (A.print g.tag) → A.eq f.tag g.tag
  /-- one `case` block at most -/
  single : m.blocks.length ≤ 1
  /-- no discriminant is `bytes` or `string` -/
  scalar : ∀ b ∈ m.blocks, isBytes b.disc.type → isEnum A en b.disc.type
  /-- labels that are one value of the discriminant are equal -/
  labels : ∀ b ∈ m.blocks, b.variants.reverse.Pairwise fun v w =>
    labelValue A en b.disc.type v.value = labelValue A en b.disc.type w.value →
      A.eq v.value w.value
  /-- a variant that has fields is one that the discriminant can select -/
  selected : ∀ b ∈ m.blocks, ∀ v ∈ b.variants, v.fields ≠ [] →
    ∃ d, (tyOf A en b.disc.type).Holds d ∧ labelValue A en b.disc.type v.value = d.toInt

/-- The macros of a text. -/
def Declared.defines (d : Declared N) : List (Text × Int) :=
  d.enums.reverse.flatMap (enumDefines A) ++ d.dispatches.reverse.flatMap (dispatchDefines A)

/-- What is named after a message: its struct, and the members of it. -/
def MessageDecl.names (m : MessageDecl N) : List Text :=
  toSnake m.name :: m.fields.flatMap fun f => (members f).map Member.name

/-- What is named after the words of a text. -/
def Declared.names (d : Declared N) : List Text :=
  d.enums.reverse.map (fun e => toSnake e.en ++ ascii "_t") ++
    d.messages.reverse.flatMap MessageDecl.names ++
    d.dispatches.reverse.flatMap fun x => (dispatchCode x).names

/-- What the checks leave open of a text. -/
structure Declared.Clean (d : Declared N) : Prop where
  /-- the words that are printed as names are identifiers and no macros -/
  words : ∀ s ∈ d.names, IsName (d.defines A) s
  /-- the words that are printed as macros are identifiers -/
  macros : ∀ s ∈ (d.defines A).map Prod.fst, isIdentifier s
  /-- no two messages become one name -/
  names : (d.messages.map fun m => toSnake m.name).Nodup
  messages : ∀ m ∈ d.messages, m.Clean A d.enumNames
  /-- lines whose macros stand for one value have one tag -/
  tags : ∀ x ∈ d.dispatches, x.lines.Pairwise fun k l =>
    Ty.uint8.caseLabel (macroValue (d.defines A) (tagName x.dn k.msg)) =
      Ty.uint8.caseLabel (macroValue (d.defines A) (tagName x.dn l.msg)) → A.eq k.tag l.tag

end

/-! ## What the checks say -/

variable {A : Numbers N} {en : List Text} {r : MessageRow N} {m : MessageDecl N}

theorem failIf_nil {c : Bool} {msg : Text} : failIf c msg = [] ↔ c = false := by
  cases c <;> simp [failIf]

/-- A message that passes the checks. -/
structure Checked (A : Numbers N) (en : List Text) (r : MessageRow N) : Prop where
  types : ∀ f ∈ r.af, isBytes f.type ∨ rwSuffix A en f.type ≠ []
  numbers : ∀ f ∈ r.af, outside A f.tag 1 31 = false
  unique : r.af.Pairwise fun f g => A.eq f.tag g.tag = false
  labels : r.variants.reverse.Pairwise fun v w => A.eq v.value w.value = false

theorem messageFaults_nil (h : messageFaults A en r = []) : Checked A en r := by
  obtain ⟨h, hlabels⟩ := List.append_eq_nil_iff.1 h
  obtain ⟨hfields, hnumbers⟩ := List.append_eq_nil_iff.1 h
  have hf : ∀ f ∈ r.af, (isBytes f.type ∨ rwSuffix A en f.type ≠ []) ∧
      outside A f.tag 1 31 = false := by
    intro f hf
    have h1 := List.flatMap_eq_nil_iff.1 hfields f hf
    rw [fieldFaults, List.append_eq_nil_iff, failIf_nil, failIf_nil] at h1
    refine ⟨?_, h1.2⟩
    have h2 := h1.1
    by_cases hb : isBytes f.type
    · exact .inl hb
    · exact .inr fun hw => by simp [hb, hw] at h2
  refine ⟨fun f h => (hf f h).1, fun f h => (hf f h).2, ?_, ?_⟩
  · have h1 := (flatMap_later (f := fun _ => []) (g := numberFaults A r.mn)).1 hnumbers
    exact h1.2.imp fun h2 => failIf_nil.1 h2
  · obtain ⟨hknown, hdistinct⟩ := flatMap_later.1 hlabels
    have h1 : r.indexed.Pairwise fun v w => A.eq v.1.value w.1.value = false := by
      refine hdistinct.imp_of_mem fun {v w} hv hw h2 => ?_
      have hv := failIf_nil.1 (hknown v hv)
      have hw := failIf_nil.1 (hknown w hw)
      simpa [variantFaults, failIf_nil, of_decide_eq_false hv, of_decide_eq_false hw] using h2
    have h2 : r.indexed.map Prod.fst = r.variants.reverse := List.zipIdx_map_fst 1 _
    rw [← h2, List.pairwise_map]
    exact h1

theorem dispatchFaults_nil {mns : List Text} {d : DispatchRow N}
    (h : dispatchFaults A mns d = []) :
    d.lines.Pairwise fun k l => A.eq k.tag l.tag = false :=
  (flatMap_later.1 h).2.imp fun h => failIf_nil.1 h

/-! ## Distinct names and labels -/

theorem nodup_suffixed {α : Type} {l : List α} {name : α → Text} {p : α → Bool} {s : Text} :
    (l.flatMap fun a => name a :: if p a then [name a ++ s] else []).Nodup ↔
      (l.map name).Nodup ∧ ∀ a ∈ l, p a → ∀ b ∈ l, name b ≠ name a ++ s := by
  have h1 : (l.flatMap fun a => if p a then [name a ++ s] else []) =
      ((l.filter p).map name).map (· ++ s) := by
    induction l with
    | nil => rfl
    | cons a l ih =>
      rw [List.flatMap_cons, ih, List.filter_cons]
      split <;> rfl
  have h2 : (l.flatMap fun a => name a :: if p a then [name a ++ s] else []).Perm
      (l.map name ++ ((l.filter p).map name).map (· ++ s)) := by
    rw [← h1, List.map_eq_flatMap]
    exact (List.flatMap_append_perm l (fun a => [name a])
      fun a => if p a then [name a ++ s] else []).symm
  rw [h2.nodup_iff, List.nodup_append]
  constructor
  · intro ⟨hn, _, hd⟩
    refine ⟨hn, fun a ha hp b hb => hd _ (List.mem_map_of_mem hb) _ ?_⟩
    exact List.mem_map_of_mem (List.mem_map_of_mem (List.mem_filter.2 ⟨ha, hp⟩))
  · intro ⟨hn, hs⟩
    refine ⟨hn, (hn.sublist (List.filter_sublist.map name)).map (List.append_left_injective s), ?_⟩
    intro x hx y hy
    obtain ⟨b, hb, rfl⟩ := List.mem_map.1 hx
    obtain ⟨z, hz, rfl⟩ := List.mem_map.1 hy
    obtain ⟨a, ha, rfl⟩ := List.mem_map.1 hz
    exact hs a (List.mem_filter.1 ha).1 (List.mem_filter.1 ha).2 b hb

/-- Values that the checks keep apart get distinct labels if those of one label are equal. -/
theorem nodup_labels {α : Type} {l : List α} {c : α → Int} {q : α → α → Bool}
    (h : l.Pairwise fun a b => q a b = false) :
    (l.map c).Nodup ↔ l.Pairwise fun a b => c a = c b → q a b := by
  rw [List.Nodup, List.pairwise_map]
  constructor
  · intro hn
    exact hn.imp fun hne he => absurd he hne
  · intro hg
    refine (h.and hg).imp fun {a b} hab he => ?_
    have := hab.2 he
    rw [hab.1] at this
    cases this

theorem members_names (f : FieldRow N) :
    (members f).map Member.name =
      f.name :: if isBytes f.type then [f.name ++ ascii "_len"] else [] := by
  unfold members isBytes
  split
  case isTrue h => simp [h, lenName]
  case isFalse h =>
    split
    case isTrue h' => simp [h', lenName]
    case isFalse h' => simp [h, h']

theorem codec_members :
    (((codec A en r).members).map Member.name).Nodup ↔
      (r.af.map FieldRow.name).Nodup ∧
        ∀ f ∈ r.af, isBytes f.type → ∀ g ∈ r.af, g.name ≠ lenName f.name := by
  have h1 : (codec A en r).members.map Member.name = r.af.flatMap fun f =>
      f.name :: if isBytes f.type then [f.name ++ ascii "_len"] else [] := by
    rw [codec, List.map_flatMap]
    exact List.flatMap_congr fun f _ => members_names f
  rw [h1, nodup_suffixed]
  rfl

theorem codec_names (hk : Keeps r m) : (codec A en r).names = m.names := by
  rw [Codec.names, MessageDecl.names, codec, hk.name, hk.all, List.map_flatMap]

/-! ## Helpers -/

theorem rwSuffix_mem (ty : Text) : rwSuffix A en ty = [] ∨ rwSuffix A en ty ∈ msSuffixes := by
  unfold rwSuffix
  iterate 8
    split
    · exact .inr (by decide)
  split
  · exact .inr (by decide)
  · exact .inl rfl

theorem helperSuffix_mem {ty : Text} (h : isBytes ty ∨ rwSuffix A en ty ≠ []) :
    helperSuffix A en ty ∈ msSuffixes := by
  unfold helperSuffix
  split
  case isTrue => decide
  case isFalse hb => exact (rwSuffix_mem ty).resolve_left (h.resolve_left hb)

theorem write_mem {s : Text} (h : s ∈ msSuffixes) : ascii "ms_write_tag_" ++ s ∈ msHelpers :=
  List.mem_append_left _ (List.mem_map_of_mem h)

theorem read_mem {s : Text} (h : s ∈ msSuffixes) : ascii "ms_read_" ++ s ∈ msHelpers :=
  List.mem_append_right _ (List.mem_map_of_mem h)

theorem not_write_nil : ascii "ms_write_tag_" ++ [] ∉ msHelpers := by decide

/-- A type of bytes has no suffix of its own unless an enum has its name. -/
theorem rwSuffix_bytes {ty : Text} (h : isBytes ty) :
    rwSuffix A en ty ≠ [] ↔ isEnum A en ty := by
  have h1 : rwSuffix A en ty = if isEnum A en ty then ascii "u8" else [] := by
    rcases (Bool.or_eq_true _ _).mp h with h | h <;> rw [of_decide_eq_true h, rwSuffix] <;>
      iterate 8 rw [if_neg (by decide)]
  rw [h1]
  split
  case isTrue he => exact ⟨fun _ => he, fun _ => by decide⟩
  case isFalse he => exact ⟨fun hn => absurd rfl hn, fun h => absurd h he⟩

/-! ## The fields of a message -/

theorem fields_perm (m : MessageDecl N) :
    m.fields.Perm (m.plain ++ m.blocks.flatMap Block.fields) := by
  obtain ⟨name, ps⟩ := m
  simp only [MessageDecl.fields, MessageDecl.plain, MessageDecl.blocks]
  induction ps with
  | nil => exact .refl _
  | cons p ps ih =>
    rw [List.reverse_cons, List.flatMap_append, List.filterMap_append]
    refine (ih.append_right _).trans ?_
    cases p with
    | plain f =>
      change (_ ++ _ ++ [f]).Perm (_ ++ [f] ++ _)
      rw [List.append_assoc, List.append_assoc]
      exact List.perm_append_comm.append_left _
    | block b =>
      change (_ ++ _ ++ (b.fields ++ [])).Perm (_ ++ [] ++ (b.fields ++ _))
      rw [List.append_nil, List.append_nil, List.append_assoc]
      exact List.perm_append_comm.append_left _

theorem Keeps.nil (h : Keeps r m) (hb : m.blocks = []) : r.md = none ∧ r.variants = [] :=
  ⟨by rw [h.disc, hb]; rfl, by rw [h.variants, hb]; rfl⟩

theorem Keeps.cons (h : Keeps r m) {b : Block N} {bs : List (Block N)} (hb : m.blocks = b :: bs) :
    r.md = some b.disc ∧ r.variants = b.variants :=
  ⟨by rw [h.disc, hb]; rfl, by rw [h.variants, hb]; rfl⟩

theorem mem_fields {f : FieldRow N} :
    f ∈ m.fields ↔ f ∈ m.plain ∨ ∃ b ∈ m.blocks, f = b.disc ∨ ∃ v ∈ b.variants, f ∈ v.fields := by
  rw [(fields_perm m).mem_iff, List.mem_append, List.mem_flatMap]
  simp [Block.fields]

theorem Keeps.mem (h : Keeps r m) {f : FieldRow N}
    (hf : f ∈ r.rf ∨ r.md = some f ∨ ∃ v ∈ r.variants, f ∈ v.fields) : f ∈ r.af := by
  rw [h.all, mem_fields]
  cases hb : m.blocks with
  | nil =>
    rw [h.plain, (h.nil hb).1, (h.nil hb).2] at hf
    rcases hf with hf | hf | ⟨v, hv, _⟩
    · exact .inl hf
    · cases hf
    · cases hv
  | cons b bs =>
    rw [h.plain, (h.cons hb).1, (h.cons hb).2] at hf
    rcases hf with hf | hf | hf
    · exact .inl hf
    · exact .inr ⟨b, List.mem_cons_self, .inl (Option.some.inj hf).symm⟩
    · exact .inr ⟨b, List.mem_cons_self, .inr hf⟩

theorem Keeps.block (h : Keeps r m) {d : FieldRow N} (hd : r.md = some d) :
    ∃ b bs, m.blocks = b :: bs ∧ b ∈ m.blocks ∧ b.disc = d := by
  cases hb : m.blocks with
  | nil =>
    rw [(h.nil hb).1] at hd
    cases hd
  | cons b bs =>
    rw [(h.cons hb).1] at hd
    exact ⟨b, bs, rfl, List.mem_cons_self, Option.some.inj hd⟩

theorem disc_suffix (hk : Keeps r m) (hc : Checked A en r) {d : FieldRow N} (hd : r.md = some d) :
    rwSuffix A en d.type ≠ [] ↔ (isBytes d.type → isEnum A en d.type) := by
  constructor
  · exact fun h hb => (rwSuffix_bytes hb).1 h
  · intro h
    rcases hc.types d (hk.mem (.inr (.inl hd))) with hb | hs
    · exact (rwSuffix_bytes hb).2 (h hb)
    · exact hs

/-- The helpers exist but for that of a discriminant without a suffix. -/
theorem codec_helpers (hk : Keeps r m) (hc : Checked A en r) :
    (∀ h ∈ (codec A en r).helpers, h ∈ msHelpers) ↔
      ∀ d, r.md = some d → rwSuffix A en d.type ≠ [] := by
  have hw {f : FieldRow N} (hf : f ∈ r.af) : (writeField A en f).helper ∈ msHelpers :=
    write_mem (helperSuffix_mem (hc.types f hf))
  have hr {f : FieldRow N} (hf : f ∈ r.af) : (readField A en f).helper ∈ msHelpers :=
    read_mem (helperSuffix_mem (hc.types f hf))
  constructor
  · intro h d hd hs
    have h1 : (writeDisc A en d).helper ∈ (codec A en r).helpers := by
      refine List.mem_append_left _ (List.mem_map_of_mem (List.mem_append_right _ ?_))
      rw [codec, hd]
      exact List.mem_flatMap.2 ⟨_, List.mem_singleton_self _, List.mem_cons_self⟩
    have h2 := h _ h1
    rw [writeDisc, hs] at h2
    exact not_write_nil h2
  · intro hs h hh
    rcases List.mem_append.1 hh with hh | hh
    · obtain ⟨w, hw', rfl⟩ := List.mem_map.1 hh
      rcases List.mem_append.1 hw' with hw' | hw'
      · obtain ⟨f, hf, rfl⟩ := List.mem_map.1 hw'
        exact hw (hk.mem (.inl hf))
      · obtain ⟨s, hs', hw'⟩ := List.mem_flatMap.1 hw'
        obtain ⟨d, hd, rfl⟩ := Option.map_eq_some_iff.1 (Option.mem_toList.1 hs')
        rcases List.mem_cons.1 hw' with rfl | hw'
        · exact write_mem ((rwSuffix_mem _).resolve_left (hs d hd))
        · obtain ⟨k, hk', hw'⟩ := List.mem_flatMap.1 hw'
          obtain ⟨v, hv, rfl⟩ := List.mem_map.1 hk'
          obtain ⟨f, hf, rfl⟩ := List.mem_map.1 hw'
          exact hw (hk.mem (.inr (.inr ⟨v, List.mem_reverse.1 hv, hf⟩)))
    · obtain ⟨w, hw', rfl⟩ := List.mem_map.1 hh
      obtain ⟨f, hf, rfl⟩ := List.mem_map.1 hw'
      exact hr hf

/-! ## What the encoder writes -/

/-- The variant that the discriminant's value selects. -/
def selects (A : Numbers N) (en : List Text) (d : FieldRow N) (x : Int)
    (vs : List (VariantRow N)) : Option (VariantRow N) :=
  vs.reverse.find? fun v => labelValue A en d.type v.value = x

theorem taken_selects (d : FieldRow N) (vals : Text → Val) :
    (switchOf A en r d).taken vals =
      (selects A en d (vals d.name).toInt r.variants).map (caseOf A en) := by
  rw [Switch.taken, selects]
  exact List.find?_map

theorem run_names (vals : Text → Val) :
    ((codec A en r).encode.run vals).map Write.member =
      r.rf.map FieldRow.name ++ r.md.toList.flatMap fun d =>
        d.name :: (selects A en d (vals d.name).toInt r.variants).toList.flatMap fun v =>
          v.fields.map FieldRow.name := by
  have hw : Write.member ∘ writeField A en = FieldRow.name := rfl
  cases hd : r.md with
  | none => simp [codec, Encode.run, hd, hw]
  | some d =>
    simp only [codec, Encode.run, hd, Option.map_some, Option.toList_some, List.flatMap_cons,
      List.flatMap_nil, List.append_nil, List.map_append, List.map_map, List.map_cons, hw,
      taken_selects]
    cases selects A en d (vals d.name).toInt r.variants with
    | none => rfl
    | some v => simp [caseOf, hw]; rfl

/-- Every field is written for some values of the members. -/
def Written (A : Numbers N) (en : List Text) (r : MessageRow N) : Prop :=
  ∀ f ∈ r.af, ∃ vals, (codec A en r).encode.Typed vals ∧
    f.name ∈ ((codec A en r).encode.run vals).map Write.member

theorem codec_written :
    (∀ x ∈ (codec A en r).members, x.isLen = false → ∃ vals, (codec A en r).encode.Typed vals ∧
      x.name ∈ ((codec A en r).encode.run vals).map Write.member) ↔ Written A en r := by
  have h1 (f : FieldRow N) : ∃ x ∈ members f, x.isLen = false ∧ x.name = f.name := by
    unfold members
    split_ifs <;> exact ⟨_, List.mem_cons_self, rfl, rfl⟩
  have h2 (f : FieldRow N) : ∀ x ∈ members f, x.isLen = false → x.name = f.name := by
    unfold members
    split_ifs <;> simp
  constructor
  · intro h f hf
    obtain ⟨x, hx, hlen, hname⟩ := h1 f
    rw [← hname]
    exact h x (List.mem_flatMap.2 ⟨f, hf, hx⟩) hlen
  · intro h x hx hlen
    obtain ⟨f, hf, hx⟩ := List.mem_flatMap.1 hx
    rw [h2 f x hx hlen]
    exact h f hf

section
variable {b : Block N} {bs : List (Block N)} {vals : Text → Val}

/-- A name that is written is one of a plain field, of the discriminant of the newest block or of
the variant it selects. -/
theorem Keeps.run_cases (h : Keeps r m) (hb : m.blocks = b :: bs) {x : Text} :
    x ∈ ((codec A en r).encode.run vals).map Write.member ↔
      x ∈ m.plain.map FieldRow.name ∨ x = b.disc.name ∨
        ∃ v, selects A en b.disc (vals b.disc.name).toInt b.variants = some v ∧
          x ∈ v.fields.map FieldRow.name := by
  rw [run_names, h.plain, (h.cons hb).1, (h.cons hb).2]
  simp

/-- The names of a message without an older block are distinct by their places. -/
theorem nodup_places (hb : m.blocks = b :: bs) (hn : (m.fields.map FieldRow.name).Nodup) :
    ((m.plain.map FieldRow.name ++ b.disc.name :: b.variants.reverse.flatMap fun v =>
        v.fields.map FieldRow.name) ++
      bs.flatMap fun c => c.fields.map FieldRow.name).Nodup := by
  have h1 := ((fields_perm m).map FieldRow.name).nodup_iff.1 hn
  rw [hb, List.flatMap_cons, List.map_append, List.map_append, Block.fields, List.map_cons,
    List.map_flatMap, List.map_flatMap, ← List.append_assoc] at h1
  exact h1

theorem selects_mem {d : FieldRow N} {y : Int} {vs : List (VariantRow N)} {v : VariantRow N}
    (h : selects A en d y vs = some v) : v ∈ vs ∧ labelValue A en d.type v.value = y := by
  unfold selects at h
  exact ⟨List.mem_reverse.1 (List.mem_of_find?_eq_some h), by simpa using List.find?_some h⟩

/-- Older blocks are dropped. -/
theorem Written.single (h : Written A en r) (hk : Keeps r m)
    (hn : (m.fields.map FieldRow.name).Nodup) : m.blocks.length ≤ 1 := by
  cases hb : m.blocks with
  | nil => exact Nat.zero_le 1
  | cons b bs =>
    cases bs with
    | nil => exact Nat.le_refl 1
    | cons c cs =>
      have hc : c.disc ∈ m.fields := by
        rw [mem_fields, hb]
        exact .inr ⟨c, List.mem_cons_of_mem _ List.mem_cons_self, .inl rfl⟩
      rw [← hk.all] at hc
      obtain ⟨vals, _, hw⟩ := h c.disc hc
      have hd := (List.nodup_append.1 (nodup_places hb hn)).2.2
      refine absurd rfl (hd c.disc.name ?_ c.disc.name ?_)
      · rcases (hk.run_cases hb).1 hw with hw | hw | ⟨v, hv, hw⟩
        · exact List.mem_append_left _ hw
        · rw [hw]
          exact List.mem_append_right _ List.mem_cons_self
        · refine List.mem_append_right _ (List.mem_cons_of_mem _ ?_)
          exact List.mem_flatMap.2 ⟨v, List.mem_reverse.2 (selects_mem hv).1, hw⟩
      · rw [List.flatMap_cons]
        exact List.mem_append_left _ List.mem_cons_self

/-- A variant whose fields are written is selected by some value of the discriminant. -/
theorem Written.selected (h : Written A en r) (hk : Keeps r m)
    (hn : (m.fields.map FieldRow.name).Nodup) (hb : m.blocks = b :: bs) {v : VariantRow N}
    (hv : v ∈ b.variants) (hf : v.fields ≠ []) :
    ∃ d, (tyOf A en b.disc.type).Holds d ∧ labelValue A en b.disc.type v.value = d.toInt := by
  obtain ⟨f, hf⟩ := List.exists_mem_of_ne_nil _ hf
  have hfa : f ∈ r.af := hk.mem (.inr (.inr ⟨v, by rw [(hk.cons hb).2]; exact hv, hf⟩))
  obtain ⟨vals, ht, hw⟩ := h f hfa
  have hp := (List.nodup_append.1 (nodup_places hb hn)).1
  obtain ⟨_, hvars, hdisj⟩ := List.nodup_append.1 hp
  have hfv : f.name ∈ b.variants.reverse.flatMap fun v => v.fields.map FieldRow.name :=
    List.mem_flatMap.2 ⟨v, List.mem_reverse.2 hv, List.mem_map_of_mem hf⟩
  refine ⟨vals b.disc.name, ht (switchOf A en r b.disc) (by rw [codec, (hk.cons hb).1]; rfl), ?_⟩
  rcases (hk.run_cases hb).1 hw with hw | hw | ⟨w, hs, hw⟩
  · exact absurd rfl (hdisj _ hw _ (List.mem_cons_of_mem _ hfv))
  · exact absurd (hw ▸ hfv) (List.nodup_cons.1 hvars).1
  · obtain ⟨hwm, hwv⟩ := selects_mem hs
    have hpair := (List.nodup_flatMap.1 (List.nodup_cons.1 hvars).2).2
    have : Std.Symm (Function.onFun List.Disjoint fun v : VariantRow N =>
        v.fields.map FieldRow.name) := ⟨fun _ _ h _ hx hy => h hy hx⟩
    by_cases he : v = w
    · rw [he]
      exact hwv
    · refine absurd hw ?_
      exact hpair.forall (List.mem_reverse.2 hv) (List.mem_reverse.2 hwm) he
        (List.mem_map_of_mem hf)

theorem holds_zero (ty : Ty) : ty.Holds ty.zero := by
  cases ty <;> first | trivial | exact Nat.zero_lt_succ _

theorem tail_nil {α : Type} {l as : List α} {a : α} (hl : l.length ≤ 1) (h : l = a :: as) :
    as = [] := by
  rw [h, List.length_cons] at hl
  exact List.eq_nil_of_length_eq_zero (by omega)

theorem eq_singleton {α : Type} {l : List α} {a : α} (hl : l.length ≤ 1) (ha : a ∈ l) :
    l = [a] := by
  cases hc : l with
  | nil =>
    rw [hc] at ha
    cases ha
  | cons c cs =>
    rw [hc, tail_nil hl hc] at ha
    rw [tail_nil hl hc, List.mem_singleton.1 ha]

/-- Every field is written if there is one block at most and its variants can be selected. -/
theorem written_of (hk : Keeps r m) (hone : m.blocks.length ≤ 1)
    (hl : ∀ b ∈ m.blocks, (b.variants.reverse.map fun v =>
      labelValue A en b.disc.type v.value).Nodup)
    (hs : ∀ b ∈ m.blocks, ∀ v ∈ b.variants, v.fields ≠ [] →
      ∃ d, (tyOf A en b.disc.type).Holds d ∧ labelValue A en b.disc.type v.value = d.toInt) :
    Written A en r := by
  intro f hf
  rw [hk.all, mem_fields] at hf
  cases hb : m.blocks with
  | nil =>
    rw [hb] at hf
    refine ⟨fun _ => .u8 0, ?_, ?_⟩
    · intro s hs
      rw [codec, (hk.nil hb).1] at hs
      cases hs
    · rw [run_names, hk.plain, (hk.nil hb).1, Option.toList_none, List.flatMap_nil, List.append_nil]
      exact List.mem_map_of_mem (hf.resolve_right fun ⟨b, hb, _⟩ => List.not_mem_nil hb)
  | cons b bs =>
    have hbs : bs = [] := tail_nil hone hb
    have hbm : b ∈ m.blocks := by rw [hb]; exact List.mem_cons_self
    have htyped {d : Val} (hd : (tyOf A en b.disc.type).Holds d) :
        (codec A en r).encode.Typed fun _ => d := by
      intro s hs
      rw [codec, (hk.cons hb).1] at hs
      cases hs
      exact hd
    rw [hb, hbs] at hf
    rcases hf with hf | ⟨c, hc, hf⟩
    · exact ⟨_, htyped (holds_zero _), (hk.run_cases hb).2 (.inl (List.mem_map_of_mem hf))⟩
    · cases List.mem_singleton.1 hc
      rcases hf with hf | ⟨v, hv, hf⟩
      · exact ⟨_, htyped (holds_zero _), (hk.run_cases hb).2 (.inr (.inl (by rw [hf])))⟩
      · obtain ⟨d, hd, hvd⟩ := hs b hbm v hv (List.ne_nil_of_mem hf)
        refine ⟨_, htyped hd, (hk.run_cases hb).2 (.inr (.inr ⟨v, ?_, List.mem_map_of_mem hf⟩))⟩
        -- the labels are distinct, so the variant that is found is the one with this value
        cases hsel : selects A en b.disc d.toInt b.variants with
        | none =>
          have := List.find?_eq_none.1 hsel v (List.mem_reverse.2 hv)
          exact absurd (decide_eq_true hvd) this
        | some w =>
          obtain ⟨hw, hwd⟩ := selects_mem hsel
          rw [List.inj_on_of_nodup_map (hl b hbm) (List.mem_reverse.2 hw) (List.mem_reverse.2 hv)
            (hwd.trans hvd.symm)]

end

/-- **The codec of a message that passes the checks is valid exactly when the message is clean.** -/
theorem codec_valid_iff (hk : Keeps r m) (hc : Checked A en r) :
    (codec A en r).Valid ↔ m.Clean A en := by
  have hunique : m.fields.Pairwise fun f g => A.eq f.tag g.tag = false := hk.all ▸ hc.unique
  have hdecode : (codec A en r).decodeLabels =
      m.fields.map fun f => Ty.uint8.caseLabel (A.print f.tag) := by
    rw [Codec.decodeLabels, codec, ← hk.all, List.map_map]
    rfl
  have hlabels {b : Block N} {bs : List (Block N)} (hb : m.blocks = b :: bs) :
      (switchOf A en r b.disc).labels =
        b.variants.reverse.map fun v => labelValue A en b.disc.type v.value := by
    rw [Switch.labels, switchOf, (hk.cons hb).2, List.map_map]
    rfl
  have hkept {b : Block N} {bs : List (Block N)} (hb : m.blocks = b :: bs) :
      b.variants.reverse.Pairwise fun v w => A.eq v.value w.value = false :=
    (hk.cons hb).2 ▸ hc.labels
  constructor
  · intro h
    obtain ⟨hnames, hlens⟩ := codec_members.1 h.members
    rw [hk.all] at hnames hlens
    have hw : Written A en r := codec_written.1 h.written
    have hone := hw.single hk hnames
    have hblock {b : Block N} (hbm : b ∈ m.blocks) : m.blocks = [b] := eq_singleton hone hbm
    refine ⟨hnames, hlens, ?_, hone, ?_, ?_, ?_⟩
    · exact (nodup_labels hunique).1 (hdecode ▸ h.decodeLabels)
    · intro b hbm
      have hd := (hk.cons (hblock hbm)).1
      exact (disc_suffix hk hc hd).1 ((codec_helpers hk hc).1 h.helpers _ hd)
    · intro b hbm
      have hb := hblock hbm
      refine (nodup_labels (hkept hb)).1 ?_
      rw [← hlabels hb]
      exact h.switchLabels _ (by rw [codec, (hk.cons hb).1]; rfl)
    · intro b hbm v hv hf
      exact hw.selected hk hnames (hblock hbm) hv hf
  · intro h
    have hl : ∀ b ∈ m.blocks, (b.variants.reverse.map fun v =>
        labelValue A en b.disc.type v.value).Nodup := fun b hbm =>
      (nodup_labels (hkept (eq_singleton h.single hbm))).2 (h.labels b hbm)
    refine ⟨codec_members.2 ?_, ?_, ?_, ?_, codec_written.2 ?_⟩
    · rw [hk.all]
      exact ⟨h.names, h.lens⟩
    · rw [hdecode]
      exact (nodup_labels hunique).2 h.whole
    · intro s hs
      obtain ⟨d, hd, rfl⟩ := Option.map_eq_some_iff.1 hs
      obtain ⟨b, bs, hb, hbm, rfl⟩ := hk.block hd
      rw [hlabels hb]
      exact hl b hbm
    · rw [codec_helpers hk hc]
      intro d hd
      obtain ⟨b, bs, hb, hbm, rfl⟩ := hk.block hd
      exact (disc_suffix hk hc hd).2 (h.scalar b hbm)
    · exact written_of hk h.single hl h.selected

/-! ## Every text -/

theorem labels_messages {c : Code} {x : DispatchRow N} (h : (c.labels (dispatchCode x)).Nodup) :
    ((dispatchCode x).entries.map Entry.message).Nodup := by
  have h1 : c.labels (dispatchCode x) = ((dispatchCode x).entries.map Entry.message).map fun s =>
      Ty.uint8.caseLabel
        (macroValue c.defines (toUpper (toSnake x.dn) ++ ascii "_" ++ toUpper s)) := by
    simp [Code.labels, dispatchCode, tagName]
  rw [h1] at h
  exact h.of_map _

/-- The code for tables that pass the checks. -/
theorem code_valid_iff {t : Tables N} {d : Declared N} (h : Agrees t d) (hf : t.faults A = []) :
    (t.code A).Valid ↔ d.Clean A := by
  obtain ⟨hmsgs, hdisp⟩ := List.append_eq_nil_iff.1 hf
  rw [List.flatMap_eq_nil_iff] at hmsgs hdisp
  have hen : t.enumNames = d.enumNames := congrArg (fun e => e.reverse.map EnumRow.en) h.enums
  have hdefs : (t.code A).defines = d.defines A := by
    rw [Tables.code, Declared.defines, h.enums, h.dispatches]
  have hnames : ((t.code A).codecs.map Codec.name).Nodup ↔
      (d.messages.map fun m => toSnake m.name).Nodup := by
    have h1 : (t.messages.map fun r => toSnake r.mn) = d.messages.map fun m => toSnake m.name :=
      forall₂_map_eq h.messages fun r m hk => congrArg toSnake hk.name
    have h2 : (t.code A).codecs.map Codec.name = (t.messages.map fun r => toSnake r.mn).reverse := by
      rw [Tables.code, List.map_map, ← List.map_reverse]
      rfl
    rw [h2, List.nodup_reverse, h1]
  have hwords : (t.code A).names = d.names := by
    have h1 : t.messages.reverse.flatMap (fun r => (codec A t.enumNames r).names) =
        d.messages.reverse.flatMap MessageDecl.names := by
      rw [List.flatMap_def, List.flatMap_def, List.map_reverse, List.map_reverse,
        forall₂_map_eq h.messages fun r m hk => codec_names hk]
    rw [Code.names, Declared.names, Tables.code, h.enums, h.dispatches, List.flatMap_map,
      List.flatMap_map, h1]
  have hcodecs : (∀ x ∈ (t.code A).codecs, x.Valid) ↔ ∀ m ∈ d.messages, m.Clean A d.enumNames := by
    rw [← forall₂_forall (P := fun r => (codec A d.enumNames r).Valid) h.messages]
    · rw [Tables.code, hen, List.forall_mem_map]
      exact forall_congr' fun r => by rw [List.mem_reverse]
    · intro r m hr hk
      exact codec_valid_iff hk (messageFaults_nil (hen ▸ hmsgs r (List.mem_reverse.2 hr)))
  have hlabels : (∀ x ∈ (t.code A).dispatches, ((t.code A).labels x).Nodup) ↔
      ∀ x ∈ d.dispatches, x.lines.Pairwise fun k l =>
        Ty.uint8.caseLabel (macroValue (d.defines A) (tagName x.dn k.msg)) =
          Ty.uint8.caseLabel (macroValue (d.defines A) (tagName x.dn l.msg)) →
        A.eq k.tag l.tag := by
    have h1 : (t.code A).dispatches = d.dispatches.reverse.map dispatchCode := by
      rw [Tables.code, h.dispatches]
    rw [h1, List.forall_mem_map]
    refine forall_congr' fun x => ?_
    rw [List.mem_reverse]
    refine forall_congr' fun hx => ?_
    have h2 := dispatchFaults_nil (hdisp x (by rw [h.dispatches]; exact List.mem_reverse.2 hx))
    rw [Code.labels, hdefs, dispatchCode, List.map_map]
    exact nodup_labels h2
  constructor
  · intro hv
    exact ⟨hdefs ▸ hwords ▸ hv.names, hdefs ▸ hv.macros, hnames.1 hv.structs, hcodecs.1 hv.codecs,
      hlabels.1 hv.labels⟩
  · intro hc
    refine ⟨hdefs.symm ▸ hwords.symm ▸ hc.words, hdefs.symm ▸ hc.macros, hnames.2 hc.names,
      hcodecs.2 hc.messages, ?_, hlabels.2 hc.tags⟩
    intro x hx
    obtain ⟨row, _, rfl⟩ := List.mem_map.1 hx
    exact labels_messages (hlabels.2 hc.tags _ hx)

theorem microserGen_ok {text : Text} {c : Code} :
    microserGen A text = .ok c ↔ (tables A text).faults A = [] ∧ (tables A text).code A = c := by
  unfold microserGen
  simp only
  split
  case isTrue hf => simp [hf]
  case isFalse hf => simp [hf]

/-- **What the generator accepts is valid C exactly when the text is clean.** Its checks see to the
types, the numbers and the labels; the conditions of `Declared.Clean` are those it does not check. -/
theorem generated_valid_iff {text : Text} {c : Code} (h : microserGen A text = .ok c) :
    c.Valid ↔ (declared A text).Clean A := by
  obtain ⟨hf, rfl⟩ := microserGen_ok.1 h
  exact code_valid_iff (tables_agree text) hf

/-- A text whose code is valid. -/
def eventIdl : Text :=
  ascii ("enum Kind\n Ping = 1\nend\nmessage Event\n uint32 at = 1\n case Kind kind = 2\n  Ping:\n" ++
    "bytes data = 3\n end\nend\ndispatch Proto\n 1 Event\nend\n")

theorem eventIdl_lines : idlLines integers eventIdl =
    [.enumStart (ascii "Kind"), .enumEntry (ascii "Ping") 1, .blockEnd,
      .messageStart (ascii "Event"), .field ⟨ascii "uint32", ascii "at", 1⟩,
      .caseStart ⟨ascii "Kind", ascii "kind", 2⟩, .label (ascii "Ping") (some 1),
      .varField ⟨ascii "bytes", ascii "data", 3⟩, .caseEnd, .blockEnd,
      .dispatchStart (ascii "Proto"), .dispatchLine ⟨1, ascii "Event"⟩, .blockEnd] := by
  decide +kernel

theorem generated_valid_event :
    ∃ c, microserGen integers eventIdl = .ok c ∧ c.Valid := by
  have hf : (tables integers eventIdl).faults integers = [] := by
    rw [tables, eventIdl_lines]
    decide
  have hm : (declared integers eventIdl).messages = [⟨ascii "Event",
      [.block ⟨⟨ascii "Kind", ascii "kind", 2⟩,
        [⟨ascii "Ping", 1, [⟨ascii "bytes", ascii "data", 3⟩]⟩]⟩,
       .plain ⟨ascii "uint32", ascii "at", 1⟩]⟩] := by
    rw [declared, eventIdl_lines]
    rfl
  have hn : (declared integers eventIdl).enumNames = [ascii "Kind"] := by
    rw [declared, eventIdl_lines]
    rfl
  have hc := microserGen_ok.2 ⟨hf, rfl⟩
  refine ⟨_, hc, (generated_valid_iff hc).2 ⟨?_, ?_, ?_, ?_, ?_⟩⟩
  · rw [declared, eventIdl_lines]
    decide
  · rw [declared, eventIdl_lines]
    decide
  · rw [hm]
    decide
  · rw [hm, hn, List.forall_mem_singleton]
    refine ⟨by decide, by decide, by decide, by decide,
      by decide, by decide, fun b hb v hv _ => ⟨.u8 1, ?_⟩⟩
    cases List.mem_singleton.1 hb
    cases List.mem_singleton.1 hv
    have ht : tyOf integers [ascii "Kind"] (ascii "Kind") = .enum := by decide
    rw [labelValue, ht]
    exact ⟨trivial, by decide⟩
  · rw [declared, eventIdl_lines]
    decide

/-- Two fields of one name and two numbers. -/
def twiceIdl : Text := ascii "message M\n uint8 a = 1\n uint8 a = 2\nend\n"

theorem repeated_member :
    ¬∀ (text : Text) (c : Code), microserGen integers text = .ok c → c.Valid := by
  intro h
  have hl : idlLines integers twiceIdl =
      [.messageStart (ascii "M"), .field ⟨ascii "uint8", ascii "a", 1⟩,
        .field ⟨ascii "uint8", ascii "a", 2⟩, .blockEnd] := by decide
  have hf : (tables integers twiceIdl).faults integers = [] := by
    rw [tables, hl]
    decide
  have hv := h twiceIdl _ (microserGen_ok.2 ⟨hf, rfl⟩)
  have hn : ∀ x ∈ ((tables integers twiceIdl).code integers).codecs,
      (x.members.map Member.name).Nodup := fun x hx => (hv.codecs x hx).members
  rw [tables, hl] at hn
  revert hn
  decide

end Netchan.Idl.Gen
