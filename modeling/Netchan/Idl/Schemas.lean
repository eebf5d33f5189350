import Netchan.Idl.Generated

/-!
# Schemas of generated codecs

The codecs of `Netchan.Idl.Codec` are over schemas; here they are those of the code that the
generator emits. `generated_schemas`: every message of valid code is a schema, from
`message_accepted`. `message_written`: the encoder of the schema writes the fields that the emitted
encoder writes.
-/

namespace Netchan.Idl.Gen

open Lib Lib.Awk

variable {N : Type} {A : Numbers N} {en : List Text} {r : MessageRow N} {m : MessageDecl N}

/-- A field as the codecs have it. -/
def fieldOf (A : Numbers N) (en : List Text) (f : FieldRow N) : Field :=
  ⟨tyOf A en f.type, UInt8.ofInt (A.print f.tag)⟩

def variantOf (A : Numbers N) (en : List Text) (v : VariantRow N) : Variant :=
  ⟨A.print v.value, v.fields.map (fieldOf A en)⟩

/-- A message as the codecs have it. -/
def MessageRow.message (A : Numbers N) (en : List Text) (r : MessageRow N) : Message where
  plain := r.rf.map (fieldOf A en)
  block := r.md.map fun d => ⟨fieldOf A en d, r.variants.reverse.map (variantOf A en)⟩

/-- A number that is in the range of the fields prints so. -/
def PrintsRange (A : Numbers N) : Prop :=
  ∀ n, outside A n 1 31 = false → 1 ≤ A.print n ∧ A.print n ≤ 31

theorem integers_printsRange : PrintsRange integers := by
  intro n hn
  obtain ⟨h1, h2⟩ := Bool.or_eq_false_iff.1 hn
  exact ⟨not_lt.1 (of_decide_eq_false h1), not_lt.1 (of_decide_eq_false h2)⟩

theorem tyOf_blob {ty : Text} (h : tyOf A en ty = .bytes ∨ tyOf A en ty = .string) :
    rwSuffix A en ty = [] := by
  unfold tyOf at h
  unfold rwSuffix
  iterate 9
    split at h
    · rcases h with h | h <;> cases h
    rename_i hne
    rw [if_neg hne]

theorem toNat_ofInt {n : Int} (h : 1 ≤ n ∧ n ≤ 31) : (UInt8.ofInt n).toNat = n.toNat := by
  rw [UInt8.ofInt, UInt8.toNat_ofNat']
  omega

theorem message_fields (hk : Keeps r m) (hone : m.blocks.length ≤ 1) :
    (r.message A en).fields.Perm (m.fields.map (fieldOf A en)) := by
  refine .trans (.of_eq ?_) ((fields_perm m).map _).symm
  rw [Message.fields, MessageRow.message, hk.plain, List.map_append]
  cases hb : m.blocks with
  | nil =>
    rw [(hk.nil hb).1]
    rfl
  | cons b bs =>
    have hbs : bs = [] := tail_nil hone hb
    have hv : (b.variants.reverse.map (variantOf A en)).flatMap Variant.fields =
        (b.variants.reverse.flatMap VariantRow.fields).map (fieldOf A en) := by
      rw [List.flatMap_map, List.map_flatMap]
      rfl
    rw [(hk.cons hb).1, (hk.cons hb).2, hbs, List.flatMap_singleton, Block.fields, List.map_cons,
      ← hv]
    rfl

/-- **A clean message that passes the checks is a schema of the codecs.** -/
theorem message_accepted (hk : Keeps r m) (hc : Checked A en r) (hA : PrintsRange A)
    (h : m.Clean A en) : (r.message A en).Accepted := by
  have hp : (r.message A en).fields.Perm (m.fields.map (fieldOf A en)) :=
    message_fields hk h.single
  have hrange {f : FieldRow N} (hf : f ∈ m.fields) : 1 ≤ A.print f.tag ∧ A.print f.tag ≤ 31 :=
    hA _ (hc.numbers f (hk.all ▸ hf))
  have hunique : m.fields.Pairwise fun f g => A.eq f.tag g.tag = false := hk.all ▸ hc.unique
  refine ⟨?_, ?_, ?_, ?_⟩
  · intro f hf
    obtain ⟨g, hg, rfl⟩ := List.mem_map.1 (hp.mem_iff.1 hf)
    have h1 := hrange hg
    have h2 := toNat_ofInt h1
    rw [UInt8.le_iff_toNat_le, UInt8.le_iff_toNat_le, fieldOf, h2]
    exact ⟨by simp; omega, by simp; omega⟩
  · rw [(hp.map Field.tag).nodup_iff, List.map_map, List.Nodup, List.pairwise_map]
    have h1 := (nodup_labels hunique).2 h.whole
    rw [List.Nodup, List.pairwise_map] at h1
    refine h1.imp_of_mem fun {f g} hf hg hne he => hne ?_
    -- numbers in the range are told apart by one byte
    have h2 := congrArg UInt8.toNat he
    have h3 : (A.print f.tag).toNat = (A.print g.tag).toNat := by
      rw [← toNat_ofInt (hrange hf), ← toNat_ofInt (hrange hg)]
      exact h2
    have := hrange hf
    have := hrange hg
    exact congrArg _ (by omega)
  · intro b hb
    obtain ⟨d, hd, rfl⟩ := Option.map_eq_some_iff.1 hb
    obtain ⟨c, cs, _, hc', rfl⟩ := hk.block hd
    have hs := (disc_suffix hk hc hd).2 (h.scalar c hc')
    exact ⟨fun he => hs (tyOf_blob (.inl he)), fun he => hs (tyOf_blob (.inr he))⟩
  · intro b hb
    obtain ⟨d, hd, rfl⟩ := Option.map_eq_some_iff.1 hb
    obtain ⟨c, cs, hcs, hc', rfl⟩ := hk.block hd
    have h1 : c.variants.reverse.Pairwise fun v w => A.eq v.value w.value = false :=
      (hk.cons hcs).2 ▸ hc.labels
    have h2 := (nodup_labels h1).2 (h.labels c hc')
    have h3 : (c.variants.reverse.map fun v => labelValue A en c.disc.type v.value) =
        (c.variants.reverse.map fun v => A.print v.value).map
          (tyOf A en c.disc.type).caseLabel := by
      rw [List.map_map]
      rfl
    rw [h3] at h2
    rw [(hk.cons hcs).2, List.map_map]
    exact h2.of_map _

/-- Every message of valid code is a schema of the codecs. -/
theorem generated_schemas {text : Text} {c : Code} (h : microserGen A text = .ok c)
    (hv : c.Valid) (hA : PrintsRange A) :
    ∀ r ∈ (tables A text).messages, (r.message A (tables A text).enumNames).Accepted := by
  obtain ⟨hf, rfl⟩ := microserGen_ok.1 h
  have ha := tables_agree (A := A) text
  have hc := (code_valid_iff ha hf).1 hv
  intro r hr
  obtain ⟨m, hm, hk⟩ := forall₂_mem ha.messages hr
  have hfaults := List.flatMap_eq_nil_iff.1 (List.append_eq_nil_iff.1 hf).1 r
    (List.mem_reverse.2 hr)
  have hen : (tables A text).enumNames = (declared A text).enumNames :=
    congrArg (fun e => e.reverse.map EnumRow.en) ha.enums
  exact message_accepted hk (messageFaults_nil hfaults) hA (hen ▸ hc.messages m hm)

/-- **The encoder of the schema writes what the emitted encoder writes.** -/
theorem message_written (vals : Text → Val) (x : Values)
    (hd : ∀ d, r.md = some d → x (fieldOf A en d).tag = vals d.name) :
    ((r.message A en).written x).map Field.tag =
      ((codec A en r).encode.run vals).map fun w => UInt8.ofInt w.number := by
  have hw : (fun w : Write => UInt8.ofInt w.number) ∘ writeField A en = Field.tag ∘ fieldOf A en :=
    rfl
  cases hmd : r.md with
  | none => simp [codec, Encode.run, Message.written, MessageRow.message, hmd, hw]
  | some d =>
    have ha : CaseBlock.active ⟨fieldOf A en d, r.variants.reverse.map (variantOf A en)⟩ x =
        (selects A en d (vals d.name).toInt r.variants).map (variantOf A en) := by
      rw [CaseBlock.active, hd d hmd, selects]
      exact List.find?_map
    simp only [codec, Encode.run, Message.written, MessageRow.message, hmd, Option.map_some,
      Option.toList_some, List.flatMap_cons, List.flatMap_nil, List.append_nil, List.map_append,
      List.map_map, List.map_cons, hw, taken_selects, ha]
    cases selects A en d (vals d.name).toInt r.variants with
    | none => rfl
    | some v =>
      simp only [Option.map_some, Option.toList_some, List.flatMap_cons, List.flatMap_nil,
        List.append_nil, variantOf, caseOf, List.map_map, hw]
      rfl

end Netchan.Idl.Gen
