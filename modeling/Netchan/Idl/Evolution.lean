import Netchan.Idl.RoundTrip

/-!
# Schema evolution

Readers and writers of different versions of a message, and of a dispatch.

* `Extends`: a later version of a message has all fields of an earlier one.
* `decode_kept`: what a reader of one version has of a message of another.
* `walk_sent`: a dispatch decoder walks a stream message by message, also over those it does not
  know.
* `schemas_evolve`: both directions, and the walk.
-/

namespace Netchan.Idl

open Lib

/-- `S'` has the fields of `S`, plain and of variants, unchanged. Field numbers are unique, so those
of the fields it adds are not used by `S`. -/
def Extends (S S' : Message) : Prop := S.fields ⊆ S'.fields

/-- The reader's struct has the values that were written, of those fields it knows, and zero in its
other fields. -/
def Kept (R W : Message) (m v : Values) : Prop :=
  ∀ f ∈ R.fields, v f.tag = if f ∈ W.written m then m f.tag else f.ty.zero

section
variable {S S' R W : Schema} {m : Values} {len n : Nat} {buf buf' : Mem}

theorem Extends.compatible (h : Extends S.toMessage S'.toMessage) :
    Compatible S.toMessage S'.toMessage ∧ Compatible S'.toMessage S.toMessage := by
  have hinj := List.inj_on_of_nodup_map S'.accepted.unique
  refine ⟨fun f hf g hg ht => ?_, fun f hf g hg ht => ?_⟩
  · rw [hinj (h hf) hg ht]
  · rw [hinj hf (h hg) ht]

theorem Compatible.field_eq (hc : Compatible R.toMessage W.toMessage) {f g : Field}
    (hf : f ∈ R.fields) (hg : g ∈ W.fields) (ht : f.tag = g.tag) : f = g := by
  have hty := hc f hf g hg ht
  cases f
  cases g
  cases ht
  cases hty
  rfl

/-- **A reader of one version on a message of another**, whatever follows it. -/
theorem decode_kept (hc : Compatible R.toMessage W.toMessage) (ht : W.Typed m)
    (hlen : (W.body m).length < 65536) (rest : List UInt8) :
    ∃ v, R.decode (leBytes 2 (W.body m).length ++ W.body m ++ rest) =
        .ok (v, 2 + (W.body m).length) ∧ Kept R.toMessage W.toMessage m v := by
  obtain ⟨v, hv, hval⟩ := decode_compatible R W hc ht hlen rest
  refine ⟨v, hv, fun f hf => ?_⟩
  rw [hval f hf]
  by_cases hw : f ∈ W.written m
  · rw [if_pos hw, if_pos (List.mem_map_of_mem hw)]
  · rw [if_neg hw, if_neg]
    intro hmem
    obtain ⟨g, hg, htag⟩ := List.mem_map.1 hmem
    rw [hc.field_eq hf (written_sub _ m hg) htag.symm] at hw
    exact hw hg

theorem encode_read {s : Message} (h : s.encode m buf len = (buf', some n)) :
    n = 2 + (s.body m).length ∧ buf'.read 0 n = leBytes 2 (s.body m).length ++ s.body m := by
  by_cases hfit : s.written m = [] ∨ 2 + (s.body m).length ≤ len
  · rw [encode_fit buf hfit] at h
    cases h
    have := buf.read_write_self 0 (leBytes 2 (s.body m).length ++ s.body m)
    rw [List.length_append, length_leBytes] at this
    exact ⟨rfl, this⟩
  · push Not at hfit
    have := encode_full buf hfit.1 hfit.2
    rw [h] at this
    cases this

/-- The same on what the writer's encoder left in its buffer. -/
theorem decode_encoded (hc : Compatible R.toMessage W.toMessage) (ht : W.Typed m)
    (hlen : (W.body m).length < 65536) (he : W.encode m buf len = (buf', some n))
    (rest : List UInt8) : ∃ v, R.decode (buf'.read 0 n ++ rest) = .ok (v, n) ∧
      Kept R.toMessage W.toMessage m v := by
  obtain ⟨rfl, hread⟩ := encode_read he
  rw [hread]
  exact decode_kept hc ht hlen rest

end

/-! ## Streams of messages -/

/-- A message that was written to a stream: its dispatch line, its value, and what the encoder of the
line left in a buffer for it. -/
structure Sent where
  entry : Entry
  msg : Values
  bytes : List UInt8
  typed : entry.schema.Typed msg
  short : (entry.schema.body msg).length < 65536
  encoded : ∃ buf len buf' n, entry.encode msg buf len = (buf', some n) ∧ bytes = buf'.read 0 n

/-- A reader calls `D_decode` on what is left until nothing is, at most `fuel` times. -/
def Dispatch.walk (d : Dispatch) : Nat → List UInt8 → Except Stop (List (Decoded × Nat))
  | _, [] => .ok []
  | 0, _ :: _ => .error .fault
  | fuel + 1, b :: l => do
    let (m, n) ← d.decode (b :: l)
    let ms ← d.walk fuel ((b :: l).drop n)
    return ((m, n) :: ms)

/-- The reader's lines are versions of the message, if they have its tag. -/
def Dispatch.Versions (d : Dispatch) (w : Sent) : Prop :=
  ∀ e ∈ d.entries, e.tag = w.entry.tag → Extends e.schema.toMessage w.entry.schema.toMessage ∨
    Extends w.entry.schema.toMessage e.schema.toMessage

/-- What the reader reports of a message: its exact length, and `NONE` for a tag it does not know,
or the tag with what was written of the fields it knows. -/
def Dispatch.Reports (d : Dispatch) (w : Sent) (r : Decoded × Nat) : Prop :=
  r.2 = w.bytes.length ∧
  ((∀ e ∈ d.entries, e.tag ≠ w.entry.tag) → r.1 = ⟨0, none⟩) ∧
  ∀ e ∈ d.entries, e.tag = w.entry.tag → ∃ v, r.1 = ⟨w.entry.tag, some v⟩ ∧
    Kept e.schema.toMessage w.entry.schema.toMessage w.msg v

section
variable {d : Dispatch}

/-- A dispatch message is its tag and the message. -/
theorem Sent.bytes_eq (w : Sent) : w.bytes = w.entry.tag ::
    (leBytes 2 (w.entry.schema.body w.msg).length ++ w.entry.schema.body w.msg) := by
  obtain ⟨buf, len, buf', n, he, hb⟩ := w.encoded
  unfold Entry.encode at he
  split at he
  · cases he
  · cases hr : w.entry.schema.encode w.msg buf.tail (len - 1) with
    | mk b o =>
    rw [hr, Prod.mk.injEq] at he
    obtain ⟨rfl, hn⟩ := he
    obtain ⟨k, rfl, rfl⟩ := Option.map_eq_some_iff.1 hn
    rw [hb, Mem.read_cons, (encode_read hr).2]

/-- A message the reader does not know is stepped over by its length. -/
theorem decode_unknown {tag : UInt8} (hno : ∀ e ∈ d.entries, e.tag ≠ tag) {body : List UInt8}
    (hlen : body.length < 65536) (rest : List UInt8) :
    d.decode (tag :: (leBytes 2 body.length ++ body) ++ rest) =
      .ok (⟨0, none⟩, body.length + 3) := by
  have hfind : (d.entries.find? fun e => e.tag = tag) = none :=
    List.find?_eq_none.2 fun e he => by simpa using hno e he
  generalize hbuf : tag :: (leBytes 2 body.length ++ body) ++ rest = buf
  have hl : buf.length = body.length + 3 + rest.length := by
    rw [← hbuf]
    simp only [List.length_append, List.length_cons, length_leBytes]
    omega
  have htag : Checked.byteAt buf 0 = .ok tag := by
    rw [← hbuf]
    rfl
  have hpre : Checked.bytesFrom buf 1 2 = .ok (leBytes 2 body.length) := by
    rw [Checked.bytesFrom, if_pos (by omega), ← hbuf, List.cons_append, List.drop_one,
      List.tail_cons, List.append_assoc, List.take_left' (length_leBytes ..)]
  have hval : leVal (leBytes 2 body.length) = body.length := by
    rw [leVal_leBytes, Nat.mod_eq_of_lt (by omega)]
  unfold Dispatch.decode
  rw [if_neg (by omega), htag]
  simp only [bind, Except.bind, hfind]
  rw [if_neg (by omega), hpre]
  simp only [hval]
  rw [if_neg (by omega)]
  rfl

/-- **One call of the reader**: it reports the message at the front of the stream. -/
theorem decode_sent (w : Sent) (hv : d.Versions w) (rest : List UInt8) :
    ∃ r, d.decode (w.bytes ++ rest) = .ok r ∧ d.Reports w r := by
  have hlen : w.bytes.length = (w.entry.schema.body w.msg).length + 3 := by
    rw [w.bytes_eq]
    simp only [List.length_append, List.length_cons, length_leBytes]
    omega
  by_cases hno : ∀ e ∈ d.entries, e.tag ≠ w.entry.tag
  · have := decode_unknown hno w.short rest
    rw [← w.bytes_eq] at this
    exact ⟨_, this, hlen.symm, fun _ => rfl, fun e he ht => absurd ht (hno e he)⟩
  · push Not at hno
    obtain ⟨e, he, htag⟩ := hno
    have hc : Compatible e.schema.toMessage w.entry.schema.toMessage := by
      rcases hv e he htag with h | h
      · exact h.compatible.1
      · exact h.compatible.2
    obtain ⟨v, hdec, hk⟩ := decode_kept hc w.typed w.short rest
    refine ⟨(⟨w.entry.tag, some v⟩, w.bytes.length), ?_, rfl, fun hno => absurd htag (hno e he),
      fun e' he' htag' => ⟨v, rfl, ?_⟩⟩
    · rw [w.bytes_eq, List.cons_append, List.length_cons, ← htag]
      refine (decode_known he).2 (hdec.trans ?_)
      rw [List.length_append, length_leBytes]
    · rw [List.inj_on_of_nodup_map d.unique he' he (htag'.trans htag.symm)]
      exact hk

/-- **The walk over a stream**: the reader reports every message, in order. -/
theorem walk_sent : ∀ sent : List Sent, (∀ w ∈ sent, d.Versions w) →
    ∃ out, d.walk sent.length (sent.flatMap Sent.bytes) = .ok out ∧
      List.Forall₂ d.Reports sent out
  | [], _ => ⟨[], rfl, .nil⟩
  | w :: sent, h => by
    obtain ⟨out, hout, hall⟩ := walk_sent sent fun v hv => h v (.tail _ hv)
    obtain ⟨r, hr, hrep⟩ := decode_sent w (h w (.head _)) (sent.flatMap Sent.bytes)
    refine ⟨r :: out, ?_, .cons hrep hall⟩
    have hdrop : (w.bytes ++ sent.flatMap Sent.bytes).drop r.2 = sent.flatMap Sent.bytes :=
      List.drop_left' hrep.1.symm
    rw [List.flatMap_cons, List.length_cons]
    rw [w.bytes_eq] at hr hdrop ⊢
    rw [List.cons_append] at hr hdrop ⊢
    simp only [Dispatch.walk, hr, bind, Except.bind, hdrop, hout, pure, Except.pure]

end

/-! ## Both directions -/

/-- A reader takes what the writer's encoder left of any message: all of its bytes, the fields it
knows, and zero in those the writer does not have. -/
def Reads (R W : Schema) : Prop :=
  ∀ m, W.Typed m → (W.body m).length ≤ 65535 →
    ∀ buf len buf' n, W.encode m buf len = (buf', some n) →
      ∀ rest, ∃ v, R.decode (buf'.read 0 n ++ rest) = .ok (v, n) ∧
        Kept R.toMessage W.toMessage m v ∧ ∀ f ∈ R.fields, f ∉ W.fields → v f.tag = f.ty.zero

theorem reads_of_compatible {R W : Schema} (hc : Compatible R.toMessage W.toMessage) :
    Reads R W := by
  intro m ht hlen buf len buf' n he rest
  obtain ⟨v, hv, hk⟩ := decode_encoded hc ht (by omega) he rest
  refine ⟨v, hv, hk, fun f hf hnew => ?_⟩
  rw [hk f hf, if_neg fun hw => hnew (written_sub W.toMessage m hw)]

/-- **Schemas evolve**: an earlier version reads of a later one the fields it knows, a later version
reads an earlier one with the added fields zero, and a dispatch decoder walks any stream of versions
and of messages it does not know. -/
theorem schemas_evolve {S S' : Schema} (h : Extends S.toMessage S'.toMessage) (d : Dispatch)
    {sent : List Sent} (hv : ∀ w ∈ sent, d.Versions w) :
    Reads S S' ∧ Reads S' S ∧
    ∃ out, d.walk sent.length (sent.flatMap Sent.bytes) = .ok out ∧
      List.Forall₂ d.Reports sent out :=
  ⟨reads_of_compatible h.compatible.1, reads_of_compatible h.compatible.2, walk_sent sent hv⟩

/-- A later version of `blobSchema`, with a variant. -/
def caseSchema : Schema :=
  ⟨⟨[⟨.bytes, 1⟩], some ⟨⟨.enum, 2⟩, [⟨3, [⟨.uint32, 4⟩]⟩]⟩⟩,
    ⟨by decide, by decide, by rintro _ ⟨⟩; decide, by rintro _ ⟨⟩; decide⟩⟩

/-- A message of the later version, with its variant. -/
def caseValues : Values := fun n => if n = 1 then .blob [5] else if n = 2 then .u8 3 else .u32 9

theorem case_typed : caseSchema.Typed caseValues := by
  intro f hf
  have : f = ⟨.bytes, 1⟩ ∨ f = ⟨.enum, 2⟩ ∨ f = ⟨.uint32, 4⟩ := by
    simpa [caseSchema, Message.fields] using hf
  rcases this with rfl | rfl | rfl
  · exact (by decide : [(5 : UInt8)].length < 65536)
  · trivial
  · trivial

theorem case_body : (caseSchema.body caseValues).length = 11 := by decide

/-- The message under a tag. -/
def caseSent (tag : UInt8) : Sent where
  entry := ⟨tag, caseSchema⟩
  msg := caseValues
  bytes := (((⟨tag, caseSchema⟩ : Entry).encode caseValues clearedBuf 32).1).read 0 14
  typed := case_typed
  short := by
    rw [case_body]
    decide
  encoded := ⟨clearedBuf, 32, _, 14, rfl, rfl⟩

/-- A reader of the earlier version, on a message of the later one and on one it does not know. -/
theorem schemas_evolve_case :
    Reads blobSchema caseSchema ∧ Reads caseSchema blobSchema ∧
    ∃ out, blobDispatch.walk [caseSent 7, caseSent 9].length
        ([caseSent 7, caseSent 9].flatMap Sent.bytes) = .ok out ∧
      List.Forall₂ blobDispatch.Reports [caseSent 7, caseSent 9] out := by
  have hext : Extends blobSchema.toMessage caseSchema.toMessage := by
    unfold Extends
    decide
  refine schemas_evolve hext blobDispatch fun w hw e he htag => .inl ?_
  obtain rfl : e = ⟨7, blobSchema⟩ := by simpa [blobDispatch] using he
  rcases List.mem_cons.1 hw with rfl | hw
  · exact hext
  · obtain rfl : w = caseSent 9 := by simpa using hw
    exact hext

end Netchan.Idl
