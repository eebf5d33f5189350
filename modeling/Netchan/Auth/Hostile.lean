import Netchan.Auth.Decoder
import Mathlib.Data.List.Forall2

/-!
# Hostile forms

The decoder on whatever bytes the peer sends.

* `At`: a NUL-terminated string stands at a pointer, below an end.
* `unpackLoop_refines`: the strings of a run stand one after the other in the buffer.
* `walk_eq`: a walk over them visits each one and stops at their end.
* `fillStep_refines`: the indices of the filling loop stay below the counts of the first pass, and
  what it stores points to strings.
* `decodeForm_refines`, `decodeAnswers_refines`: the decoders in memory do what the decoders on
  values do, and nothing else.
* `form_decoder_safe`: no fault on any message with any buffer.
-/

namespace Netchan.Auth.Checked

open Lib Idl

/-! ## Strings in the buffer -/

/-- The string stands at the pointer, with its NUL below `stop`. -/
def At (b : Buffer) (stop p : Nat) (s : CStr) : Prop :=
  p + s.val.length < stop ∧ b.mem.read p (s.val.length + 1) = s.val ++ [0]

/-- The strings, each with its NUL. -/
def fill (ss : List CStr) : List UInt8 := ss.flatMap fun s => s.val ++ [0]

/-- `f` along strings that stand one after the other from `p` on. -/
def foldAt {σ : Type} (f : σ → Nat → CStr → Except Stop σ) : σ → Nat → List CStr → Except Stop σ
  | st, _, [] => .ok st
  | st, p, s :: ss => do
    let st ← f st p s
    foldAt f st (p + s.val.length + 1) ss

section
variable {b : Buffer} {stop p : Nat} {s v : CStr}

theorem read_head {m : Mem} {n : Nat} {c : UInt8} {l : List UInt8} (h : m.read p (n + 1) = c :: l) :
    m p = c ∧ m.read (p + 1) n = l := by
  rw [Nat.add_comm n 1, ← Mem.read_append] at h
  obtain ⟨h1, h2⟩ := List.append_inj h (by simp : _ = [c].length)
  refine ⟨?_, h2⟩
  simpa [Mem.read] using h1

theorem load_eq (h : p < b.cap) : b.load p = .ok (b.mem p) := if_pos h

theorem scan_eq : ∀ {s : List UInt8} (hs : 0 ∉ s) {n p : Nat}, s.length < n → p + s.length < b.cap →
    b.mem.read p (s.length + 1) = s ++ [0] → b.scan n p = .ok ⟨s, hs⟩
  | [], hs, n + 1, p, hn, hp, h => by
    obtain ⟨h0, -⟩ := read_head h
    rw [Buffer.scan, load_eq (p := p) hp, h0]
    rfl
  | c :: s, hs, n + 1, p, hn, hp, h => by
    obtain ⟨h0, hrest⟩ := read_head h
    rw [List.length_cons] at hn hp
    have hc : c ≠ 0 := fun h => hs (h ▸ .head _)
    have ih : b.scan n (p + 1) = .ok ⟨s, fun h => hs (.tail _ h)⟩ :=
      scan_eq _ (by omega) (by omega) hrest
    rw [Buffer.scan, load_eq (by omega), h0]
    simp only [bind, Except.bind, dif_neg hc, ih]
    rfl

/-- **A string that stands in the buffer is read back**, and nothing beyond its NUL. -/
theorem At.cstr (h : At b stop p s) (hcap : stop ≤ b.cap) : b.cstr p = .ok s := by
  obtain ⟨hp, hread⟩ := h
  exact scan_eq s.property (by omega) (by omega) hread

theorem keyOf_eq {key : Attr} (h : keyOf s key = some v) :
    key.bytes.length < s.val.length ∧ v.val = s.val.drop (key.bytes.length + 1) ∧
      s.val.take key.bytes.length = key.bytes := by
  unfold keyOf at h
  dsimp only at h
  split at h
  · rename_i hk
    cases h
    refine ⟨?_, rfl, hk.1⟩
    by_contra hlt
    have := hk.2
    rw [byte, List.getD_eq_getElem?_getD, List.getElem?_eq_none (by omega)] at this
    exact absurd this (by decide)
  · cases h

theorem At.value {key : Attr} (h : At b stop p s) (hk : keyOf s key = some v) :
    At b stop (p + key.bytes.length + 1) v := by
  obtain ⟨hp, hread⟩ := h
  obtain ⟨hlt, hv, -⟩ := keyOf_eq hk
  have hlen : v.val.length = s.val.length - (key.bytes.length + 1) := by
    rw [hv, List.length_drop]
  refine ⟨by omega, ?_⟩
  have hin := b.mem.read_inside p
    (show key.bytes.length + 1 + (v.val.length + 1) ≤ s.val.length + 1 by omega)
  rw [Nat.add_assoc, hin, hread, List.drop_append_of_le_length (by omega), ← hv]
  exact List.take_of_length_le (by simp)

theorem fill_cons {ss : List CStr}
    (h : b.mem.read p (fill (s :: ss)).length = fill (s :: ss)) :
    (fill (s :: ss)).length = s.val.length + 1 + (fill ss).length ∧
      b.mem.read p (s.val.length + 1) = s.val ++ [0] ∧
      b.mem.read (p + s.val.length + 1) (fill ss).length = fill ss := by
  have hfill : fill (s :: ss) = (s.val ++ [0]) ++ fill ss := List.flatMap_cons
  have hlen : (s.val ++ [0]).length = s.val.length + 1 := by simp
  rw [hfill, List.length_append, hlen] at h ⊢
  rw [← Mem.read_append] at h
  obtain ⟨h1, h2⟩ := List.append_inj h (by rw [Mem.length_read, hlen])
  exact ⟨rfl, h1, h2⟩

/-- **A walk visits the strings of a region** and stops at its end. -/
theorem walk_eq {σ : Type} {f : σ → Nat → CStr → Except Stop σ} (hcap : stop ≤ b.cap) :
    ∀ {ss : List CStr} {n p : Nat} {st : σ}, b.mem.read p (fill ss).length = fill ss →
      p + (fill ss).length = stop → ss.length ≤ n → b.walk stop f n st p = foldAt f st p ss
  | [], n, p, st, _, hp, _ => by
    have hp : p = stop := hp
    cases n with
    | zero => exact if_pos hp
    | succ n =>
      rw [Buffer.walk, if_neg (by omega), if_pos hp]
      rfl
  | s :: ss, 0, p, st, h, hp, hn => absurd hn (Nat.not_succ_le_zero _)
  | s :: ss, n + 1, p, st, h, hp, hn => by
    obtain ⟨hlen, h1, h2⟩ := fill_cons h
    have hat : At b stop p s := ⟨by omega, h1⟩
    rw [Buffer.walk, if_pos (by omega), hat.cstr hcap]
    simp only [bind, Except.bind, foldAt]
    cases hf : f st p s with
    | error e => rfl
    | ok st' =>
      exact walk_eq hcap h2 (by omega) (by rw [List.length_cons] at hn; omega)

end

/-! ## The arena -/

/-- The arena in memory and the arena of values; outside of the buffer, memory is as it was. -/
structure Same (b : Buffer) (ar : Arena) (va : Auth.Arena) : Prop where
  size : ar.buf.cap = b.cap
  cap : va.cap = ar.buf.cap
  used : va.used = ar.used
  text : ar.buf.mem.read 0 ar.used = va.text
  fits : ar.used ≤ ar.buf.cap
  outside : ∀ x, ar.buf.cap ≤ x → ar.buf.mem x = b.mem x

section
variable {b : Buffer} {ar : Arena} {va : Auth.Arena}

theorem Same.length (h : Same b ar va) : va.text.length = ar.used := by
  rw [← h.text, Mem.length_read]

theorem read_write_prefix (m : Mem) {p n : Nat} (d : List UInt8) (h : n ≤ p) :
    (m.write p d).read 0 n = m.read 0 n :=
  Mem.read_congr fun x _ hx => m.write_outside (.inl (by omega))

/-- `arena_str` writes inside the buffer, behind what is there. -/
theorem arenaStr_same (h : Same b ar va) (s : List UInt8) :
    match Auth.arenaStr va s with
    | none => arenaStr ar s = .ok (none, ar)
    | some va' => va'.text = va.text ++ (s ++ [0]) ∧
        ∃ ar', arenaStr ar s = .ok (some ar.used, ar') ∧ Same b ar' va' := by
  unfold Auth.arenaStr arenaStr
  rw [h.cap, h.used]
  by_cases hfull : ar.used + s.length + 1 > ar.buf.cap
  · rw [if_pos hfull, if_pos hfull]
  · rw [if_neg hfull, if_neg hfull]
    have hwrite := ar.buf.mem.write_append ar.used s [0]
    have hs1 : ar.buf.store ar.used s = .ok ⟨ar.buf.mem.write ar.used s, ar.buf.cap⟩ :=
      if_pos (by omega)
    have hs2 : Buffer.store ⟨ar.buf.mem.write ar.used s, ar.buf.cap⟩ (ar.used + s.length) [0] =
        .ok ⟨ar.buf.mem.write ar.used (s ++ [0]), ar.buf.cap⟩ := by
      rw [← hwrite]
      exact if_pos (by simp only [List.length_singleton]; omega)
    refine ⟨rfl, ⟨⟨ar.buf.mem.write ar.used (s ++ [0]), ar.buf.cap⟩, ar.used + s.length + 1⟩, ?_, ?_⟩
    · rw [hs1]
      simp only [bind, Except.bind, hs2]
      rfl
    · refine ⟨h.size, rfl, rfl, ?_, by dsimp only; omega, fun x hx => ?_⟩
      · have hread := ar.buf.mem.read_write_self ar.used (s ++ [0])
        have hlen : (s ++ [0]).length = s.length + 1 := by simp
        have happ := (ar.buf.mem.write ar.used (s ++ [0])).read_append 0 ar.used (s.length + 1)
        rw [hlen] at hread
        rw [Nat.zero_add, hread, read_write_prefix _ _ (Nat.le_refl _), h.text] at happ
        exact happ.symm
      · dsimp only at hx ⊢
        rw [Mem.write_outside _ (by simp only [List.length_append, List.length_singleton]; omega)]
        exact h.outside x hx

/-- **`unpack`**: it stays inside the run and the buffer, and ends. -/
theorem unpackLoop_refines (src : List UInt8) : ∀ {n : Nat} {ar : Arena} {va : Auth.Arena}
    {pos : Nat}, Same b ar va → src.length ≤ pos + n →
      Refines (fun ar' va' => Same b ar' va' ∧ ∃ r, Terminated r ∧ va'.text = va.text ++ r)
        (unpackLoop src n ar pos) (Auth.unpackLoop n va (src.drop pos))
  | 0, ar, va, pos, h, hn => by
    rw [List.drop_eq_nil_of_le (by omega), unpackLoop, if_neg (by omega), Auth.unpackLoop]
    exact ⟨ar, rfl, h, [], .inl rfl, (List.append_nil _).symm⟩
  | n + 1, ar, va, pos, h, hn => by
    rw [unpackLoop]
    by_cases hpos : pos < src.length
    · rw [if_pos hpos]
      by_cases htwo : pos + 2 > src.length
      · have hone : src.drop pos = [src[pos]] := by
          rw [List.drop_eq_getElem_cons hpos, List.drop_eq_nil_of_le (by omega)]
        rw [if_pos htwo, hone]
        rfl
      · have hpos1 : pos + 1 < src.length := by omega
        have hdrop : src.drop pos = byte src pos :: byte src (pos + 1) :: src.drop (pos + 2) := by
          rw [List.drop_eq_getElem_cons hpos, List.drop_eq_getElem_cons hpos1]
          simp [byte, List.getElem?_eq_getElem hpos, List.getElem?_eq_getElem hpos1]
        rw [if_neg htwo, bytesFrom_two (by omega), hdrop, Auth.unpackLoop]
        simp only [bind, Except.bind, leVal_two, List.length_drop]
        generalize rdLe16 (byte src pos) (byte src (pos + 1)) = slen
        by_cases hlong : pos + 2 + slen > src.length
        · rw [if_pos hlong, if_pos (by omega)]
          rfl
        · have hbytes : Checked.bytesFrom src (pos + 2) slen = .ok ((src.drop (pos + 2)).take slen) :=
            if_pos (by omega)
          rw [if_neg hlong, if_neg (by omega), hbytes]
          dsimp only
          have hstr := arenaStr_same h ((src.drop (pos + 2)).take slen)
          cases hva : Auth.arenaStr va ((src.drop (pos + 2)).take slen) with
          | none =>
            rw [hva] at hstr
            rw [show arenaStr ar _ = _ from hstr]
            rfl
          | some va' =>
            rw [hva] at hstr
            obtain ⟨htext, ar', har, hsame⟩ := hstr
            rw [har]
            dsimp only
            rw [List.drop_drop]
            refine (unpackLoop_refines src hsame (by omega)).mono fun ar₁ va₁ hr => ?_
            obtain ⟨h₁, r, hr, htext₁⟩ := hr
            have hterm := Terminated.append (.inr ⟨(src.drop (pos + 2)).take slen, rfl⟩) hr
            exact ⟨h₁, _, hterm, by rw [htext₁, htext, List.append_assoc]⟩
    · rw [if_neg hpos, List.drop_eq_nil_of_le (by omega), Auth.unpackLoop]
      exact ⟨ar, rfl, h, [], .inl rfl, (List.append_nil _).symm⟩

end

/-! ## The two passes -/

/-- A pointer to a string, or `NULL`. -/
def Points (b : Buffer) (stop : Nat) : Option Nat → Option CStr → Prop
  | none, none => True
  | some p, some s => At b stop p s
  | _, _ => False

/-- The string members of a field. -/
def FieldRec.strings (fl : FieldRec) : List (Option Nat) :=
  [fl.name, fl.label, fl.value, fl.pattern, fl.error]

/-- The options of a field, in the array of options. -/
def FieldRec.choices (fl : FieldRec) (opts : List (Option Nat)) : List (Option Nat) :=
  match fl.options with
  | none => []
  | some o => (opts.drop o).take fl.noptions

/-- The record in memory is the field: its strings are behind its pointers. -/
structure Shows (b : Buffer) (stop : Nat) (opts : List (Option Nat)) (r : FieldRec) (fl : Field) :
    Prop where
  type : r.type = fl.type
  flags : r.flags = fl.flags
  size : r.size = fl.size
  maxlength : r.maxlength = fl.maxlength
  min : r.min = fl.min
  max : r.max = fl.max
  strings : List.Forall₂ (Points b stop) r.strings
    [fl.name, fl.label, fl.value, fl.pattern, fl.error]
  choices : List.Forall₂ (Points b stop) (r.choices opts) fl.options
  noptions : r.noptions = fl.options.length
  room : ∀ o, r.options = some o → o + r.noptions ≤ opts.length

/-- The fields so far: those that are complete, and the one at `fi`. Its options are the last ones. -/
inductive Current (b : Buffer) (stop : Nat) (opts : List (Option Nat)) (fields : List FieldRec) :
    Option Nat → List Field → Option Field → Prop
  | before : Current b stop opts fields none [] none
  | within {i : Nat} {done : List Field} {r : FieldRec} {fl : Field} :
    List.Forall₂ (Shows b stop opts) (fields.take i) done → fields[i]? = some r →
      Shows b stop opts r fl → (∀ o, r.options = some o → o + r.noptions = opts.length) →
      Current b stop opts fields (some i) done (some fl)

/-- **The invariant of the filling loop**, with the strings that are still to come: the arrays have
the counts `n` and room for what these strings need, and hold what the loop over values holds. -/
structure Fills (b : Buffer) (stop : Nat) (n : Nat × Nat × Nat) (st : Filling) (fi : Fill)
    (ss : List CStr) : Prop where
  sizes : (st.fields.length, st.errors.length, st.opts.length) = n
  fields : st.next + (countRecords ss).1 = st.fields.length
  errors : st.ei + (countRecords ss).2.1 ≤ st.errors.length
  opts : st.oi + (countRecords ss).2.2 ≤ st.opts.length
  current : Current b stop (st.opts.take st.oi) st.fields st.fi fi.done fi.cur
  shown : List.Forall₂ (fun r e => Points b stop r.name e.name ∧ Points b stop r.message e.message)
    (st.errors.take st.ei) fi.errors

section
variable {b : Buffer} {stop p : Nat} {n : Nat × Nat × Nat} {s v : CStr}

theorem foldAt_count (c : Nat × Nat × Nat) (p : Nat) (ss : List CStr) :
    foldAt countStep c p ss = .ok (c.1 + (countRecords ss).1, c.2.1 + (countRecords ss).2.1,
      c.2.2 + (countRecords ss).2.2) := by
  induction ss generalizing c p with
  | nil => rfl
  | cons s ss ih =>
    obtain ⟨nf, ne, nopt⟩ := c
    simp only [foldAt, countStep, countRecords]
    generalize countRecords ss = t at ih
    obtain ⟨nf', ne', nopt'⟩ := t
    dsimp only at ih ⊢
    split
    · simp only [bind, Except.bind, ih, Nat.add_assoc, Nat.add_comm 1]
    · split
      · simp only [bind, Except.bind, ih, Nat.add_assoc, Nat.add_comm 1]
      · split
        · simp only [bind, Except.bind, ih, Nat.add_assoc, Nat.add_comm 1]
        · simp only [bind, Except.bind, ih]

/-- A record is an error or an option, not both. -/
theorem keyOf_option (h : (keyOf s .option).isSome) : keyOf s .error = none := by
  obtain ⟨v, hv⟩ := Option.isSome_iff_exists.1 h
  cases he : keyOf s .error with
  | none => rfl
  | some w =>
    have h1 := (keyOf_eq hv).2.2
    have h2 := (keyOf_eq he).2.2
    have : chars ['o'] = chars ['e'] := h1.symm.trans h2
    exact absurd this (by decide)

theorem Shows.mono {opts more : List (Option Nat)} {r : FieldRec} {fl : Field}
    (h : Shows b stop opts r fl) : Shows b stop (opts ++ more) r fl := by
  have hroom := h.room
  have hch : r.choices (opts ++ more) = r.choices opts := by
    unfold FieldRec.choices
    cases ho : r.options with
    | none => rfl
    | some o =>
      have := hroom o ho
      dsimp only
      rw [List.drop_append_of_le_length (by omega), List.take_append_of_le_length]
      rw [List.length_drop]
      omega
  refine { h with choices := hch ▸ h.choices, room := fun o ho => ?_ }
  have := hroom o ho
  rw [List.length_append]
  omega

theorem points_value {key : Attr} (hat : At b stop p s) (hk : keyOf s key = some v) :
    Points b stop (valueAt p key) (some v) :=
  hat.value hk

/-- An attribute goes to the same member of the record and of the field. -/
theorem setAttr_shows {opts : List (Option Nat)} {r : FieldRec} {fl : Field}
    (h : Shows b stop opts r fl) (hat : At b stop p s) :
    match fl.setAttr s with
    | none => r.setAttr p s = none
    | some fl' => ∃ r', r.setAttr p s = some r' ∧ Shows b stop opts r' fl' ∧
        r'.options = r.options ∧ r'.noptions = r.noptions := by
  obtain ⟨h1, h2, h3, h4, h5, h6, hs, hc, hn, hr⟩ := h
  simp only [FieldRec.strings, List.forall₂_cons] at hs
  obtain ⟨hs1, hs2, hs3, hs4, hs5, hs6⟩ := hs
  unfold Field.setAttr FieldRec.setAttr
  have hstrs := List.Forall₂.cons hs1 (.cons hs2 (.cons hs3 (.cons hs4 (.cons hs5 hs6))))
  cases hk : keyOf s .name with
  | some v =>
    refine ⟨_, rfl, ⟨h1, h2, h3, h4, h5, h6, ?_, hc, hn, hr⟩, rfl, rfl⟩
    exact .cons (points_value hat hk) (.cons hs2 (.cons hs3 (.cons hs4 (.cons hs5 hs6))))
  | none =>
  cases hk : keyOf s .label with
  | some v =>
    refine ⟨_, rfl, ⟨h1, h2, h3, h4, h5, h6, ?_, hc, hn, hr⟩, rfl, rfl⟩
    exact .cons hs1 (.cons (points_value hat hk) (.cons hs3 (.cons hs4 (.cons hs5 hs6))))
  | none =>
  cases hk : keyOf s .value with
  | some v =>
    refine ⟨_, rfl, ⟨h1, h2, h3, h4, h5, h6, ?_, hc, hn, hr⟩, rfl, rfl⟩
    exact .cons hs1 (.cons hs2 (.cons (points_value hat hk) (.cons hs4 (.cons hs5 hs6))))
  | none =>
  cases hk : keyOf s .patt with
  | some v =>
    refine ⟨_, rfl, ⟨h1, h2, h3, h4, h5, h6, ?_, hc, hn, hr⟩, rfl, rfl⟩
    exact .cons hs1 (.cons hs2 (.cons hs3 (.cons (points_value hat hk) (.cons hs5 hs6))))
  | none =>
  cases (keyOf s .size).bind parseI32 with
  | some num => exact ⟨_, rfl, ⟨h1, h2, rfl, h4, h5, h6, hstrs, hc, hn, hr⟩, rfl, rfl⟩
  | none =>
  cases (keyOf s .maxlen).bind parseI32 with
  | some num => exact ⟨_, rfl, ⟨h1, h2, h3, rfl, h5, h6, hstrs, hc, hn, hr⟩, rfl, rfl⟩
  | none =>
  cases (keyOf s .min).bind parseI32 with
  | some num => exact ⟨_, rfl, ⟨h1, h2, h3, h4, rfl, h6, hstrs, hc, hn, hr⟩, rfl, rfl⟩
  | none =>
  cases (keyOf s .max).bind parseI32 with
  | some num => exact ⟨_, rfl, ⟨h1, h2, h3, h4, h5, rfl, hstrs, hc, hn, hr⟩, rfl, rfl⟩
  | none =>
  cases keyOf s .req with
  | some v =>
    refine ⟨_, rfl, ⟨h1, ?_, h3, h4, h5, h6, hstrs, hc, hn, hr⟩, rfl, rfl⟩
    exact congrArg (· ||| ncFfRequired) h2
  | none =>
  cases keyOf s .multi with
  | some v =>
    refine ⟨_, rfl, ⟨h1, ?_, h3, h4, h5, h6, hstrs, hc, hn, hr⟩, rfl, rfl⟩
    exact congrArg (· ||| ncFfMulti) h2
  | none =>
  rfl

theorem setSlot_ok {α : Type} {xs : List α} {i : Nat} (h : i < xs.length) (x : α) :
    setSlot xs i x = .ok (xs.set i x) :=
  if_pos h

theorem countRecords_type (h : (keyOf s .type).isSome) (ss : List CStr) :
    countRecords (s :: ss) =
      ((countRecords ss).1 + 1, (countRecords ss).2.1, (countRecords ss).2.2) := by
  rw [countRecords]
  simp only [h, if_true]

theorem countRecords_attr (h : keyOf s .type = none) (ss : List CStr) :
    (countRecords (s :: ss)).1 = (countRecords ss).1 ∧
    (countRecords (s :: ss)).2.1 =
      (countRecords ss).2.1 + (if (keyOf s .error).isSome then 1 else 0) ∧
    (countRecords (s :: ss)).2.2 = (countRecords ss).2.2 +
      if (keyOf s .error).isSome = false ∧ (keyOf s .option).isSome then 1 else 0 := by
  rw [countRecords, h]
  cases (keyOf s .error).isSome with
  | true => exact ⟨rfl, rfl, rfl⟩
  | false =>
    cases (keyOf s .option).isSome with
    | true => exact ⟨rfl, rfl, rfl⟩
    | false => exact ⟨rfl, rfl, rfl⟩

theorem Current.replace {opts : List (Option Nat)} {fields : List FieldRec} {i : Nat}
    {done : List Field} {r' : FieldRec} {fl' : Field}
    (hdone : List.Forall₂ (Shows b stop opts) (fields.take i) done) (hi : i < fields.length)
    (hr : Shows b stop opts r' fl') (hlast : ∀ o, r'.options = some o → o + r'.noptions = opts.length) :
    Current b stop opts (fields.set i r') (some i) done (some fl') := by
  refine .within ?_ (List.getElem?_set_self hi) hr hlast
  rwa [List.take_set_of_le (Nat.le_refl _)]

theorem Current.started {opts : List (Option Nat)} {st : Filling} {done : List Field}
    {cur : Option Field} (h : Current b stop opts st.fields st.fi done cur) :
    List.Forall₂ (Shows b stop opts) (st.fields.take st.next) (done ++ cur.toList) := by
  unfold Filling.next
  generalize st.fi = fi at h
  cases h with
  | before => exact .nil
  | @within i done r fl hdone hr hs _ =>
    rw [List.take_add_one, hr]
    exact List.rel_append hdone (.cons hs .nil)

theorem fillStep_type {st : Filling} {fi : Fill} {ss : List CStr} (h : Fills b stop n st fi (s :: ss))
    (hk : keyOf s .type = some v) :
    Refines (fun st' fi' => Fills b stop n st' fi' ss) (fillStep st p s) (Auth.fillStep fi s) := by
  obtain ⟨hn, hf, he, ho, hcur, hshown⟩ := h
  rw [countRecords_type (by rw [hk]; rfl)] at hf he ho
  dsimp only at hf he ho
  unfold fillStep Auth.fillStep
  simp only [hk]
  rw [setSlot_ok (by omega)]
  cases hty : typeValue v with
  | none => rfl
  | some ty =>
    refine ⟨_, rfl, by simpa using hn, ?_, he, ho, ?_, hshown⟩
    · change st.next + 1 + (countRecords ss).1 = (st.fields.set _ _).length
      rw [List.length_set]
      omega
    · refine Current.replace hcur.started (by omega) ?_ nofun
      exact ⟨rfl, rfl, rfl, rfl, rfl, rfl, .cons trivial (.cons trivial (.cons trivial
        (.cons trivial (.cons trivial .nil)))), .nil, rfl, nofun⟩

theorem take_set_succ {α : Type} {xs : List α} {i : Nat} (h : i < xs.length) (x : α) :
    (xs.set i x).take (i + 1) = xs.take i ++ [x] := by
  rw [List.take_add_one, List.take_set_of_le (Nat.le_refl _), List.getElem?_set_self h]
  rfl

theorem Shows.option {opts : List (Option Nat)} {r : FieldRec} {fl : Field} {q : Option Nat}
    (h : Shows b stop opts r fl) (hlast : ∀ o, r.options = some o → o + r.noptions = opts.length)
    (hq : Points b stop q (some v)) :
    let r' := { r with options := some (r.options.getD opts.length), noptions := r.noptions + 1 }
    Shows b stop (opts ++ [q]) r' { fl with options := fl.options ++ [some v] } ∧
      ∀ o, r'.options = some o → o + r'.noptions = (opts ++ [q]).length := by
  have hnone : r.options = none → r.noptions = 0 := by
    intro ho
    have hc := h.choices
    rw [FieldRec.choices, ho] at hc
    rw [h.noptions, ← hc.length_eq]
    rfl
  have hstart : r.options.getD opts.length + r.noptions = opts.length := by
    cases ho : r.options with
    | none => rw [Option.getD_none, hnone ho, Nat.add_zero]
    | some o => exact hlast o ho
  have hold : r.choices opts = opts.drop (r.options.getD opts.length) := by
    unfold FieldRec.choices
    cases ho : r.options with
    | none => exact List.drop_length.symm
    | some o =>
      have := hlast o ho
      exact List.take_of_length_le (by rw [List.length_drop]; omega)
  refine ⟨{ h with choices := ?_, noptions := ?_, room := ?_ }, ?_⟩
  · dsimp only [FieldRec.choices]
    rw [List.drop_append_of_le_length (by omega), List.take_of_length_le, ← hold]
    · exact List.rel_append h.choices (.cons hq .nil)
    · rw [List.length_append, List.length_drop, List.length_singleton]
      omega
  · rw [List.length_append, ← h.noptions, List.length_singleton]
  · rintro o ⟨⟩
    rw [List.length_append, List.length_singleton]
    dsimp only
    omega
  · rintro o ⟨⟩
    rw [List.length_append, List.length_singleton]
    dsimp only
    omega

theorem fillAttr_refines {st : Filling} {fi : Fill} {ss : List CStr} {i : Nat} {r : FieldRec}
    {fl : Field} (h : Fills b stop n st fi (s :: ss)) (hat : At b stop p s)
    (hk : keyOf s .type = none) (hfi : st.fi = some i) (hcur : fi.cur = some fl)
    (hr : st.fields[i]? = some r)
    (hdone : List.Forall₂ (Shows b stop (st.opts.take st.oi)) (st.fields.take i) fi.done)
    (hs : Shows b stop (st.opts.take st.oi) r fl)
    (hlast : ∀ o, r.options = some o → o + r.noptions = (st.opts.take st.oi).length) :
    Refines (fun st' fi' => Fills b stop n st' fi' ss) (fillAttr st i r p s) (Auth.fillStep fi s) := by
  obtain ⟨hn, hf, he, ho, -, hshown⟩ := h
  obtain ⟨hc1, hc2, hc3⟩ := countRecords_attr hk ss
  have hi : i < st.fields.length := (List.getElem?_eq_some_iff.1 hr).1
  have hnext : st.next = i + 1 := by rw [Filling.next, hfi]
  rw [hc1] at hf
  rw [hc2] at he
  rw [hc3] at ho
  unfold fillAttr Auth.fillStep
  simp only [hk, hcur]
  have hattr := setAttr_shows hs hat
  cases hset : fl.setAttr s with
  | some fl' =>
    rw [hset] at hattr
    obtain ⟨r', hr', hs', hopt, hnopt⟩ := hattr
    simp only [hr', setSlot_ok hi, bind, Except.bind]
    refine ⟨_, rfl, by simpa using hn, ?_, by dsimp only; omega, by dsimp only; omega, ?_, hshown⟩
    · simpa [Filling.next] using hf
    · dsimp only
      rw [hfi]
      refine Current.replace hdone hi hs' ?_
      rw [hopt, hnopt]
      exact hlast
  | none =>
    rw [hset] at hattr
    simp only [show r.setAttr p s = none from hattr]
    cases hopt : keyOf s .option with
    | some v =>
      have hnerr := keyOf_option (s := s) (by rw [hopt]; rfl)
      rw [hnerr, hopt] at ho
      rw [if_pos ⟨rfl, rfl⟩] at ho
      have hlen : (st.opts.take st.oi).length = st.oi := by
        rw [List.length_take, Nat.min_eq_left (by omega)]
      obtain ⟨hs', hlast'⟩ := hs.option hlast (points_value hat hopt)
      rw [← take_set_succ (by omega), hlen] at hs' hlast'
      simp only [Option.isSome_some, if_true]
      rw [hs.noptions]
      by_cases hmax : fl.options.length ≥ ncFormMaxOptions
      · rw [if_pos hmax, if_pos hmax]
        rfl
      have hdone' : List.Forall₂ (Shows b stop ((st.opts.set st.oi (valueAt p .option)).take
          (st.oi + 1))) (st.fields.take i) fi.done := by
        rw [take_set_succ (by omega)]
        exact hdone.imp fun _ _ h => h.mono
      rw [if_neg hmax, if_neg hmax, setSlot_ok (by omega)]
      simp only [bind, Except.bind, setSlot_ok hi]
      rw [← hs.noptions]
      refine ⟨_, rfl, by simpa using hn, ?_, by dsimp only; omega, ?_, ?_, hshown⟩
      · simpa [Filling.next] using hf
      · simp only [List.length_set]
        omega
      · dsimp only
        rw [hfi]
        exact Current.replace hdone' hi hs' hlast'
    | none =>
      simp only [Option.isSome_none, Bool.false_eq_true, if_false]
      cases herr : keyOf s .error with
      | some v =>
        rw [herr] at he
        rw [Option.isSome_some, if_pos rfl] at he
        simp only [Option.isSome_some, if_true]
        rw [setSlot_ok (by omega)]
        simp only [bind, Except.bind, setSlot_ok hi]
        have hstr := hs.strings
        simp only [FieldRec.strings, List.forall₂_cons] at hstr
        obtain ⟨hs1, hs2, hs3, hs4, hs5, hs6⟩ := hstr
        have hq := points_value hat herr
        refine ⟨_, rfl, by simpa using hn, ?_, ?_, by dsimp only; omega, ?_, ?_⟩
        · simpa [Filling.next] using hf
        · simp only [List.length_set]
          omega
        · dsimp only
          rw [hfi]
          refine Current.replace hdone hi { hs with strings := ?_ } hlast
          exact .cons hs1 (.cons hs2 (.cons hs3 (.cons hs4 (.cons hq hs6))))
        · dsimp only
          rw [take_set_succ (by omega)]
          exact List.rel_append hshown (.cons ⟨hs1, hq⟩ .nil)
      | none =>
        simp only [Option.isSome_none, Bool.false_eq_true, if_false]
        refine ⟨st, rfl, hn, ?_, by omega, by omega, ?_, hshown⟩
        · exact hf
        · rw [hfi, hcur]
          exact .within hdone hr hs hlast

/-- **One string of the filling loop**: no index leaves its array. -/
theorem fillStep_refines {st : Filling} {fi : Fill} {ss : List CStr} (h : Fills b stop n st fi (s :: ss))
    (hat : At b stop p s) :
    Refines (fun st' fi' => Fills b stop n st' fi' ss) (fillStep st p s) (Auth.fillStep fi s) := by
  cases hk : keyOf s .type with
  | some v => exact fillStep_type h hk
  | none =>
    have hcurrent := h.current
    generalize hdone : fi.done = done at hcurrent
    generalize hcur : fi.cur = cur at hcurrent
    generalize hfi : st.fi = i at hcurrent
    cases hcurrent with
    | before =>
      obtain ⟨hc1, hc2, hc3⟩ := countRecords_attr hk ss
      obtain ⟨hn, hf, he, ho, hcu, hshown⟩ := h
      unfold fillStep Auth.fillStep
      simp only [hk, hfi, hcur]
      exact ⟨st, rfl, hn, by omega, by omega, by omega, hcu, hshown⟩
    | within hd hr hs hlast =>
      rw [← hdone] at hd
      have := fillAttr_refines h hat hk hfi hcur hr hd hs hlast
      unfold fillStep
      simp only [hk, hfi, slot, hr, bind, Except.bind]
      exact this

/-- **The filling loop** does what the loop over values does. -/
theorem foldAt_refines : ∀ {ss : List CStr} {st : Filling} {fi : Fill} {p : Nat},
    Fills b stop n st fi ss → b.mem.read p (fill ss).length = fill ss →
    p + (fill ss).length ≤ stop →
      Refines (fun st' fi' => Fills b stop n st' fi' []) (foldAt fillStep st p ss) (fillLoop fi ss)
  | [], st, fi, p, h, _, _ => ⟨st, rfl, h⟩
  | s :: ss, st, fi, p, h, hread, hp => by
    obtain ⟨hlen, h1, h2⟩ := fill_cons hread
    have hat : At b stop p s := ⟨by omega, h1⟩
    have hloop : fillLoop fi (s :: ss) = Auth.fillStep fi s >>= fun fi' => fillLoop fi' ss := by
      rw [fillLoop]
      cases Auth.fillStep fi s <;> rfl
    rw [hloop, foldAt]
    exact (fillStep_refines h hat).bind fun st' fi' h' => foldAt_refines h' h2 (by omega)

end

/-! ## The decoders -/

/-- An array between two ends of the used part. -/
def Placed (used : Nat) (start : Option Nat) (n used' : Nat) : Prop :=
  match start with
  | none => n = 0 ∧ used' = used
  | some q => used ≤ q ∧ q + n = used'

/-- The arrays, with their sizes in bytes, stand one behind the other in the buffer. -/
def LaidOut (cap : Nat) : Nat → List (Option Nat × Nat) → Prop
  | used, [] => used ≤ cap
  | used, (start, n) :: rest => ∃ used', Placed used start n used' ∧ LaidOut cap used' rest

def Decoded.arrays (r : Decoded) : List (Option Nat × Nat) :=
  [(r.fieldsAt, r.fields.length * sizeofField), (r.errorsAt, r.errors.length * sizeofError),
    (r.optsAt, r.opts.length * sizeofPtr)]

/-- The form in memory is the form. -/
structure Decoded.Shows (r : Decoded) (f : Form) : Prop where
  title : Points r.buf r.strings r.title f.title
  note : Points r.buf r.strings r.note f.note
  fields : List.Forall₂ (Checked.Shows r.buf r.strings r.opts) r.fields f.fields
  errors : List.Forall₂ (fun q e => Points r.buf r.strings q.name e.name ∧
    Points r.buf r.strings q.message e.message) (r.errors.take r.nerrors) f.errors

/-- A decoded form and the buffer `b` it was decoded into: the strings and, behind them, the arrays
stand in the buffer, and memory outside of it is as it was. -/
structure Decoded.Within (b : Buffer) (r : Decoded) (f : Form × List UInt8) : Prop where
  shows : r.Shows f.1
  text : r.buf.mem.read 0 r.strings = f.2
  cap : r.buf.cap = b.cap
  fits : r.strings ≤ b.cap
  outside : ∀ x, b.cap ≤ x → r.buf.mem x = b.mem x
  laid : LaidOut b.cap r.strings r.arrays

/-- `Auth.decodeForm` from the counting pass on. -/
def recordsOf (va : Auth.Arena) (recs : Nat) (title note : Option CStr) :
    Option (Form × List UInt8) := do
  let strs := cstrs (va.text.drop recs)
  let (nf, ne, nopt) := countRecords strs
  if nf > ncFormMaxFields then none
  else
    let ar' ← carve va nf sizeofField
    let ar' ← carve ar' ne sizeofError
    let _ ← carve ar' nopt sizeofPtr
    let fi ← fillLoop {} strs
    some ({ title, note, fields := fi.done ++ fi.cur.toList
            errors := fi.errors.take (fi.errors.length % 256) }, va.text)

section
variable {b : Buffer} {ar : Arena} {va : Auth.Arena}

theorem carve_same (hcap : va.cap = ar.buf.cap) (hused : va.used = ar.used)
    (hfits : ar.used ≤ ar.buf.cap) (count size : Nat) :
    let r := arenaArray ar count size
    match carve va count size with
    | none => count ≠ 0 ∧ r.1 = none
    | some va' => ¬ (count ≠ 0 ∧ r.1 = none) ∧ r.2.buf = ar.buf ∧ va'.cap = ar.buf.cap ∧
        va'.used = r.2.used ∧ r.2.used ≤ ar.buf.cap ∧ Placed ar.used r.1 (count * size) r.2.used := by
  have hval : Auth.arenaArray va count size =
      if count = 0 then none
      else if (ar.used + 7) / 8 * 8 + count * size > ar.buf.cap ∨ count > ar.buf.cap / size then none
      else some { va with used := (ar.used + 7) / 8 * 8 + count * size } := by
    rw [Auth.arenaArray, hcap, hused]
  dsimp only
  by_cases h0 : count = 0
  · have harr : arenaArray ar count size = (none, ar) := if_pos h0
    rw [carve, hval, if_pos h0, harr]
    subst h0
    exact ⟨by simp, rfl, hcap, hused, hfits, Nat.zero_mul size, rfl⟩
  rw [if_neg h0] at hval
  by_cases hfull : (ar.used + 7) / 8 * 8 + count * size > ar.buf.cap ∨ count > ar.buf.cap / size
  · have harr : arenaArray ar count size = (none, ar) := by
      rw [arenaArray, if_neg h0, if_pos hfull]
    rw [carve, hval, if_pos hfull, harr]
    dsimp only
    rw [if_neg h0]
    exact ⟨h0, rfl⟩
  · have harr : arenaArray ar count size = (some ((ar.used + 7) / 8 * 8),
        { ar with used := (ar.used + 7) / 8 * 8 + count * size }) := by
      rw [arenaArray, if_neg h0, if_neg hfull]
    rw [carve, hval, if_neg hfull, harr]
    exact ⟨by simp, rfl, hcap, rfl, by dsimp only; omega, by omega, rfl⟩

theorem length_le_fill (ss : List CStr) : ss.length ≤ (fill ss).length := by
  induction ss with
  | nil => exact Nat.le_refl _
  | cons s ss ih =>
    rw [fill, List.flatMap_cons, List.length_append, List.length_append, List.length_cons]
    have : (ss.flatMap fun s => s.val ++ [0]) = fill ss := rfl
    rw [this, List.length_singleton]
    omega

theorem fills_start (b : Buffer) (stop : Nat) (junk : Junk) (ss : List CStr) :
    Fills b stop (countRecords ss)
      { fields := .replicate (countRecords ss).1 junk.field
        errors := .replicate (countRecords ss).2.1 junk.error
        opts := .replicate (countRecords ss).2.2 junk.option } {} ss where
  sizes := by
    simp only [List.length_replicate]
  fields := by
    rw [List.length_replicate]
    exact Nat.zero_add _
  errors := by
    rw [List.length_replicate, Nat.zero_add]
  opts := by
    rw [List.length_replicate, Nat.zero_add]
  current := .before
  shown := .nil

theorem Fills.finished {b : Buffer} {stop : Nat} {n : Nat × Nat × Nat} {st : Filling} {fi : Fill}
    (h : Fills b stop n st fi []) :
    List.Forall₂ (Shows b stop st.opts) st.fields (fi.done ++ fi.cur.toList) ∧
      List.Forall₂ (fun r e => Points b stop r.name e.name ∧ Points b stop r.message e.message)
        (st.errors.take (st.ei % 256)) (fi.errors.take (fi.errors.length % 256)) := by
  obtain ⟨-, hf, he, -, hcur, hshown⟩ := h
  have hall := hcur.started
  rw [show st.next = st.fields.length from hf, List.take_length] at hall
  have hei : fi.errors.length = st.ei := by
    have he : st.ei + 0 ≤ st.errors.length := he
    rw [← hshown.length_eq, List.length_take, Nat.min_eq_left (by omega)]
  refine ⟨hall.imp fun r fl h => ?_, ?_⟩
  · rw [← List.take_append_drop st.oi st.opts]
    exact h.mono
  · have htake := List.forall₂_take (st.ei % 256) hshown
    rw [List.take_take, Nat.min_eq_left (Nat.mod_le ..)] at htake
    rwa [hei]

/-- **`decode_form` from the counting pass on**, when the strings stand in the buffer. -/
theorem decodeRecords_refines (junk : Junk) (hsame : Same b ar va) {recs : Nat}
    (hrecs : recs ≤ ar.used) (hterm : Terminated (va.text.drop recs)) {title note : Option Nat}
    {vtitle vnote : Option CStr} (htitle : Points ar.buf ar.used title vtitle)
    (hnote : Points ar.buf ar.used note vnote) :
    Refines (fun r f => r.Shows f.1 ∧ f.2 = va.text ∧ r.buf = ar.buf ∧ r.strings = ar.used ∧
        LaidOut ar.buf.cap ar.used r.arrays)
      (decodeRecords junk ar recs title note) (recordsOf va recs vtitle vnote) := by
  obtain ⟨-, hcap, hused, htext, hfits, -⟩ := hsame
  have hlen : va.text.length = ar.used := by rw [← htext, Mem.length_read]
  generalize hss : cstrs (va.text.drop recs) = ss
  have hfill : fill ss = va.text.drop recs := by
    rw [← hss]
    exact flatMap_cstrs hterm
  have hend : recs + (fill ss).length = ar.used := by
    rw [hfill, List.length_drop]
    omega
  have hread : ar.buf.mem.read recs (fill ss).length = fill ss := by
    have hin := ar.buf.mem.read_inside 0 (show recs + (fill ss).length ≤ ar.used by omega)
    rw [Nat.zero_add, htext, ← hfill, List.take_length] at hin
    exact hin
  have hfuel := length_le_fill ss
  unfold decodeRecords recordsOf
  simp only [hss]
  rw [walk_eq hfits hread hend (by omega), foldAt_count]
  simp only [bind, Except.bind, Nat.zero_add]
  by_cases hmany : (countRecords ss).1 > ncFormMaxFields
  · rw [if_pos hmany, if_pos hmany]
    rfl
  rw [if_neg hmany, if_neg hmany]
  have h1 := carve_same hcap hused hfits (countRecords ss).1 sizeofField
  generalize arenaArray ar (countRecords ss).1 sizeofField = r1 at h1 ⊢
  obtain ⟨fieldsAt, ar1⟩ := r1
  cases hc1 : carve va (countRecords ss).1 sizeofField with
  | none =>
    rw [hc1] at h1
    rw [if_pos (.inl h1)]
    rfl
  | some va1 =>
  rw [hc1] at h1
  obtain ⟨hn1, hb1, hcap1, hused1, hfits1, hpl1⟩ := h1
  rw [Option.bind_some]
  dsimp only at hn1 hb1 hused1 hfits1 hpl1 ⊢
  rw [← hb1] at hcap1 hfits1
  have h2 := carve_same hcap1 hused1 hfits1 (countRecords ss).2.1 sizeofError
  generalize arenaArray ar1 (countRecords ss).2.1 sizeofError = r2 at h2 ⊢
  obtain ⟨errorsAt, ar2⟩ := r2
  cases hc2 : carve va1 (countRecords ss).2.1 sizeofError with
  | none =>
    rw [hc2] at h2
    rw [if_pos (.inr (.inl h2))]
    rfl
  | some va2 =>
  rw [hc2] at h2
  obtain ⟨hn2, hb2, hcap2, hused2, hfits2, hpl2⟩ := h2
  rw [Option.bind_some]
  dsimp only at hn2 hb2 hused2 hfits2 hpl2 ⊢
  rw [← hb2] at hcap2 hfits2
  have h3 := carve_same hcap2 hused2 hfits2 (countRecords ss).2.2 sizeofPtr
  generalize arenaArray ar2 (countRecords ss).2.2 sizeofPtr = r3 at h3 ⊢
  obtain ⟨optsAt, ar3⟩ := r3
  cases hc3 : carve va2 (countRecords ss).2.2 sizeofPtr with
  | none =>
    rw [hc3] at h3
    rw [if_pos (.inr (.inr h3))]
    rfl
  | some va3 =>
  rw [hc3] at h3
  obtain ⟨hn3, hb3, -, -, hfits3, hpl3⟩ := h3
  rw [Option.bind_some]
  dsimp only at hn3 hb3 hfits3 hpl3 ⊢
  rw [if_neg (by tauto), walk_eq hfits hread hend (by omega)]
  have hrun := foldAt_refines (fills_start ar.buf ar.used junk ss) hread (Nat.le_of_eq hend)
  cases hl : fillLoop {} ss with
  | none =>
    rw [hl] at hrun
    rw [show foldAt _ _ _ _ = _ from hrun]
    rfl
  | some fi =>
  rw [hl] at hrun
  obtain ⟨st, hst, hfin⟩ := hrun
  rw [hst]
  obtain ⟨hfields, herrors⟩ := hfin.finished
  refine ⟨_, rfl, ⟨htitle, hnote, hfields, herrors⟩, rfl, rfl, rfl, ?_⟩
  have hsizes := hfin.sizes
  rw [hb2, hb1] at hfits3
  rw [← hsizes] at hpl1 hpl2 hpl3
  exact ⟨_, hpl1, _, hpl2, _, hpl3, hfits3⟩

/-- A part of the message in the text of the strings. -/
def Part (text : List UInt8) (q : Option Nat) : Option (List UInt8) → Prop
  | none => q = none
  | some l => ∃ pre post, q = some pre.length ∧ text = pre ++ (l ++ 0 :: post)

theorem Part.append {text : List UInt8} {q : Option Nat} {o : Option (List UInt8)}
    (h : Part text q o) (more : List UInt8) : Part (text ++ more) q o := by
  cases o with
  | none => exact h
  | some l =>
    obtain ⟨pre, post, hq, ht⟩ := h
    refine ⟨pre, post ++ more, hq, ?_⟩
    rw [ht]
    simp only [List.append_assoc, List.cons_append]

theorem Part.points {q : Option Nat} {o : Option (List UInt8)} (h : Part va.text q o)
    (hsame : Same b ar va) : Points ar.buf ar.used q (o.map .ofBytes) := by
  cases o with
  | none =>
    rw [show q = none from h]
    trivial
  | some l =>
    obtain ⟨pre, post, rfl, ht⟩ := h
    obtain ⟨post', hpost⟩ := ofBytes_append l post
    have hlen := hsame.length
    rw [hpost] at ht
    rw [ht] at hlen
    simp only [List.length_append, List.length_cons] at hlen
    refine ⟨by omega, ?_⟩
    have hin := ar.buf.mem.read_inside 0
      (show pre.length + ((CStr.ofBytes l).val.length + 1) ≤ ar.used by omega)
    rw [Nat.zero_add] at hin
    rw [hin, hsame.text, ht, List.drop_left, ← List.singleton_append, ← List.append_assoc]
    exact List.take_left' (by simp)

theorem arenaOpt_same (h : Same b ar va) (o : Option (List UInt8)) :
    match Auth.arenaOpt va o with
    | none => o.isSome ∧ arenaOpt ar o = .ok (none, ar)
    | some va' => ∃ q ar', arenaOpt ar o = .ok (q, ar') ∧ ¬ (o.isSome ∧ q = none) ∧
        Same b ar' va' ∧ Part va'.text q o ∧ ∃ t, va'.text = va.text ++ t := by
  cases o with
  | none => exact ⟨none, ar, rfl, by simp, h, rfl, [], (List.append_nil _).symm⟩
  | some s =>
    have hstr := arenaStr_same h s
    rw [Auth.arenaOpt, arenaOpt]
    cases hva : Auth.arenaStr va s with
    | none =>
      rw [hva] at hstr
      exact ⟨rfl, hstr⟩
    | some va' =>
      rw [hva] at hstr
      obtain ⟨htext, ar', har, hsame⟩ := hstr
      refine ⟨_, ar', har, by simp, hsame, ⟨va.text, [], ?_, htext⟩, _, htext⟩
      rw [h.length]

theorem arenaOpt_ok (h : Same b ar va) (o : Option (List UInt8)) :
    ∃ q ar', arenaOpt ar o = .ok (q, ar') := by
  have hsame := arenaOpt_same h o
  cases hva : Auth.arenaOpt va o with
  | none =>
    rw [hva] at hsame
    exact ⟨_, _, hsame.2⟩
  | some va' =>
    rw [hva] at hsame
    obtain ⟨q, ar', har, -⟩ := hsame
    exact ⟨q, ar', har⟩

theorem unpack_refines (h : Same b ar va) (blob : List UInt8) :
    Refines (fun ar' va' => Same b ar' va' ∧ ∃ r, Terminated r ∧ va'.text = va.text ++ r)
      (unpack ar blob) (Auth.unpack va blob) := by
  have hrun := @unpackLoop_refines b blob blob.length ar va 0 h (by omega)
  rwa [List.drop_zero] at hrun

theorem formBody_checked (msg : List UInt8) (p : FormParts) (field wire : UInt8) (pos : Nat) :
    formBody msg p field wire pos = orErr (Auth.formBody msg p field wire pos) := by
  unfold formBody Auth.formBody
  simp only [msSkip_checked (Nat.le_refl msg.length), msReadBytes_checked (Nat.le_refl msg.length),
    orErr_map]
  split
  · rfl
  · split
    · rfl
    · split
      · rfl
      · split <;> rfl

theorem formBody_pos {msg : List UInt8} {p : FormParts} {field wire : UInt8} {pos : Nat}
    {r : FormParts × Nat} (h : Auth.formBody msg p field wire pos = some r) : pos ≤ r.2 := by
  unfold Auth.formBody at h
  split at h
  · obtain ⟨q, hq, rfl⟩ := Option.map_eq_some_iff.1 h
    exact msSkip_pos hq
  · split at h
    · obtain ⟨q, hq, rfl⟩ := Option.map_eq_some_iff.1 h
      exact msReadBytes_pos hq
    · split at h
      · obtain ⟨q, hq, rfl⟩ := Option.map_eq_some_iff.1 h
        exact msReadBytes_pos hq
      · split at h
        · obtain ⟨q, hq, rfl⟩ := Option.map_eq_some_iff.1 h
          exact msReadBytes_pos hq
        · obtain ⟨q, hq, rfl⟩ := Option.map_eq_some_iff.1 h
          exact msSkip_pos hq

/-- **`decode_form` in memory does what it does on values**, in the buffer and nowhere else. -/
theorem decodeForm_refines (junk : Junk) (b : Buffer) (msg : List UInt8) :
    Refines (Decoded.Within b) (decodeForm junk b msg) (Auth.decodeForm b.cap msg) := by
  have hstart : Same b ⟨b, 0⟩ { cap := b.cap } :=
    ⟨rfl, rfl, rfl, rfl, Nat.zero_le _, fun _ _ => rfl⟩
  have hloop := readLoop_checked (Nat.le_refl msg.length) (formBody_checked msg)
    (fun _ _ _ _ _ h => formBody_pos h) msg.length {} 1 (by omega)
  unfold decodeForm Auth.decodeForm
  refine Refines.bind (R := Eq) ?_ ?_
  · rw [hloop]
    exact refines_orErr _
  rintro p _ rfl
  dsimp only
  have htitle := arenaOpt_same hstart p.title
  cases hva : Auth.arenaOpt { cap := b.cap } p.title with
  | none =>
    rw [hva] at htitle
    obtain ⟨q, ar', har⟩ := arenaOpt_ok hstart p.note
    simp only [htitle.2, har, bind, Except.bind]
    rw [if_pos (.inl ⟨htitle.1, trivial⟩)]
    rfl
  | some va1 =>
  rw [hva] at htitle
  obtain ⟨title, ar1, har1, hq1, hsame1, hpart1, -⟩ := htitle
  have hnote := arenaOpt_same hsame1 p.note
  rw [har1]
  change Refines _ (arenaOpt ar1 p.note >>= fun _ => _) (Auth.arenaOpt va1 p.note >>= fun _ => _)
  cases hva2 : Auth.arenaOpt va1 p.note with
  | none =>
    rw [hva2] at hnote
    simp only [hnote.2, bind, Except.bind]
    rw [if_pos (.inr ⟨hnote.1, trivial⟩)]
    rfl
  | some va2 =>
  rw [hva2] at hnote
  obtain ⟨note, ar2, har2, hq2, hsame2, hpart2, t2, ht2⟩ := hnote
  rw [har2]
  change Refines _ (if _ then _ else _) _
  rw [if_neg (by tauto)]
  change Refines _ _ (match p.blob with
    | none => some va2 >>= fun va3 => recordsOf va3 va2.text.length _ _
    | some blob => Auth.unpack va2 blob >>= fun va3 => recordsOf va3 va2.text.length _ _)
  have hlen2 := hsame2.length
  have hfin : ∀ ar3 va3, (Same b ar3 va3 ∧ ∃ r, Terminated r ∧ va3.text = va2.text ++ r) →
      Refines (Decoded.Within b) (decodeRecords junk ar3 ar2.used title note)
        (recordsOf va3 va2.text.length (p.title.map .ofBytes) (p.note.map .ofBytes)) := by
    intro ar3 va3 h3
    obtain ⟨hsame3, r, hterm, ht3⟩ := h3
    have hlen3 := hsame3.length
    have hpart1' := (hpart1.append t2).append r
    rw [← ht2, ← ht3] at hpart1'
    have hpart2' := hpart2.append r
    rw [← ht3] at hpart2'
    have hrecs : ar2.used ≤ ar3.used := by
      rw [← hlen2, ← hlen3, ht3, List.length_append]
      omega
    have hdrop : va3.text.drop ar2.used = r := by
      rw [ht3, List.drop_left' hlen2]
    rw [hlen2]
    refine (decodeRecords_refines junk hsame3 hrecs (hdrop ▸ hterm) (hpart1'.points hsame3)
      (hpart2'.points hsame3)).mono fun d f hd => ?_
    obtain ⟨hshow, htext, hbuf, hstr, hlaid⟩ := hd
    have hfits := hsame3.fits
    have hout := hsame3.outside
    rw [hsame3.size] at hlaid hfits hout
    rw [← hstr] at hlaid hfits
    rw [← hbuf] at hout
    exact ⟨hshow, by rw [hbuf, hstr, htext, hsame3.text], by rw [hbuf, hsame3.size], hfits, hout,
      hlaid⟩
  cases p.blob with
  | none => exact hfin ar2 va2 ⟨hsame2, [], .inl rfl, (List.append_nil _).symm⟩
  | some blob => exact (unpack_refines hsame2 blob).bind hfin

theorem answersBody_checked (msg : List UInt8) (blob : Option (List UInt8)) (field wire : UInt8)
    (pos : Nat) :
    answersBody msg blob field wire pos = orErr (Auth.answersBody msg blob field wire pos) := by
  unfold answersBody Auth.answersBody
  simp only [msSkip_checked (Nat.le_refl msg.length), msReadBytes_checked (Nat.le_refl msg.length),
    orErr_map]
  split <;> rfl

theorem answersBody_pos {msg : List UInt8} {blob : Option (List UInt8)} {field wire : UInt8}
    {pos : Nat} {r : Option (List UInt8) × Nat}
    (h : Auth.answersBody msg blob field wire pos = some r) : pos ≤ r.2 := by
  unfold Auth.answersBody at h
  split at h
  · obtain ⟨q, hq, rfl⟩ := Option.map_eq_some_iff.1 h
    exact msReadBytes_pos hq
  · obtain ⟨q, hq, rfl⟩ := Option.map_eq_some_iff.1 h
    exact msSkip_pos hq

/-- **`decode_answers` in memory does what it does on values.** -/
theorem decodeAnswers_refines (b : Buffer) (msg : List UInt8) :
    Refines (fun ar text => ar.buf.mem.read 0 ar.used = text ∧ ar.used ≤ b.cap ∧
        ∀ x, b.cap ≤ x → ar.buf.mem x = b.mem x)
      (decodeAnswers b msg) (Auth.decodeAnswers b.cap msg) := by
  have hstart : Same b ⟨b, 0⟩ { cap := b.cap } :=
    ⟨rfl, rfl, rfl, rfl, Nat.zero_le _, fun _ _ => rfl⟩
  have hloop := readLoop_checked (Nat.le_refl msg.length) (answersBody_checked msg)
    (fun _ _ _ _ _ h => answersBody_pos h) msg.length none 1 (by omega)
  have hfin : ∀ ar va, Same b ar va → ar.buf.mem.read 0 ar.used = va.text ∧ ar.used ≤ b.cap ∧
      ∀ x, b.cap ≤ x → ar.buf.mem x = b.mem x := by
    intro ar va h
    refine ⟨h.text, ?_, ?_⟩
    · rw [← h.size]
      exact h.fits
    · rw [← h.size]
      exact h.outside
  unfold decodeAnswers Auth.decodeAnswers
  refine Refines.bind (R := Eq) ?_ ?_
  · rw [hloop]
    exact refines_orErr _
  rintro o _ rfl
  cases o with
  | none => exact ⟨_, rfl, hfin _ _ hstart⟩
  | some blob =>
    have hun := unpack_refines hstart blob
    dsimp only
    cases hva : Auth.unpack { cap := b.cap } blob with
    | none =>
      rw [hva] at hun
      exact hun
    | some va =>
      rw [hva] at hun
      obtain ⟨ar, har, hsame, -⟩ := hun
      exact ⟨ar, har, hfin _ _ hsame⟩

end

/-! ## Hostile bytes -/

/-- The string pointers of a form: of the form, of its fields and of its errors. -/
def Decoded.pointers (r : Decoded) : List (Option Nat) :=
  [r.title, r.note] ++ r.fields.flatMap (fun fl => fl.strings ++ fl.choices r.opts) ++
    (r.errors.take r.nerrors).flatMap fun e => [e.name, e.message]

section
variable {b : Buffer} {stop p : Nat}

theorem Points.at {q : Option Nat} {o : Option CStr} (h : Points b stop q o) (hq : q = some p) :
    ∃ s, At b stop p s := by
  subst hq
  cases o with
  | none => cases h
  | some s => exact ⟨s, h⟩

theorem at_of_mem {qs : List (Option Nat)} {os : List (Option CStr)}
    (h : List.Forall₂ (Points b stop) qs os) (hp : some p ∈ qs) : ∃ s, At b stop p s := by
  induction h with
  | nil => cases hp
  | cons hq _ ih =>
    rcases List.mem_cons.1 hp with hp | hp
    · exact hq.at hp.symm
    · exact ih hp

theorem Decoded.Shows.at {r : Decoded} {f : Form} (h : r.Shows f) (hp : some p ∈ r.pointers) :
    ∃ s, At r.buf r.strings p s := by
  obtain ⟨htitle, hnote, hfields, herrors⟩ := h
  rcases List.mem_append.1 hp with hp | hp
  · rcases List.mem_append.1 hp with hp | hp
    · exact at_of_mem (.cons htitle (.cons hnote .nil)) hp
    · obtain ⟨fl, hfl, hp⟩ := List.mem_flatMap.1 hp
      obtain ⟨g, -, hg⟩ := forall₂_mem hfields hfl
      rcases List.mem_append.1 hp with hp | hp
      · exact at_of_mem hg.strings hp
      · exact at_of_mem hg.choices hp
  · obtain ⟨e, he, hp⟩ := List.mem_flatMap.1 hp
    obtain ⟨g, -, hg⟩ := forall₂_mem herrors he
    exact at_of_mem (.cons hg.1 (.cons hg.2 .nil)) hp

end

/-- **The decoder is safe on hostile bytes**: whatever the message and the buffer are, it ends without
a fault, and each string pointer of the form it decodes is one to a string inside the buffer. -/
theorem form_decoder_safe (junk : Junk) (b : Buffer) (msg : List UInt8) :
    decodeForm junk b msg ≠ .error .fault ∧ decodeAnswers b msg ≠ .error .fault ∧
    ∀ r, decodeForm junk b msg = .ok r → r.strings ≤ b.cap ∧
      (∀ x, b.cap ≤ x → r.buf.mem x = b.mem x) ∧ LaidOut b.cap r.strings r.arrays ∧
      ∀ p, some p ∈ r.pointers → ∃ s : CStr, r.buf.cstr p = .ok s ∧
        p + s.val.length < r.strings := by
  have hform := decodeForm_refines junk b msg
  refine ⟨hform.ne_fault, (decodeAnswers_refines b msg).ne_fault, fun r hr => ?_⟩
  obtain ⟨f, -, hin⟩ := hform.ok hr
  refine ⟨hin.fits, hin.outside, hin.laid, fun p hp => ?_⟩
  obtain ⟨s, hat⟩ := hin.shows.at hp
  exact ⟨s, hat.cstr (by rw [hin.cap]; exact hin.fits), hat.1⟩

end Netchan.Auth.Checked
