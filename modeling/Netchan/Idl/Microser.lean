import Netchan.Lib.CString

/-!
# microser

The tagged fields of `idl/microser.h`. A buffer that is written is the list of the bytes so far with
its capacity, so that the position is the length of the list; a buffer that is read is a list with a
position and an end. `none` is `MS_ERR`.

`readTags` is the loop that every reader of such fields runs.
-/

namespace Netchan.Idl

open Lib

abbrev msWire8 : UInt8 := 0
abbrev msWire64 : UInt8 := 3
abbrev msWireBytes : UInt8 := 4

/-! ## Writing -/

/-- `ms_write_tag_u8`. -/
def msWriteTagU8 (buf : List UInt8) (len : Nat) (field val : UInt8) : Option (List UInt8) :=
  if buf.length + 2 > len then none else some (buf ++ [field <<< 3 ||| msWire8, val])

/-- `ms_write_tag_bytes`. -/
def msWriteTagBytes (buf : List UInt8) (len : Nat) (field : UInt8) (data : List UInt8) :
    Option (List UInt8) :=
  if buf.length + 3 + data.length > len then none
  else some (buf ++ (field <<< 3 ||| msWireBytes) :: (wrLe16 data.length ++ data))

/-! ## Reading -/

/-- `ms_read_u8`. -/
def msReadU8 (buf : List UInt8) (pos stop : Nat) : Option (UInt8 × Nat) :=
  if pos + 1 > stop then none else some (byte buf pos, pos + 1)

/-- `ms_read_bytes`. -/
def msReadBytes (buf : List UInt8) (pos stop dmax : Nat) : Option (List UInt8 × Nat) :=
  if pos + 2 > stop then none
  else
    let dlen := rdLe16 (byte buf pos) (byte buf (pos + 1))
    if pos + 2 + dlen > stop ∨ dlen > dmax then none
    else some ((buf.drop (pos + 2)).take dlen, pos + 2 + dlen)

/-- `ms_skip`. -/
def msSkip (buf : List UInt8) (pos stop : Nat) (wire : UInt8) : Option Nat :=
  if wire ≤ msWire64 then
    let pos := pos + 2 ^ wire.toNat
    if pos ≤ stop then some pos else none
  else if wire = msWireBytes then
    if pos + 2 > stop then none
    else
      let pos := pos + 2 + rdLe16 (byte buf pos) (byte buf (pos + 1))
      if pos ≤ stop then some pos else none
  else none

/-- The loop of a reader: `body` takes what was read so far, the field number and the wire type of a
tag and the position after it. -/
def readLoop {σ : Type} (body : σ → UInt8 → UInt8 → Nat → Option (σ × Nat)) (buf : List UInt8)
    (stop : Nat) : Nat → σ → Nat → Option σ
  | 0, s, pos => if pos < stop then none else some s
  | n + 1, s, pos =>
    if pos < stop then
      let tag := byte buf pos
      match body s (tag >>> 3) (tag &&& 7) (pos + 1) with
      | none => none
      | some (s', pos') => readLoop body buf stop n s' pos'
    else some s

/-- The fields of a message after its type byte. A field takes a byte at least, so the length of the
message is enough fuel. -/
def readTags {σ : Type} (body : List UInt8 → σ → UInt8 → UInt8 → Nat → Option (σ × Nat))
    (msg : List UInt8) (s : σ) : Option σ :=
  readLoop (body msg) msg msg.length msg.length s 1

/-! ## What is read of what was written -/

theorem tag_field {field wire : UInt8} (hf : field < 32) (hw : wire < 8) :
    (field <<< 3 ||| wire) >>> 3 = field ∧ (field <<< 3 ||| wire) &&& 7 = wire := by
  have h : ∀ f : Fin 32, ∀ w : Fin 8,
      (UInt8.ofNat f.val <<< 3 ||| UInt8.ofNat w.val) >>> 3 = UInt8.ofNat f.val ∧
        (UInt8.ofNat f.val <<< 3 ||| UInt8.ofNat w.val) &&& 7 = UInt8.ofNat w.val := by
    decide
  have := h ⟨field.toNat, UInt8.lt_iff_toNat_lt.1 hf⟩ ⟨wire.toNat, UInt8.lt_iff_toNat_lt.1 hw⟩
  simpa using this

theorem msReadBytes_append {l data rest : List UInt8} (h : data.length < 65536) :
    msReadBytes (l ++ (wrLe16 data.length ++ data) ++ rest) l.length
        (l ++ (wrLe16 data.length ++ data) ++ rest).length 0xffff =
      some (data, l.length + 2 + data.length) := by
  have h0 : byte (l ++ (wrLe16 data.length ++ data) ++ rest) l.length = UInt8.ofNat data.length := by
    simp [byte, wrLe16]
  have h1 : byte (l ++ (wrLe16 data.length ++ data) ++ rest) (l.length + 1) =
      UInt8.ofNat (data.length / 256) := by
    simp [byte, wrLe16]
  have hd : ((l ++ (wrLe16 data.length ++ data) ++ rest).drop (l.length + 2)).take data.length =
      data := by
    have hl : (l ++ wrLe16 data.length).length = l.length + 2 := by simp [wrLe16]
    rw [← List.append_assoc, List.append_assoc, List.drop_left' hl, List.take_left]
  unfold msReadBytes
  simp only [h0, h1, rdLe16_wrLe16 h, hd]
  rw [if_neg (by simp [wrLe16]), if_neg (by simp [wrLe16]; omega)]

section
variable {σ : Type} {body : σ → UInt8 → UInt8 → Nat → Option (σ × Nat)} {buf : List UInt8}
  {stop n pos pos' : Nat} {s s' : σ}

theorem readLoop_stop (h : stop ≤ pos) : readLoop body buf stop n s pos = some s := by
  cases n with
  | zero => exact if_neg (by omega)
  | succ n => exact if_neg (by omega)

theorem readLoop_succ (h : pos < stop)
    (hb : body s (byte buf pos >>> 3) (byte buf pos &&& 7) (pos + 1) = some (s', pos')) :
    readLoop body buf stop (n + 1) s pos = readLoop body buf stop n s' pos' := by
  rw [readLoop, if_pos h]
  dsimp only
  rw [hb]

/-- A bytes field on the wire. -/
def tagged (f : UInt8 × List UInt8) : List UInt8 :=
  (f.1 <<< 3 ||| msWireBytes) :: (wrLe16 f.2.length ++ f.2)

theorem length_tagged (f : UInt8 × List UInt8) : (tagged f).length = 3 + f.2.length := by
  simp only [tagged, wrLe16, List.length_cons, List.length_append, List.length_nil]
  omega

theorem writeTagBytes_fits {out : List UInt8} {len : Nat} {field : UInt8} {data : List UInt8}
    (h : out.length + 3 + data.length ≤ len) :
    msWriteTagBytes out len field data = some (out ++ tagged (field, data)) := if_neg (by omega)

theorem writeTagBytes_full {out : List UInt8} {len : Nat} {field : UInt8} {data : List UInt8}
    (h : len < out.length + 3 + data.length) : msWriteTagBytes out len field data = none := if_pos h

theorem writeTagBytes_eq {out out' : List UInt8} {len : Nat} {field : UInt8} {data : List UInt8}
    (h : msWriteTagBytes out len field data = some out') :
    out' = out ++ tagged (field, data) ∧ out'.length ≤ len := by
  unfold msWriteTagBytes at h
  split at h
  · cases h
  rename_i hlen
  obtain rfl := Option.some.inj h
  have h1 := length_tagged (field, data)
  refine ⟨rfl, ?_⟩
  change (out ++ tagged (field, data)).length ≤ len
  rw [List.length_append]
  dsimp only at h1
  omega

/-- **A reader reads back the bytes fields of a message**, one after the other. -/
theorem readLoop_fields {step : σ → UInt8 × List UInt8 → σ} {fs : List (UInt8 × List UInt8)}
    (hbody : ∀ s, ∀ f ∈ fs, ∀ pos pos', msReadBytes buf pos buf.length 0xffff = some (f.2, pos') →
      body s f.1 msWireBytes pos = some (step s f, pos'))
    (hfs : ∀ f ∈ fs, f.1 < 32 ∧ f.2.length < 65536) {pre : List UInt8}
    (hbuf : buf = pre ++ fs.flatMap tagged) (hn : fs.length ≤ n) :
    readLoop body buf buf.length n s pre.length = some (fs.foldl step s) := by
  induction fs generalizing s n pre with
  | nil =>
    rw [List.flatMap_nil, List.append_nil] at hbuf
    rw [hbuf]
    exact readLoop_stop (Nat.le_refl _)
  | cons f fs ih =>
    obtain ⟨hf, hlen⟩ := hfs f (.head _)
    obtain ⟨m, rfl⟩ : ∃ m, n = m + 1 := ⟨n - 1, by rw [List.length_cons] at hn; omega⟩
    have hsplit : buf = pre ++ [f.1 <<< 3 ||| msWireBytes] ++ (wrLe16 f.2.length ++ f.2) ++
        fs.flatMap tagged := by
      rw [hbuf, List.flatMap_cons, tagged]
      simp only [List.append_assoc, List.cons_append, List.nil_append]
    have hread := @msReadBytes_append (pre ++ [f.1 <<< 3 ||| msWireBytes]) f.2 (fs.flatMap tagged) hlen
    rw [← hsplit, List.length_append, List.length_singleton] at hread
    have htag : byte buf pre.length = f.1 <<< 3 ||| msWireBytes := by
      rw [hbuf, List.flatMap_cons, tagged]
      simp [byte]
    have ht := @tag_field f.1 msWireBytes hf (by decide)
    rw [← htag] at ht
    have hpos : pre.length < buf.length := by
      rw [hbuf, List.length_append, List.flatMap_cons, List.length_append, length_tagged]
      omega
    have hb : body s (byte buf pre.length >>> 3) (byte buf pre.length &&& 7) (pre.length + 1) =
        some (step s f, pre.length + 1 + 2 + f.2.length) := by
      rw [ht.1, ht.2]
      exact hbody s f (.head _) _ _ hread
    rw [readLoop_succ hpos hb]
    have hpre : pre.length + 1 + 2 + f.2.length = (pre ++ tagged f).length := by
      rw [List.length_append, length_tagged]
      omega
    rw [hpre, List.foldl_cons]
    refine ih (fun s g hg => hbody s g (.tail _ hg)) (fun g hg => hfs g (.tail _ hg)) ?_ ?_
    · rw [hbuf, List.flatMap_cons, List.append_assoc]
    · rw [List.length_cons] at hn
      omega

end

end Netchan.Idl
