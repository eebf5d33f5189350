import Netchan.Lib.Fields
import Netchan.Lib.Framing

/-!
# WebSocket frames

Model of the frame codec of `transport/nc_ws.c` and of the receive loop of
`examples/ws_gateway/ws_gateway.c`.

* `ncWsFrameParse`: a frame at the front of a buffer, unmasked in place.
* `ncWsFrameBuild`: a frame into a buffer.
* `pumpWsIn`: the loop that parses as many frames as have arrived and shifts the buffer.
* `parse_whole`, `parse_part`: the parser on a whole frame and on a part of one.
* `ws_carries_stream`: any frames, and any cut of their bytes into chunks.
-/

namespace Netchan.Transport

open Lib

/-! ## Parsing -/

/-- `struct nc_ws_frame`; the payload is an offset into the buffer. -/
structure NcWsFrame where
  opcode : UInt8
  fin : Bool
  payload : Nat
  payloadLen : Nat

/-- The conversion of a `uint64_t` to `long`. -/
def toLong (n : Nat) : Int := if n < 2 ^ 63 then n else n - 2 ^ 64

/-- The payload length with its extension, and the size of the header before the masking key. -/
def extendedLen (buf : Mem) (len plen : Nat) : Option (Nat × Nat) :=
  if plen = 126 then
    if len < 4 then none else some ((buf 2).toNat * 2 ^ 8 + (buf 3).toNat, 4)
  else if plen = 127 then
    if len < 10 then none
    else
      some ((List.range 8).foldl (fun v i => (v * 2 ^ 8 + (buf (2 + i)).toNat) % 2 ^ 64) 0, 10)
  else some (plen, 2)

/-- `payload[i] ^= mk[i & 3]` for `i < n`. -/
def unmask (buf : Mem) (payload mk : Nat) : Nat → Mem
  | 0 => buf
  | n + 1 =>
    let b := unmask buf payload mk n
    b.write (payload + n) [b (payload + n) ^^^ b (mk + n % 4)]

/-- `nc_ws_frame_parse`: `none` if it returns 0 before it has touched anything. -/
def ncWsFrameParse (buf : Mem) (len : Nat) : Option (Mem × NcWsFrame × Int) :=
  if len < 2 then none
  else
    let masked := buf 1 &&& 0x80 != 0
    match extendedLen buf len (buf 1 &&& 0x7f).toNat with
    | none => none
    | some (plen, hdr) =>
      let hdr := if masked then hdr + 4 else hdr
      if len < (hdr + plen) % 2 ^ 64 then none
      else
        let buf := if masked then unmask buf hdr (hdr - 4) plen else buf
        some (buf, ⟨buf 0 &&& 0x0f, buf 0 &&& 0x80 != 0, hdr, plen⟩,
          toLong ((hdr + plen) % 2 ^ 64))

/-! ## Building -/

/-- A masking key. -/
abbrev Mask := Fin 4 → UInt8

/-- `src[i] ^ mask4[i & 3]` for each byte. -/
def maskedWith (mask4 : Mask) (payload : List UInt8) : List UInt8 :=
  payload.mapIdx fun i b => b ^^^ mask4 (Fin.ofNat 4 i)

/-- The size of a frame's header. -/
def headerLen (n : Nat) (mask4 : Option Mask) : Nat :=
  2 + (if n > 0xffff then 8 else if n ≥ 126 then 2 else 0) + if mask4.isSome then 4 else 0

/-- The length field behind the first byte, and the offset after it. -/
def buildLength (out : Mem) (mbit : UInt8) (n : Nat) : Mem × Nat :=
  if n > 0xffff then
    ((out.write 1 [mbit ||| 127]).write 2
      ((List.range 8).map fun i => UInt8.ofNat (n / 2 ^ (56 - i * 8))), 10)
  else if n ≥ 126 then
    ((out.write 1 [mbit ||| 126]).write 2 [UInt8.ofNat (n / 2 ^ 8), UInt8.ofNat n], 4)
  else (out.write 1 [mbit ||| UInt8.ofNat n], 2)

/-- `nc_ws_frame_build`: the buffer after it, and what it returns. -/
def ncWsFrameBuild (out : Mem) (cap : Nat) (opcode : Int) (payload : List UInt8)
    (mask4 : Option Mask) : Mem × Nat :=
  let n := payload.length
  if cap < (headerLen n mask4 + n) % 2 ^ 64 then (out, 0)
  else
    let out := out.write 0 [0x80 ||| UInt8.ofNat (opcode % 16).toNat]
    let (out, o) := buildLength out (if mask4.isSome then 0x80 else 0) n
    match mask4 with
    | some key =>
      ((out.write o [key 0, key 1, key 2, key 3]).write (o + 4) (maskedWith key payload),
        (o + 4 + n) % 2 ^ 64)
    | none => (out.write o payload, (o + n) % 2 ^ 64)

/-! ## The receive loop -/

/-- The receive buffer of a `struct client`: `rx` and `rxn`. -/
structure Client where
  rx : Mem
  rxn : Nat

/-- A frame as it is handed on. -/
structure Received where
  opcode : UInt8
  fin : Bool
  payload : List UInt8
  deriving DecidableEq, Repr

/-- The `for (;;)` of `pump_ws_in`: what became of the frames, and the buffer, or `none` when the
client is dropped. `handle` is the work on a frame; it drops the client with `none`. -/
def pumpFrames {ω : Type} (handle : Received → Option ω) : Nat → Client → List ω × Option Client
  | 0, c => ([], some c)
  | fuel + 1, c =>
    match ncWsFrameParse c.rx c.rxn with
    | none => ([], some c)
    | some (rx, f, used) =>
      if used = 0 then ([], some ⟨rx, c.rxn⟩)
      else if used < 0 then ([], none)
      else
        match handle ⟨f.opcode, f.fin, rx.read f.payload f.payloadLen⟩ with
        | none => ([], none)
        | some o =>
          let n := used.toNat
          let r := pumpFrames handle fuel ⟨rx.move 0 n (c.rxn - n), c.rxn - n⟩
          (o :: r.1, r.2)

/-- `pump_ws_in` in `CS_OPEN` with the bytes `recv` gave. A frame has a byte at least, so the loop
ends within `rxn` rounds. -/
def pumpWsIn {ω : Type} (handle : Received → Option ω) :
    Option Client → List UInt8 → List ω × Option Client
  | none, _ => ([], none)
  | some c, chunk =>
    pumpFrames handle (c.rxn + chunk.length) ⟨c.rx.write c.rxn chunk, c.rxn + chunk.length⟩

/-- What `pump_ws_in` does with a frame. -/
inductive Relayed where
  | udp (payload : List UInt8)
  | pong (frame : List UInt8)
  | ignored
  deriving DecidableEq, Repr

/-- The work of `pump_ws_in` on a frame: a datagram goes to the server, a `CLOSE` drops the client, a
`PING` is answered. `pong` is the memory the answer is built in. -/
def relay (pong : Mem) (f : Received) : Option Relayed :=
  if f.opcode = 0x2 ∧ 0 < f.payload.length ∧ f.payload.length ≤ 2048 then some (.udp f.payload)
  else if f.opcode = 0x8 then none
  else if f.opcode = 0x9 then
    let (pong, pn) := ncWsFrameBuild pong (2048 + 16) 0xA f.payload none
    if pn > 0 then some (.pong (pong.read 0 pn)) else some .ignored
  else some .ignored

/-! ## The bytes of a frame -/

/-- The length field, under the mask bit. -/
def lengthBytes (mbit : UInt8) (n : Nat) : List UInt8 :=
  if n > 0xffff then
    (mbit ||| 127) :: (List.range 8).map fun i => UInt8.ofNat (n / 2 ^ (56 - i * 8))
  else if n ≥ 126 then [mbit ||| 126, UInt8.ofNat (n / 2 ^ 8), UInt8.ofNat n]
  else [mbit ||| UInt8.ofNat n]

/-- The key and the payload. -/
def bodyBytes (payload : List UInt8) : Option Mask → List UInt8
  | some key => [key 0, key 1, key 2, key 3] ++ maskedWith key payload
  | none => payload

/-- What `nc_ws_frame_build` writes. -/
def frameBytes (opcode : Int) (payload : List UInt8) (mask4 : Option Mask) : List UInt8 :=
  (0x80 ||| UInt8.ofNat (opcode % 16).toNat) ::
    (lengthBytes (if mask4.isSome then 0x80 else 0) payload.length ++ bodyBytes payload mask4)

section
variable {opcode : Int} {payload : List UInt8} {mask4 : Option Mask}

@[simp] theorem length_maskedWith (key : Mask) (payload : List UInt8) :
    (maskedWith key payload).length = payload.length :=
  List.length_mapIdx

theorem length_lengthBytes (mbit : UInt8) (n : Nat) : (lengthBytes mbit n).length =
    1 + if n > 0xffff then 8 else if n ≥ 126 then 2 else 0 := by
  unfold lengthBytes
  split
  · rfl
  · split <;> rfl

theorem length_bodyBytes : (bodyBytes payload mask4).length =
    (if mask4.isSome then 4 else 0) + payload.length := by
  cases mask4 with
  | none => simp [bodyBytes]
  | some key =>
    simp only [bodyBytes, List.length_append, length_maskedWith, Option.isSome_some, if_true]
    rfl

theorem length_frameBytes (opcode : Int) (payload : List UInt8) (mask4 : Option Mask) :
    (frameBytes opcode payload mask4).length =
      headerLen payload.length mask4 + payload.length := by
  simp only [frameBytes, headerLen, List.length_cons, List.length_append, length_lengthBytes,
    length_bodyBytes]
  omega

theorem headerLen_le (n : Nat) (mask4 : Option Mask) : headerLen n mask4 ≤ 14 := by
  unfold headerLen
  split <;> split <;> (try split) <;> omega

theorem buildLength_eq (out : Mem) (b mbit : UInt8) (n : Nat) :
    buildLength (out.write 0 [b]) mbit n =
      (out.write 0 (b :: lengthBytes mbit n), (b :: lengthBytes mbit n).length) := by
  have hone : ∀ x, (out.write 0 [b]).write 1 [x] = out.write 0 [b, x] :=
    fun x => out.write_append 0 [b] [x]
  have htwo : ∀ x l, (out.write 0 [b, x]).write 2 l = out.write 0 (b :: x :: l) :=
    fun x l => out.write_append 0 [b, x] l
  unfold buildLength lengthBytes
  by_cases h1 : n > 0xffff
  · rw [if_pos h1, if_pos h1, hone, htwo]
    rfl
  · rw [if_neg h1, if_neg h1]
    by_cases h2 : n ≥ 126
    · rw [if_pos h2, if_pos h2, hone, htwo]
      rfl
    · rw [if_neg h2, if_neg h2, hone]
      rfl

theorem build_eq (out : Mem) {cap : Nat} (hn : payload.length < 2 ^ 62)
    (hcap : headerLen payload.length mask4 + payload.length ≤ cap) :
    ncWsFrameBuild out cap opcode payload mask4 =
      (out.write 0 (frameBytes opcode payload mask4), (frameBytes opcode payload mask4).length) := by
  have hsmall := headerLen_le payload.length mask4
  have hlen := length_frameBytes opcode payload mask4
  have hmod := Nat.mod_eq_of_lt (a := (frameBytes opcode payload mask4).length) (b := 2 ^ 64)
    (by omega)
  unfold ncWsFrameBuild
  simp only [← hlen, hmod]
  rw [if_neg (by omega), buildLength_eq]
  generalize hhead : (0x80 ||| UInt8.ofNat (opcode % 16).toNat) ::
    lengthBytes (if mask4.isSome then 0x80 else 0) payload.length = head
  have hframe : frameBytes opcode payload mask4 = head ++ bodyBytes payload mask4 := by
    rw [← hhead]
    rfl
  rw [hframe] at hmod ⊢
  cases mask4 with
  | none =>
    dsimp only
    rw [List.length_append] at hmod ⊢
    refine Prod.ext ?_ hmod
    have := out.write_append 0 head payload
    rwa [Nat.zero_add] at this
  | some key =>
    dsimp only
    rw [List.length_append, length_bodyBytes] at hmod ⊢
    rw [Option.isSome_some, if_pos rfl, ← Nat.add_assoc] at hmod ⊢
    refine Prod.ext ?_ hmod
    · have := out.write_append 0 head [key 0, key 1, key 2, key 3]
      rw [Nat.zero_add] at this
      dsimp only
      rw [this]
      have := out.write_append 0 (head ++ [key 0, key 1, key 2, key 3]) (maskedWith key payload)
      rw [Nat.zero_add, List.length_append, List.append_assoc] at this
      exact this

end

/-! ## The parser on a frame -/

/-- What has arrived of the frame stands at the front of the buffer. -/
def Starts (buf : Mem) (len : Nat) (frame : List UInt8) : Prop :=
  ∀ i < len, ∀ b, frame[i]? = some b → buf i = b

/-- The seven bits that say how the length is written. -/
def lengthCode (n : Nat) : Nat := if n > 0xffff then 127 else if n ≥ 126 then 126 else n

/-- The size of the header before the masking key. -/
def lengthEnd (n : Nat) : Nat := if n > 0xffff then 10 else if n ≥ 126 then 4 else 2

section
variable {opcode : Int} {payload : List UInt8} {mask4 : Option Mask} {buf : Mem} {len n : Nat}

theorem headerLen_eq (n : Nat) (mask4 : Option Mask) :
    headerLen n mask4 = lengthEnd n + if mask4.isSome then 4 else 0 := by
  unfold headerLen lengthEnd
  split
  · rfl
  · split <;> rfl

/-- The seven low bits of the length byte, and the mask bit. -/
theorem lengthByte (masked : Bool) (c : Fin 128) :
    (((if masked then 0x80 else 0) ||| UInt8.ofNat c) &&& 0x7f).toNat = c ∧
      ((((if masked then 0x80 else 0) ||| UInt8.ofNat c) &&& 0x80 != 0) = masked) := by
  revert masked c
  decide

/-- The low bits of the first byte, and the `FIN` bit. -/
theorem firstByte (c : Fin 16) : (0x80 ||| UInt8.ofNat c) &&& 0x0f = UInt8.ofNat c ∧
    ((0x80 ||| UInt8.ofNat c) &&& 0x80 != 0) = true := by
  revert c
  decide

theorem lengthCode_lt : lengthCode n < 128 := by
  unfold lengthCode
  split
  · decide
  · split <;> omega

theorem lengthBytes_head (mbit : UInt8) (n : Nat) :
    (lengthBytes mbit n)[0]? = some (mbit ||| UInt8.ofNat (lengthCode n)) := by
  unfold lengthBytes lengthCode
  split
  · rfl
  · split <;> rfl

theorem foldl_length {bytes : Nat → UInt8} (hn : n < 2 ^ 64)
    (hb : ∀ i < 8, bytes i = UInt8.ofNat (n / 2 ^ (56 - i * 8))) : ∀ k ≤ 8,
    (List.range k).foldl (fun v i => (v * 2 ^ 8 + (bytes i).toNat) % 2 ^ 64) 0 =
      n / 2 ^ (64 - k * 8)
  | 0, _ => (Nat.div_eq_of_lt hn).symm
  | k + 1, hk => by
    have ih := foldl_length hn hb k (by omega)
    rw [List.range_succ, List.foldl_append, ih, List.foldl_cons, List.foldl_nil, hb k (by omega),
      UInt8.toNat_ofNat']
    have he : 64 - (k + 1) * 8 = 56 - k * 8 := by omega
    have hdiv : n / 2 ^ (64 - k * 8) = n / 2 ^ (56 - k * 8) / 2 ^ 8 := by
      rw [Nat.div_div_eq_div_mul, ← Nat.pow_add]
      congr 2
      omega
    have hle : n / 2 ^ (56 - k * 8) ≤ n := Nat.div_le_self ..
    rw [he, hdiv]
    omega

/-- **The length field is read back** once it is there. -/
theorem extendedLen_eq {l : List UInt8} {mbit b : UInt8} (hn : n < 2 ^ 64)
    (h2 : 2 ≤ len) (h : Starts buf len (b :: (lengthBytes mbit n ++ l))) :
    extendedLen buf len (lengthCode n) =
      if len < lengthEnd n then none else some (n, lengthEnd n) := by
  unfold lengthBytes at h
  unfold extendedLen lengthEnd lengthCode
  by_cases h1 : n > 0xffff
  · rw [if_pos h1] at h
    rw [if_pos h1, if_pos h1, if_neg (by decide), if_pos rfl]
    by_cases hlen : len < 10
    · rw [if_pos hlen, if_pos hlen]
    · rw [if_neg hlen, if_neg hlen]
      have hb : ∀ i < 8, buf (2 + i) = UInt8.ofNat (n / 2 ^ (56 - i * 8)) := by
        intro i hi
        refine h (2 + i) (by omega) _ ?_
        rw [Nat.add_comm 2 i, List.cons_append, List.getElem?_cons_succ, List.getElem?_cons_succ,
          List.getElem?_append_left (by simpa using hi)]
        simp [hi]
      rw [foldl_length hn hb 8 (by decide), Nat.pow_zero, Nat.div_one]
  · rw [if_neg h1] at h
    rw [if_neg h1, if_neg h1]
    by_cases h126 : n ≥ 126
    · rw [if_pos h126] at h
      rw [if_pos h126, if_pos h126, if_pos rfl]
      by_cases hlen : len < 4
      · rw [if_pos hlen, if_pos hlen]
      · rw [if_neg hlen, if_neg hlen, h 2 (by omega) _ rfl, h 3 (by omega) _ rfl,
          UInt8.toNat_ofNat', UInt8.toNat_ofNat']
        have : n / 2 ^ 8 % 2 ^ 8 * 2 ^ 8 + n % 2 ^ 8 = n := by omega
        rw [this]
    · rw [if_neg h126, if_neg h126, if_neg (by omega), if_neg (by omega)]
      rw [if_neg (by omega)]

/-- The bytes after the loop: those of the payload, each with its byte of the key. -/
theorem unmask_eq {p mk : Nat} (hmk : mk + 4 ≤ p) (x : Nat) : unmask buf p mk n x =
    if p ≤ x ∧ x < p + n then buf x ^^^ buf (mk + (x - p) % 4) else buf x := by
  induction n generalizing x with
  | zero => rw [if_neg (by omega), unmask]
  | succ n ih =>
    have hkey : unmask buf p mk n (mk + n % 4) = buf (mk + n % 4) := by
      rw [ih, if_neg (by omega)]
    have hold : unmask buf p mk n (p + n) = buf (p + n) := by
      rw [ih, if_neg (by omega)]
    simp only [unmask, hkey, hold]
    by_cases hx : x = p + n
    · rw [hx, if_pos (by omega), Nat.add_sub_cancel_left, Mem.write, if_pos (by simp), Nat.sub_self]
      rfl
    · rw [Mem.write_outside _ (by simp only [List.length_singleton]; omega), ih]
      by_cases h : p ≤ x ∧ x < p + n
      · rw [if_pos h, if_pos (by omega)]
      · rw [if_neg h, if_neg (by omega)]

/-- The description of a whole frame. -/
def parsed (opcode : Int) (n : Nat) (mask4 : Option Mask) : NcWsFrame :=
  ⟨UInt8.ofNat (opcode % 16).toNat, true, headerLen n mask4, n⟩

/-- The buffer after the parse of a whole frame. -/
def unmasked (buf : Mem) (n : Nat) (mask4 : Option Mask) : Mem :=
  if mask4.isSome then unmask buf (headerLen n mask4) (headerLen n mask4 - 4) n else buf

theorem unmasked_outside {x : Nat} (h : x < headerLen n mask4 ∨ headerLen n mask4 + n ≤ x) :
    unmasked buf n mask4 x = buf x := by
  unfold unmasked
  split
  · rename_i hm
    rw [unmask_eq (by rw [headerLen_eq, if_pos hm]; omega), if_neg (by omega)]
  · rfl

/-- **The parser**, as soon as the first byte of a frame is there: it waits for the whole frame. -/
theorem parse_eq (hn : payload.length < 2 ^ 62)
    (h : Starts buf len (frameBytes opcode payload mask4)) : ncWsFrameParse buf len =
      if len < (frameBytes opcode payload mask4).length then none
      else some (unmasked buf payload.length mask4,
        parsed opcode payload.length mask4, ((frameBytes opcode payload mask4).length : Int)) := by
  have hsmall := headerLen_le payload.length mask4
  have hlen := length_frameBytes opcode payload mask4
  have hhdr := headerLen_eq payload.length mask4
  have hend : 2 ≤ lengthEnd payload.length := by
    unfold lengthEnd
    split
    · decide
    · split <;> decide
  unfold ncWsFrameParse
  by_cases h2 : len < 2
  · rw [if_pos h2, if_pos (by omega)]
  obtain ⟨hplen, hmasked⟩ := lengthByte mask4.isSome ⟨lengthCode payload.length, lengthCode_lt⟩
  have hb1 : buf 1 = (if mask4.isSome then 0x80 else 0) |||
      UInt8.ofNat (lengthCode payload.length) := by
    refine h 1 (by omega) _ ?_
    rw [frameBytes, List.getElem?_cons_succ, List.getElem?_append_left, lengthBytes_head]
    rw [length_lengthBytes]
    omega
  rw [if_neg h2]
  dsimp only at hplen hmasked ⊢
  rw [hb1, hplen, hmasked, extendedLen_eq (by omega) (by omega) h]
  by_cases hext : len < lengthEnd payload.length
  · rw [if_pos hext, if_pos (by omega)]
  rw [if_neg hext]
  dsimp only
  have hhdr' : (if mask4.isSome then lengthEnd payload.length + 4 else lengthEnd payload.length) =
      headerLen payload.length mask4 := by
    rw [hhdr]
    split <;> rfl
  rw [hhdr', ← hlen, Nat.mod_eq_of_lt (by omega)]
  by_cases hall : len < (frameBytes opcode payload mask4).length
  · rw [if_pos hall, if_pos hall]
  have hlong : toLong (frameBytes opcode payload mask4).length =
      (frameBytes opcode payload mask4).length := if_pos (by omega)
  rw [if_neg hall, if_neg hall, hlong]
  have h16 : (opcode % 16).toNat < 16 := by omega
  obtain ⟨hop, hfin⟩ := firstByte ⟨(opcode % 16).toNat, h16⟩
  dsimp only at hop hfin
  have hb0 : unmasked buf payload.length mask4 0 = 0x80 ||| UInt8.ofNat (opcode % 16).toNat := by
    rw [unmasked_outside (by omega)]
    exact h 0 (by omega) _ rfl
  change some (unmasked buf payload.length mask4, NcWsFrame.mk
    (unmasked buf payload.length mask4 0 &&& 0x0f)
    (unmasked buf payload.length mask4 0 &&& 0x80 != 0) _ _, _) = _
  rw [hb0, hop, hfin]
  rfl

theorem frameBytes_body (i : Nat) : (frameBytes opcode payload mask4)[lengthEnd payload.length + i]? =
    (bodyBytes payload mask4)[i]? := by
  have hlen : lengthEnd payload.length =
      (lengthBytes (if mask4.isSome then 0x80 else 0) payload.length).length + 1 := by
    unfold lengthEnd
    rw [length_lengthBytes]
    split
    · rfl
    · split <;> rfl
  rw [frameBytes, hlen, Nat.add_right_comm, List.getElem?_cons_succ,
    List.getElem?_append_right (by omega), Nat.add_sub_cancel_left]

theorem key_getElem (key : Mask) (j : Fin 4) :
    [key 0, key 1, key 2, key 3][j.val]? = some (key j) := by
  match j with
  | 0 | 1 | 2 | 3 => rfl

/-- **The payload** of a whole frame, after the parse. -/
theorem read_payload (h : Starts buf len (frameBytes opcode payload mask4))
    (hlen : (frameBytes opcode payload mask4).length ≤ len) :
    (unmasked buf payload.length mask4).read (headerLen payload.length mask4) payload.length =
      payload := by
  rw [length_frameBytes] at hlen
  have hhdr := headerLen_eq payload.length mask4
  apply List.ext_getElem (by simp)
  intro i hi hi'
  simp only [Mem.read, List.getElem_map, List.getElem_range]
  cases mask4 with
  | none =>
    rw [if_neg (by simp), Nat.add_zero] at hhdr
    rw [unmasked, if_neg (by simp)]
    refine h _ (by omega) _ ?_
    rw [hhdr, frameBytes_body]
    exact List.getElem?_eq_getElem hi'
  | some key =>
    rw [Option.isSome_some, if_pos rfl] at hhdr
    have hbody : buf (headerLen payload.length (some key) + i) =
        payload[i] ^^^ key (Fin.ofNat 4 i) := by
      refine h _ (by omega) _ ?_
      rw [hhdr, Nat.add_assoc, frameBytes_body, bodyBytes, List.getElem?_append_right (by simp)]
      simp [maskedWith, hi']
    have hkey : buf (headerLen payload.length (some key) - 4 + i % 4) = key (Fin.ofNat 4 i) := by
      refine h _ (by omega) _ ?_
      rw [hhdr, Nat.add_sub_cancel, frameBytes_body, bodyBytes, List.getElem?_append_left]
      · exact key_getElem key (Fin.ofNat 4 i)
      · exact Nat.mod_lt _ (by decide)
    rw [unmasked, Option.isSome_some, if_pos rfl, unmask_eq (by omega), if_pos (by omega),
      Nat.add_sub_cancel_left, hbody, hkey, UInt8.xor_assoc, UInt8.xor_self, UInt8.xor_zero]

end

/-! ## The loop on a stream -/

/-- A frame that was built, and the buffer it was built into. -/
structure Sent where
  opcode : Fin 16
  payload : List UInt8
  mask4 : Option Mask
  out : Mem
  cap : Nat
  short : payload.length < 2 ^ 62
  fits : headerLen payload.length mask4 + payload.length ≤ cap

/-- What `nc_ws_frame_build` left in the buffer. -/
def Sent.bytes (w : Sent) : List UInt8 :=
  let r := ncWsFrameBuild w.out w.cap w.opcode.val w.payload w.mask4
  r.1.read 0 r.2

/-- The frame as the receiver should have it. -/
def Sent.received (w : Sent) : Received := ⟨UInt8.ofNat w.opcode, true, w.payload⟩

/-- The unparsed bytes of a client. -/
def Holds (c : Option Client) (l : List UInt8) : Prop :=
  ∃ rx, c = some ⟨rx, l.length⟩ ∧ rx.read 0 l.length = l

section
variable {buf : Mem} {l rest : List UInt8} {w : Sent}

theorem Sent.bytes_eq (w : Sent) :
    w.bytes = frameBytes w.opcode.val w.payload w.mask4 := by
  rw [Sent.bytes, build_eq w.out w.short w.fits]
  exact Mem.read_write_self ..

theorem Sent.bytes_ne_nil (w : Sent) : w.bytes ≠ [] := by
  rw [w.bytes_eq]
  exact List.cons_ne_nil _ _

theorem starts_of_prefix {frame : List UInt8} (h : buf.read 0 l.length = l)
    (hp : l <+: frame ∨ frame <+: l) : Starts buf l.length frame := by
  intro i hi b hb
  have hbuf : l[i]? = some (buf i) := by
    rw [← h]
    simp [Mem.read, hi]
  have hsome : l[i]? = some b := by
    rcases hp with hp | ⟨t, rfl⟩
    · obtain ⟨t, rfl⟩ := hp
      rwa [List.getElem?_append_left hi] at hb
    · obtain ⟨hi', -⟩ := List.getElem?_eq_some_iff.1 hb
      rwa [List.getElem?_append_left hi']
  rw [hbuf] at hsome
  exact Option.some.inj hsome

theorem parse_part (h : buf.read 0 l.length = l) (hp : l <+: w.bytes) (hne : l ≠ w.bytes) :
    ncWsFrameParse buf l.length = none := by
  have hlt : l.length < w.bytes.length := by
    rcases Nat.lt_or_ge l.length w.bytes.length with hlt | hge
    · exact hlt
    · exact absurd (hp.eq_of_length_le hge) hne
  have hs := starts_of_prefix h (.inl hp)
  rw [w.bytes_eq] at hs hlt
  rw [parse_eq w.short hs, if_pos hlt]

theorem parse_whole (h : buf.read 0 (w.bytes ++ rest).length = w.bytes ++ rest) :
    ∃ (rx : Mem) (f : NcWsFrame),
      ncWsFrameParse buf (w.bytes ++ rest).length = some (rx, f, (w.bytes.length : Int)) ∧
      Received.mk f.opcode f.fin (rx.read f.payload f.payloadLen) = w.received ∧
      rx.read w.bytes.length rest.length = rest := by
  have hs := starts_of_prefix h (.inr (List.prefix_append ..))
  have hle : w.bytes.length ≤ (w.bytes ++ rest).length := by
    rw [List.length_append]
    omega
  have hop : ((w.opcode.val : Int) % 16).toNat = w.opcode.val := by omega
  rw [w.bytes_eq] at hs hle h ⊢
  have hparse := parse_eq w.short hs
  rw [if_neg (by omega)] at hparse
  refine ⟨_, _, hparse, ?_, ?_⟩
  · rw [parsed, hop]
    dsimp only
    rw [read_payload hs hle]
    rfl
  · have hrest : buf.read (frameBytes w.opcode.val w.payload w.mask4).length rest.length = rest := by
      rw [List.length_append, ← Mem.read_append, Nat.zero_add] at h
      exact (List.append_inj h (by simp)).2
    rw [Mem.read_congr, hrest]
    intro x hx _
    rw [length_frameBytes] at hx
    exact unmasked_outside (.inr hx)

/-- **The loop on what has arrived**: it takes the whole frames, and leaves the part of the next one
as it is. -/
theorem pumpFrames_done : ∀ {done rest : List Sent} {left : List UInt8} {rx : Mem} {fuel : Nat},
    PartOf Sent.bytes left rest →
    rx.read 0 (done.flatMap Sent.bytes ++ left).length = done.flatMap Sent.bytes ++ left →
    done.length ≤ fuel → ∃ rx' : Mem,
      pumpFrames some fuel ⟨rx, (done.flatMap Sent.bytes ++ left).length⟩ =
        (done.map Sent.received, some ⟨rx', left.length⟩) ∧ rx'.read 0 left.length = left
  | [], rest, left, rx, fuel, hp, h, _ => by
    refine ⟨rx, ?_, h⟩
    have hnone : ncWsFrameParse rx left.length = none := by
      cases rest with
      | nil =>
        rw [show left = [] from hp]
        rfl
      | cons w rest => exact parse_part h hp.1 hp.2
    cases fuel with
    | zero => rfl
    | succ fuel =>
      rw [List.flatMap_nil, List.nil_append, pumpFrames, hnone]
      rfl
  | w :: done, rest, left, rx, 0, hp, h, hf => absurd hf (Nat.not_succ_le_zero _)
  | w :: done, rest, left, rx, fuel + 1, hp, h, hf => by
    rw [List.flatMap_cons, List.append_assoc] at h ⊢
    obtain ⟨rx₁, f, hparse, hview, hrest⟩ := parse_whole h
    have hpos : 0 < w.bytes.length := List.length_pos_iff.2 w.bytes_ne_nil
    have hsub : (w.bytes ++ (done.flatMap Sent.bytes ++ left)).length - w.bytes.length =
        (done.flatMap Sent.bytes ++ left).length := by
      rw [List.length_append, Nat.add_sub_cancel_left]
    have hmove := rx₁.read_move 0 w.bytes.length (done.flatMap Sent.bytes ++ left).length
    obtain ⟨rx', hrun, hleft⟩ := pumpFrames_done hp (hmove.trans hrest) (Nat.le_of_succ_le_succ hf)
    refine ⟨rx', ?_, hleft⟩
    rw [pumpFrames, hparse]
    dsimp only
    rw [if_neg (by omega), if_neg (by omega), hview, Int.toNat_natCast, hsub, hrun]
    rfl

theorem pumpWsIn_chunk (c : Option Client) (chunk l : List UInt8) (done rest : List Sent)
    (left : List UInt8) (hc : Holds c l) (h : l ++ chunk = done.flatMap Sent.bytes ++ left)
    (hp : PartOf Sent.bytes left rest) : (pumpWsIn some c chunk).1 = done.map Sent.received ∧
      Holds (pumpWsIn some c chunk).2 left := by
  obtain ⟨rx, rfl, hl⟩ := hc
  have hread : (rx.write l.length chunk).read 0 (l ++ chunk).length = l ++ chunk := by
    have hchunk := rx.read_write_self l.length chunk
    have hbefore : (rx.write l.length chunk).read 0 l.length = l := by
      rw [Mem.read_congr fun x _ hx => rx.write_outside (.inl (by omega)), hl]
    have happ := (rx.write l.length chunk).read_append 0 l.length chunk.length
    rw [Nat.zero_add, hbefore, hchunk] at happ
    rw [List.length_append, happ]
  have hfuel : done.length ≤ (l ++ chunk).length := by
    rw [h, List.length_append]
    have := length_le_flatMap Sent.bytes_ne_nil done
    omega
  rw [h] at hread hfuel
  obtain ⟨rx', hrun, hleft⟩ := pumpFrames_done hp hread hfuel
  rw [← h, List.length_append] at hrun
  rw [pumpWsIn, hrun]
  exact ⟨rfl, rx', rfl, hleft⟩

/-- What the loop has yielded and what it is left with, after some chunks. -/
theorem receive_chunks (rx : Mem) {sent : List Sent} {chunks : List (List UInt8)}
    (h : chunks.flatten <+: sent.flatMap Sent.bytes) :
    ∃ done rest left, sent = done ++ rest ∧
      chunks.flatten = done.flatMap Sent.bytes ++ left ∧ PartOf Sent.bytes left rest ∧
      (feedAll (pumpWsIn some) (some ⟨rx, 0⟩) chunks).1 = done.map Sent.received ∧
      Holds (feedAll (pumpWsIn some) (some ⟨rx, 0⟩) chunks).2 left :=
  feedAll_frames pumpWsIn_chunk ⟨rx, rfl, rfl⟩ (partOf_nil Sent.bytes_ne_nil sent) h

/-- **The codec carries any stream**: with every cut of the bytes of any frames into chunks, and after
each chunk, the loop has yielded the frames that are whole and is left with the part of the next one,
unaltered; at the end it has yielded all. -/
theorem ws_carries_stream (rx : Mem) (sent : List Sent) (chunks : List (List UInt8))
    (h : chunks.flatten <+: sent.flatMap Sent.bytes) :
    ∃ done rest left, sent = done ++ rest ∧
      chunks.flatten = done.flatMap Sent.bytes ++ left ∧ PartOf Sent.bytes left rest ∧
      (feedAll (pumpWsIn some) (some ⟨rx, 0⟩) chunks).1 = done.map Sent.received ∧
      Holds (feedAll (pumpWsIn some) (some ⟨rx, 0⟩) chunks).2 left ∧
      (chunks.flatten = sent.flatMap Sent.bytes → done = sent ∧ left = []) := by
  obtain ⟨done, rest, left, rfl, hl, hp, hout, hleft⟩ := receive_chunks rx h
  refine ⟨done, rest, left, rfl, hl, hp, hout, hleft, fun hall => ?_⟩
  obtain ⟨rfl, rfl⟩ := split_whole hp (hl.symm.trans hall)
  exact ⟨(List.append_nil _).symm, rfl⟩

end

/-- A masked frame of two bytes. -/
def maskedSent : Sent :=
  ⟨2, [7, 8], some fun i => UInt8.ofNat i, fun _ => 0, 16, by decide, by decide⟩

/-- An empty frame without a mask. -/
def emptySent : Sent := ⟨9, [], none, fun _ => 0, 16, by decide, by decide⟩

/-- Half of a masked frame, then the rest of it with an empty frame. -/
theorem ws_carries_stream_two :
    (feedAll (pumpWsIn some) (some ⟨fun _ => 0, 0⟩)
      [[130, 130, 0, 1], [2, 3, 7, 9, 137, 0]]).1 = [⟨2, true, [7, 8]⟩, ⟨9, true, []⟩] := by
  have hbytes : [[130, 130, 0, 1], [2, 3, 7, 9, 137, 0]].flatten =
      [maskedSent, emptySent].flatMap Sent.bytes := by decide
  obtain ⟨done, rest, left, -, -, -, hout, -, hall⟩ := ws_carries_stream (fun _ => 0)
    [maskedSent, emptySent] [[130, 130, 0, 1], [2, 3, 7, 9, 137, 0]] (hbytes ▸ List.prefix_refl _)
  rw [hout, (hall hbytes).1]
  rfl

section
variable {pong rx : Mem}

/-- A loop that works on the frames takes the same ones. -/
theorem pumpFrames_handle {ω : Type} {handle : Received → Option ω} {g : Received → ω} :
    ∀ (fuel : Nat) (c : Client), (∀ f ∈ (pumpFrames some fuel c).1, handle f = some (g f)) →
      pumpFrames handle fuel c = ((pumpFrames some fuel c).1.map g, (pumpFrames some fuel c).2)
  | 0, _, _ => rfl
  | fuel + 1, c, h => by
    unfold pumpFrames at h ⊢
    cases hparse : ncWsFrameParse c.rx c.rxn with
    | none => rfl
    | some r =>
      obtain ⟨rx, f, used⟩ := r
      simp only [hparse] at h ⊢
      by_cases h0 : used = 0
      · rw [if_pos h0, if_pos h0]
        rfl
      rw [if_neg h0] at h
      rw [if_neg h0, if_neg h0]
      by_cases hneg : used < 0
      · rw [if_pos hneg, if_pos hneg]
        rfl
      rw [if_neg hneg] at h
      rw [if_neg hneg, if_neg hneg, h _ (.head _),
        pumpFrames_handle fuel _ fun f hf => h f (.tail _ hf)]
      rfl

theorem relay_open (f : Received) (h : f.opcode ≠ 0x8) :
    relay pong f = some ((relay pong f).getD .ignored) := by
  have hsome : (relay pong f).isSome := by
    unfold relay
    rw [if_neg h]
    split
    · rfl
    · split
      · dsimp only
        split <;> rfl
      · rfl
  obtain ⟨o, ho⟩ := Option.isSome_iff_exists.1 hsome
  rw [ho, Option.getD_some]

/-- **The gateway relays any stream**: with every cut of it into chunks, what it does is the work on
the frames in order, if none of them is a `CLOSE`. -/
theorem gateway_relays {sent : List Sent} {chunks : List (List UInt8)}
    (h : chunks.flatten = sent.flatMap Sent.bytes) (hopen : ∀ w ∈ sent, w.opcode ≠ 8) :
    (feedAll (pumpWsIn (relay pong)) (some ⟨rx, 0⟩) chunks).1.map some =
      sent.map fun w => relay pong w.received := by
  have hprefix : chunks.flatten <+: sent.flatMap Sent.bytes := ⟨[], by rw [List.append_nil, h]⟩
  obtain ⟨done, rest, left, rfl, hl, hp, hout, -⟩ := receive_chunks rx hprefix
  obtain ⟨rfl, rfl⟩ := split_whole hp (hl.symm.trans h)
  rw [List.append_nil] at hopen ⊢
  have hrelay : ∀ w ∈ done, relay pong w.received =
      some ((relay pong w.received).getD .ignored) := by
    intro w hw
    have hop : ∀ o : Fin 16, UInt8.ofNat o = 0x8 → o = 8 := by decide
    exact relay_open _ fun h8 => hopen w hw (hop _ h8)
  have hmap := feedAll_map (pumpWsIn some) (pumpWsIn (relay pong))
    (fun f => relay pong f = some ((relay pong f).getD .ignored))
    (fun f => (relay pong f).getD .ignored)
    (fun c chunk hc => by
      cases c with
      | none => rfl
      | some c => exact pumpFrames_handle _ _ hc) chunks (some ⟨rx, 0⟩)
  rw [hout] at hmap
  rw [hmap fun f hf => ?_]
  · rw [List.map_map, List.map_map]
    exact List.map_congr_left fun w hw => (hrelay w hw).symm
  · obtain ⟨w, hw, rfl⟩ := List.mem_map.1 hf
    exact hrelay w hw

end

end Netchan.Transport
