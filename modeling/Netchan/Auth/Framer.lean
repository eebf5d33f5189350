import Netchan.Lib.Bytes
import Netchan.Lib.CString
import Netchan.Lib.Framing

/-!
# The framer

`nc_auth_frame` and `nc_auth_framer` of `auth/nc_auth_ia.c`: messages with a length in front, cut out of
a stream of bytes again.

A message is handed out as a pointer into the buffer, so its bytes are dropped by the next call only.
`Framer.pending` is what the framer stands for: the bytes that it holds and has not handed out. Every
call is specified by what it does to them.

* `compact_pending`, `push_pending`, `next_frame`, `next_part`: what one call does.
* `drain_frames`: the loop that takes every message that is whole.
* `framer_reassembles`: however the stream is cut, the messages come out of it.
-/

namespace Netchan.Auth

open Lib

/-! ## The code -/

/-- `nc_auth_frame`, into a buffer of `outlen` bytes. -/
def ncAuthFrame (outlen : Nat) (msg : List UInt8) : Option (List UInt8) :=
  let len := msg.length
  if len = 0 ∨ len > 0xffff ∨ outlen < len + 2 then none
  else some (UInt8.ofNat (len &&& 0xff) :: UInt8.ofNat (len >>> 8 &&& 0xff) :: msg)

/-- `struct nc_auth_framer`. -/
structure Framer where
  buf : Mem
  cap : Nat
  len : Nat
  done : Nat
  done_le : done ≤ len
  len_le : len ≤ cap

/-- `nc_auth_framer_init`. -/
def ncAuthFramerInit (buf : Mem) (cap : Nat) : Framer :=
  { buf, cap, len := 0, done := 0, done_le := Nat.le_refl 0, len_le := Nat.zero_le cap }

/-- `compact`. -/
def compact (f : Framer) : Framer :=
  if f.done = 0 then f
  else
    { f with
      buf := f.buf.move 0 f.done (f.len - f.done)
      len := f.len - f.done
      done := 0
      done_le := Nat.zero_le _
      len_le := (Nat.sub_le _ _).trans f.len_le }

/-- `nc_auth_framer_push`: whether it returns `NC_AUTH_OK`. -/
def ncAuthFramerPush (f : Framer) (bytes : List UInt8) : Bool × Framer :=
  let f := compact f
  let n := bytes.length
  if h : n > f.cap - f.len then (false, f)
  else
    (true, { f with
      buf := f.buf.write f.len bytes
      len := f.len + n
      done_le := f.done_le.trans (Nat.le_add_right _ _)
      len_le := Nat.add_le_of_le_sub' f.len_le (Nat.not_lt.1 h) })

/-- What `nc_auth_framer_next` returns: 0, `NC_AUTH_ERR`, or a length and the bytes at `*msg`. -/
inductive Taken
  | more
  | err
  | msg (bytes : List UInt8)
  deriving DecidableEq

/-- `nc_auth_framer_next`. -/
def ncAuthFramerNext (f : Framer) : Taken × Framer :=
  let f := compact f
  if f.len < 2 then (.more, f)
  else
    let need := rdLe16 (f.buf 0) (f.buf 1)
    if need = 0 then (.err, f)
    else if h : f.len < need + 2 then (.more, f)
    else (.msg (f.buf.read 2 need), { f with done := need + 2, done_le := Nat.not_lt.1 h })

/-- The loop `while ((mlen = nc_auth_framer_next(&f, &m)) > 0)`, with what the last call returned. -/
def drain : Nat → Framer → List (List UInt8) × Taken × Framer
  | 0, f => ([], .err, f)
  | n + 1, f =>
    match ncAuthFramerNext f with
    | (.msg bytes, f) =>
      let r := drain n f
      (bytes :: r.1, r.2)
    | (code, f) => ([], code, f)

/-- A chunk is pushed and the framer drained. A message takes three bytes at least, so what the framer
holds is enough fuel. -/
def pushDrain (f : Framer) (chunk : List UInt8) : List (List UInt8) × Taken × Framer :=
  let f := (ncAuthFramerPush f chunk).2
  drain (f.len + 1) f

/-- A receiver of chunks. -/
def pump (f : Framer) (chunk : List UInt8) : List (List UInt8) × Framer :=
  ((pushDrain f chunk).1, (pushDrain f chunk).2.2)

/-! ## What a framer holds -/

/-- The bytes that were not handed out yet. -/
def Framer.pending (f : Framer) : List UInt8 := f.buf.read f.done (f.len - f.done)

/-- A message that can be framed. -/
def Message := { msg : List UInt8 // 1 ≤ msg.length ∧ msg.length ≤ 65535 }

/-- A message as it stands in the stream. -/
def Message.framed (m : Message) : List UInt8 := wrLe16 m.val.length ++ m.val

section
variable {f : Framer} {left : List UInt8}

theorem Message.length_framed (m : Message) : m.framed.length = m.val.length + 2 := by
  simp only [framed, wrLe16, List.length_append, List.length_cons, List.length_nil]
  omega

theorem Message.framed_ne_nil (m : Message) : m.framed ≠ [] := by
  intro h
  have := m.length_framed
  rw [h, List.length_nil] at this
  omega

/-- **What `nc_auth_frame` writes.** -/
theorem ncAuthFrame_eq (m : Message) {outlen : Nat} (hout : m.val.length + 2 ≤ outlen) :
    ncAuthFrame outlen m.val = some m.framed := by
  obtain ⟨h1, h2⟩ := m.property
  have hlo : UInt8.ofNat (m.val.length &&& 0xff) = UInt8.ofNat m.val.length := by
    rw [Nat.and_two_pow_sub_one_eq_mod m.val.length 8]
    exact UInt8.toNat_inj.1 (by simp)
  have hhi : UInt8.ofNat (m.val.length >>> 8 &&& 0xff) = UInt8.ofNat (m.val.length / 256) := by
    rw [Nat.and_two_pow_sub_one_eq_mod _ 8, Nat.shiftRight_eq_div_pow]
    exact UInt8.toNat_inj.1 (by simp)
  unfold ncAuthFrame
  dsimp only
  rw [if_neg (by omega), hlo, hhi]
  rfl

/-- Compaction drops what was handed out, and nothing else. -/
theorem compact_pending (f : Framer) :
    (compact f).done = 0 ∧ (compact f).cap = f.cap ∧ (compact f).len = f.pending.length ∧
      (compact f).buf.read 0 (compact f).len = f.pending ∧ (compact f).pending = f.pending := by
  unfold compact Framer.pending
  split
  · rename_i h
    simp only [h, Mem.length_read, Nat.sub_zero, and_self]
  · simp only [Mem.length_read, Mem.read_move, Nat.sub_zero, and_self]

/-- **A push adds to the pending bytes**, if there is room for it. -/
theorem push_pending {bytes : List UInt8} (h : (ncAuthFramerPush f bytes).1 = true) :
    (ncAuthFramerPush f bytes).2.pending = f.pending ++ bytes := by
  obtain ⟨hdone, -, hlen, hread, -⟩ := compact_pending f
  unfold ncAuthFramerPush at h ⊢
  dsimp only at h ⊢
  split at h
  · cases h
  rename_i hfit
  rw [dif_neg hfit]
  unfold Framer.pending
  dsimp only
  rw [hdone, Nat.sub_zero, ← Mem.read_append, Nat.zero_add, Mem.read_write_self,
    Mem.read_congr fun x _ hx => (compact f).buf.write_outside (.inl (by omega)), hread]
  rfl

/-- A push that is refused changes nothing but the deferred compaction. -/
theorem push_refused {bytes : List UInt8} (h : (ncAuthFramerPush f bytes).1 = false) :
    (ncAuthFramerPush f bytes).2 = compact f := by
  unfold ncAuthFramerPush at h ⊢
  dsimp only at h ⊢
  split at h
  · rename_i hfull
    rw [dif_pos hfull]
  · cases h

/-! ## Taking the messages out -/

theorem compact_need (f : Framer) (h : 2 ≤ f.pending.length) :
    rdLe16 ((compact f).buf 0) ((compact f).buf 1) =
      rdLe16 (byte f.pending 0) (byte f.pending 1) := by
  obtain ⟨-, -, hlen, hread, -⟩ := compact_pending f
  have hbyte : ∀ i < 2, byte f.pending i = (compact f).buf i := by
    intro i hi
    rw [← hread, byte, List.getD_eq_getElem?_getD, List.getElem?_eq_getElem (by simp; omega)]
    simp [Mem.read]
  rw [hbyte 0 (by decide), hbyte 1 (by decide)]

/-- **A whole message is handed out**, and the rest stays. -/
theorem next_frame {m : Message} {rest : List UInt8} (h : f.pending = m.framed ++ rest) :
    (ncAuthFramerNext f).1 = .msg m.val ∧ (ncAuthFramerNext f).2.pending = rest := by
  obtain ⟨hdone, -, hlen, hread, -⟩ := compact_pending f
  obtain ⟨h1, h2⟩ := m.property
  have hsize : (compact f).len = m.val.length + 2 + rest.length := by
    rw [hlen, h, List.length_append, m.length_framed]
  have hneed : rdLe16 ((compact f).buf 0) ((compact f).buf 1) = m.val.length := by
    rw [compact_need f (by omega), h]
    exact rdLe16_wrLe16 (by omega)
  have htail : (compact f).buf.read (m.val.length + 2) rest.length = rest := by
    have hin := @Mem.read_inside (compact f).buf 0 (m.val.length + 2) rest.length (compact f).len
      (Nat.le_of_eq hsize.symm)
    rw [hread, h, Nat.zero_add, List.drop_left' m.length_framed, List.take_length] at hin
    exact hin
  have hbytes : (compact f).buf.read 2 m.val.length = m.val := by
    have hin := @Mem.read_inside (compact f).buf 0 2 m.val.length (compact f).len (by omega)
    have htwo : (wrLe16 m.val.length).length = 2 := rfl
    rw [hread, h, Nat.zero_add, Message.framed, List.append_assoc, List.drop_left' htwo,
      List.take_left] at hin
    exact hin
  unfold ncAuthFramerNext
  dsimp only
  rw [if_neg (by omega), if_neg (by omega), dif_neg (by omega)]
  refine ⟨?_, ?_⟩
  · change Taken.msg ((compact f).buf.read 2 (rdLe16 ((compact f).buf 0) ((compact f).buf 1))) = _
    rw [hneed, hbytes]
  · unfold Framer.pending
    dsimp only
    rw [hneed, hsize, Nat.add_sub_cancel_left, htail]

/-- **A part of a message is kept.** -/
theorem next_part {rest : List Message} (h : PartOf Message.framed f.pending rest) :
    (ncAuthFramerNext f).1 = .more ∧ (ncAuthFramerNext f).2.pending = f.pending := by
  obtain ⟨hdone, -, hlen, hread, hpend⟩ := compact_pending f
  unfold ncAuthFramerNext
  dsimp only
  by_cases hshort : (compact f).len < 2
  · rw [if_pos hshort]
    exact ⟨rfl, hpend⟩
  rw [if_neg hshort]
  cases rest with
  | nil =>
    rw [h, List.length_nil] at hlen
    omega
  | cons m rest =>
    obtain ⟨⟨tail, ht⟩, hne⟩ := h
    obtain ⟨hm1, hm2⟩ := m.property
    have hneed : rdLe16 ((compact f).buf 0) ((compact f).buf 1) = m.val.length := by
      have hbyte (i : Nat) (hi : i < 2) : byte f.pending i = byte m.framed i := by
        rw [← ht, byte, byte, List.getD_eq_getElem?_getD, List.getD_eq_getElem?_getD,
          List.getElem?_append_left (by omega)]
      rw [compact_need f (by omega), hbyte 0 (by decide), hbyte 1 (by decide)]
      exact rdLe16_wrLe16 (by omega)
    have hlt : f.pending.length < m.val.length + 2 := by
      have hsum := congrArg List.length ht
      rw [List.length_append, m.length_framed] at hsum
      have htail : tail ≠ [] := by
        intro h0
        rw [h0, List.append_nil] at ht
        exact hne ht
      have := List.length_pos_iff.2 htail
      omega
    rw [if_neg (by omega), dif_pos (by omega)]
    exact ⟨rfl, hpend⟩

/-- **The loop takes the whole messages**, ends with 0 and leaves the part of the next one. -/
theorem drain_frames {n : Nat} {done rest : List Message}
    (h : f.pending = done.flatMap Message.framed ++ left) (hp : PartOf Message.framed left rest)
    (hn : done.length < n) :
    (drain n f).1 = done.map Subtype.val ∧ (drain n f).2.1 = .more ∧
      (drain n f).2.2.pending = left := by
  induction done generalizing n f with
  | nil =>
    obtain ⟨n, rfl⟩ : ∃ m, n = m + 1 := ⟨n - 1, by omega⟩
    rw [List.flatMap_nil, List.nil_append] at h
    obtain ⟨h1, h2⟩ := next_part (h.symm ▸ hp)
    rw [drain]
    rcases hnext : ncAuthFramerNext f with ⟨code, f'⟩
    rw [hnext] at h1 h2
    obtain rfl : code = .more := h1
    exact ⟨rfl, rfl, h2.trans h⟩
  | cons m done ih =>
    obtain ⟨n, rfl⟩ : ∃ m, n = m + 1 := ⟨n - 1, by omega⟩
    rw [List.flatMap_cons, List.append_assoc] at h
    obtain ⟨h1, h2⟩ := next_frame h
    rw [drain]
    rcases hnext : ncAuthFramerNext f with ⟨code, f'⟩
    rw [hnext] at h1 h2
    obtain rfl : code = .msg m.val := h1
    obtain ⟨h3, h4, h5⟩ := @ih f' n h2 (by rw [List.length_cons] at hn; omega)
    exact ⟨congrArg (m.val :: ·) h3, h4, h5⟩

/-- **One chunk.** -/
theorem pushDrain_frames {chunk : List UInt8} {done rest : List Message}
    (hok : (ncAuthFramerPush f chunk).1 = true)
    (h : f.pending ++ chunk = done.flatMap Message.framed ++ left)
    (hp : PartOf Message.framed left rest) :
    (pushDrain f chunk).1 = done.map Subtype.val ∧ (pushDrain f chunk).2.1 = .more ∧
      (pushDrain f chunk).2.2.pending = left := by
  have hpend := push_pending hok
  refine drain_frames (hpend.trans h) hp ?_
  have hfuel := length_le_flatMap Message.framed_ne_nil done
  have hlen := congrArg List.length (hpend.trans h)
  rw [Framer.pending, Mem.length_read, List.length_append] at hlen
  omega

/-- What the framer has yielded and what it holds, after some chunks. -/
theorem pump_chunks (buf : Mem) (cap : Nat) {msgs : List Message} {chunks : List (List UInt8)}
    (hcut : chunks.flatten <+: msgs.flatMap Message.framed)
    (hok : ∀ pre chunk post, chunks = pre ++ chunk :: post →
      (ncAuthFramerPush (feedAll pump (ncAuthFramerInit buf cap) pre).2 chunk).1 = true) :
    ∃ done rest left, msgs = done ++ rest ∧ chunks.flatten = done.flatMap Message.framed ++ left ∧
      PartOf Message.framed left rest ∧
      (feedAll pump (ncAuthFramerInit buf cap) chunks).1 = done.map Subtype.val ∧
      (feedAll pump (ncAuthFramerInit buf cap) chunks).2.pending = left := by
  refine @feedAll_accepted _ _ _ Message.framed Subtype.val pump (fun f l => f.pending = l)
    (fun f chunk => (ncAuthFramerPush f chunk).1 = true) (fun f chunk l done rest left hl hok h hp => ?_)
    chunks (ncAuthFramerInit buf cap) [] msgs rfl (partOf_nil Message.framed_ne_nil msgs) hcut hok
  rw [← hl] at h
  obtain ⟨h1, -, h3⟩ := pushDrain_frames hok h hp
  exact ⟨h1, h3⟩

end

/-- **The framer reassembles any stream**: however the bytes of any messages are cut into chunks, as long
as every push is accepted, the loop after each push ends with 0, and what it took out so far are the
messages that have arrived whole; the framer is left with a part of the next one, in the end with
nothing. A push that is refused does no more than the deferred compaction. -/
theorem framer_reassembles (buf : Mem) (cap : Nat) (msgs : List Message) (chunks : List (List UInt8))
    (hcut : chunks.flatten <+: msgs.flatMap Message.framed)
    (hok : ∀ pre chunk post, chunks = pre ++ chunk :: post →
      (ncAuthFramerPush (feedAll pump (ncAuthFramerInit buf cap) pre).2 chunk).1 = true) :
    (∀ m ∈ msgs, ∀ outlen ≥ m.val.length + 2, ncAuthFrame outlen m.val = some m.framed) ∧
      (∃ done rest left, msgs = done ++ rest ∧ chunks.flatten = done.flatMap Message.framed ++ left ∧
        PartOf Message.framed left rest ∧
        (feedAll pump (ncAuthFramerInit buf cap) chunks).1 = done.map Subtype.val ∧
        (feedAll pump (ncAuthFramerInit buf cap) chunks).2.pending = left ∧
        (chunks.flatten = msgs.flatMap Message.framed → done = msgs ∧ left = [])) ∧
      (∀ pre chunk post, chunks = pre ++ chunk :: post →
        (pushDrain (feedAll pump (ncAuthFramerInit buf cap) pre).2 chunk).2.1 = .more) ∧
      ∀ f bytes, (ncAuthFramerPush f bytes).1 = false →
        (ncAuthFramerPush f bytes).2 = compact f ∧ (compact f).pending = f.pending ∧
          (compact f).cap = f.cap := by
  refine ⟨fun m _ outlen hout => ncAuthFrame_eq m hout, ?_, fun pre chunk post hsplit => ?_,
    fun f bytes h => ?_⟩
  · obtain ⟨done, rest, left, rfl, hl, hp, hout, hleft⟩ := pump_chunks buf cap hcut hok
    refine ⟨done, rest, left, rfl, hl, hp, hout, hleft, fun hall => ?_⟩
    obtain ⟨rfl, rfl⟩ := split_whole hp (hl.symm.trans hall)
    exact ⟨(List.append_nil _).symm, rfl⟩
  · -- the chunks before this one, and then this one
    subst hsplit
    rw [List.flatten_append, List.flatten_cons, ← List.append_assoc] at hcut
    have hpre := (List.prefix_append _ _).trans hcut
    obtain ⟨done, rest, left, rfl, hl, hp, -, hleft⟩ :=
      pump_chunks buf cap ((List.prefix_append _ _).trans hpre) fun pre' next post' h' =>
        hok pre' next (post' ++ chunk :: post) (by rw [h']; simp)
    rw [hl, List.flatMap_append, List.append_assoc, List.prefix_append_right_inj] at hpre
    obtain ⟨done', rest', left', -, hl', hp'⟩ := exists_split Message.framed hpre
    rw [← hleft] at hl'
    exact (pushDrain_frames (hok pre chunk post rfl) hl' hp').2.1
  · obtain ⟨-, hcap, -, -, hpend⟩ := compact_pending f
    exact ⟨push_refused h, hpend, hcap⟩

/-- A header that is split, and a chunk with the end of one message and the start of the next. -/
theorem framer_reassembles_sample :
    let msgs : List Message := [⟨[9], by decide⟩, ⟨[7, 8], by decide⟩]
    let chunks : List (List UInt8) := [[1], [0, 9, 2], [0, 7, 8]]
    let f := feedAll pump (ncAuthFramerInit (fun _ => 0) 4) chunks
    chunks.flatten = msgs.flatMap Message.framed ∧ f.1 = msgs.map Subtype.val ∧ f.2.pending = [] := by
  intro msgs chunks f
  have hcut : chunks.flatten = msgs.flatMap Message.framed := by decide
  have hok : ∀ pre chunk post, chunks = pre ++ chunk :: post →
      (ncAuthFramerPush (feedAll pump (ncAuthFramerInit (fun _ => 0) 4) pre).2 chunk).1 = true := by
    intro pre chunk post h
    rcases pre with _ | ⟨c1, _ | ⟨c2, _ | ⟨c3, pre⟩⟩⟩
    · simp only [chunks, List.nil_append, List.cons.injEq] at h
      obtain ⟨rfl, -⟩ := h
      decide +kernel
    · simp only [chunks, List.cons_append, List.nil_append, List.cons.injEq] at h
      obtain ⟨rfl, rfl, -⟩ := h
      decide +kernel
    · simp only [chunks, List.cons_append, List.nil_append, List.cons.injEq] at h
      obtain ⟨rfl, rfl, rfl, -⟩ := h
      decide +kernel
    · simp [chunks] at h
  obtain ⟨-, ⟨done, rest, left, -, -, -, hout, hleft, hall⟩, -⟩ :=
    framer_reassembles (fun _ => 0) 4 msgs chunks (hcut ▸ List.prefix_rfl) hok
  obtain ⟨hdone, hnil⟩ := hall hcut
  rw [hdone] at hout
  rw [hnil] at hleft
  exact ⟨hcut, hout, hleft⟩

end Netchan.Auth
