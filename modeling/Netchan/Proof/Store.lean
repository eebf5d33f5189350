import Netchan.Lib.Arena
import Netchan.Proof.Ack

/-!
# Who holds which buffer

The pool of a connection as an arena: the owners are the slots of its channels. `Delivers` and `Passes`
say which owners a delivery can touch; every other owner keeps its buffer and its bytes. A reassembly
that leaves its buffer would break this, so the steps are those whose completed messages fit
(`FragFits`).
-/

namespace Netchan

open Lib

/-! ## Owners -/

/-- A slot of a channel that can hold a buffer. -/
inductive Loc
  | out (k : Fin ncOutgoingSlots)
  | queue (k : Fin ncRecvQueue)
  | reorder (k : Fin ncReorderSlots)
  | frag (i : Fin ncFragSlots)
  deriving DecidableEq

/-- The slots of the receiver state. -/
def Loc.Inbound : Loc → Prop
  | .out _ => False
  | _ => True

abbrev Owner := ChanId × Loc

def Chan.holds (ch : Chan) : Loc → Option BufIdx
  | .out k => (ch.snd.outgoing k).buf
  | .queue k => (ch.rcv.recvQueue.slots k).buf
  | .reorder k => (ch.rcv.reorder k).buf
  | .frag i => (ch.rcv.frags i).buf

def tableHolds (t : Table) (o : Owner) : Option BufIdx :=
  match t o.1 with
  | none => none
  | some ch => ch.holds o.2

/-- The contents of a buffer. -/
@[irreducible] def Pool.bytes (p : Pool) (b : BufIdx) : List UInt8 :=
  p.poolStore.read (poolPtr (some b)) ncMaxMsg

/-- The pool, by owners. -/
def Conn.arena (c : Conn) : Arena Owner BufIdx (List UInt8) :=
  ⟨c.pool.poolFree, tableHolds c.channels, c.pool.bytes⟩

theorem read_of_bytes {p p' : Pool} {b : BufIdx} (h : p'.bytes b = p.bytes b) {off len : Nat}
    (hl : off + len ≤ ncMaxMsg) : p'.read (some b) off len = p.read (some b) off len := by
  unfold Pool.bytes at h
  exact Mem.read_of_read h hl

theorem bytes_of_store {p p' : Pool} (h : p'.poolStore = p.poolStore) : p'.bytes = p.bytes := by
  funext b
  unfold Pool.bytes
  rw [h]

theorem bytes_write {p p' : Pool} {b b' : BufIdx} (h : b' ≠ b) {n : Nat} {d : List UInt8}
    (hs : p'.poolStore = p.poolStore.write (poolPtr (some b) + n) d)
    (hl : n + d.length ≤ ncMaxMsg) : p'.bytes b' = p.bytes b' := by
  have hne : b'.val ≠ b.val := fun he => h (Fin.ext he)
  unfold Pool.bytes
  rw [hs]
  refine Mem.read_congr fun y h1 h2 => if_neg ?_
  simp only [poolPtr, ncMaxMsg] at h1 h2 hl ⊢
  omega

theorem read_write_self (p : Pool) (b : BufIdx) (d : List UInt8) :
    (p.write (some b) 0 d).read (some b) 0 d.length = d :=
  Mem.read_write_self ..

theorem poolGet_free {p p' : Pool} {b : BufIdx} (h : poolGet p = (some b, p')) :
    p.poolFree = b :: p'.poolFree := by
  unfold poolGet at h
  split at h
  · cases h
  · rename_i b' fs hfs
    cases h
    exact hfs

/-! ## Well-formed slots -/

/-- A slot in use has a buffer, and what it holds fits in it. -/
structure RcvWf (r : Receiver) : Prop where
  queue : ∀ e ∈ r.recvQueue.toList, (∃ b, e.buf = some b) ∧ e.len ≤ ncMaxMsg
  reorder : ∀ k, (r.reorder k).valid = true →
    (∃ b, (r.reorder k).buf = some b) ∧ (r.reorder k).len ≤ ncMaxMsg
  frags : ∀ i, (r.frags i).active = true → ∃ b, (r.frags i).buf = some b

theorem mem_toList {α : Type} {n : Nat} [NeZero n] {r : Ring α n} {e : α} (h : e ∈ r.toList) :
    ∃ k, r.slots k = e := by
  obtain ⟨k, -, rfl⟩ := List.mem_map.1 h
  exact ⟨_, rfl⟩

/-! ## The receiving side of one channel

Everything the DATA path does happens on an `Rx`: a pool and a receiver state. `at` puts it back
into the connection, so that its owners are those of the connection.
-/

section
variable (c : Conn) (id : ChanId) (ch : Chan)

/-- The arena while the DATA path works on channel `id`. -/
def Rx.arena (x : Rx) : Arena Owner BufIdx (List UInt8) := (c.withRx id ch x).arena

/-- The slots of the channel's receiver state. -/
def inbound : Set Owner := {o | o.1 = id ∧ o.2.Inbound}

variable {c id ch}

theorem holds_at (x : Rx) (l : Loc) :
    (x.arena c id ch).holds (id, l) = Chan.holds { ch with rcv := x.rcv } l := by
  simp [Rx.arena, Conn.arena, tableHolds, Conn.withRx, Conn.setChan]

theorem holds_other (x : Rx) {j : ChanId} (h : j ≠ id) (l : Loc) :
    (x.arena c id ch).holds (j, l) = tableHolds c.channels (j, l) := by
  simp only [Rx.arena, Conn.arena, tableHolds, Conn.withRx, Conn.setChan, Table.set_of_ne _ h]

theorem cont_at (x : Rx) : (x.arena c id ch).cont = x.pool.bytes := rfl

theorem free_at (x : Rx) : (x.arena c id ch).free = x.pool.poolFree := rfl

theorem holds_congr {x x' : Rx} {l : Loc}
    (h : ∀ l', l' ≠ l → Chan.holds { ch with rcv := x'.rcv } l' =
      Chan.holds { ch with rcv := x.rcv } l') :
    ∀ o, o ≠ (id, l) → (x'.arena c id ch).holds o = (x.arena c id ch).holds o := by
  rintro ⟨j, l'⟩ ho
  by_cases hj : j = id
  · subst hj
    rw [holds_at, holds_at]
    exact h l' fun he => ho (by rw [he])
  · rw [holds_other x' hj, holds_other x hj]

theorem arena_congr {x x' : Rx} (hp : x'.pool = x.pool)
    (hq : x'.rcv.recvQueue = x.rcv.recvQueue) (hr : x'.rcv.reorder = x.rcv.reorder)
    (hf : x'.rcv.frags = x.rcv.frags) : x'.arena c id ch = x.arena c id ch := by
  simp only [Rx.arena, Conn.arena, Conn.withRx, Conn.setChan, hp]
  congr 1
  funext k
  obtain ⟨j, l⟩ := k
  by_cases hj : j = id
  · subst hj
    cases l <;> simp [tableHolds, Chan.holds, hq, hr, hf]
  · simp [tableHolds, Table.set_of_ne _ hj]

/-- The messages in the receive queue. -/
def Rx.queue (x : Rx) : List (List UInt8) :=
  x.rcv.recvQueue.toList.map fun e => x.pool.read e.buf 0 e.len

/-- The message in a reorder slot. -/
def Rx.slotBytes (x : Rx) (k : Fin ncReorderSlots) : List UInt8 :=
  x.pool.read (x.rcv.reorder k).buf 0 (x.rcv.reorder k).len

/-- What a change that touches none of the queue's slots keeps. -/
theorem queue_of_change {S : Set Owner} {x x' : Rx}
    (h : (x.arena c id ch).Change S (x'.arena c id ch)) (hw : RcvWf x.rcv)
    (hq : x'.rcv.recvQueue = x.rcv.recvQueue) (hS : ∀ k, (id, Loc.queue k) ∉ S) :
    x'.queue = x.queue := by
  unfold Rx.queue
  rw [hq]
  refine List.map_congr_left fun e he => ?_
  obtain ⟨⟨b, hb⟩, hl⟩ := hw.queue e he
  obtain ⟨k, hk⟩ := mem_toList he
  have := h.cont (id, .queue k) (hS k) b (by rw [holds_at]; simp [Chan.holds, hk, hb])
  rw [cont_at, cont_at] at this
  rw [hb]
  exact read_of_bytes this (by omega)

theorem slotBytes_of_change {S : Set Owner} {x x' : Rx}
    (h : (x.arena c id ch).Change S (x'.arena c id ch)) (hw : RcvWf x.rcv)
    {k : Fin ncReorderSlots} (hv : (x.rcv.reorder k).valid = true)
    (hr : x'.rcv.reorder k = x.rcv.reorder k) (hS : (id, Loc.reorder k) ∉ S) :
    x'.slotBytes k = x.slotBytes k := by
  obtain ⟨⟨b, hb⟩, hl⟩ := hw.reorder k hv
  have := h.cont (id, .reorder k) hS b (by rw [holds_at]; simp [Chan.holds, hb])
  rw [cont_at, cont_at] at this
  unfold Rx.slotBytes
  rw [hr, hb]
  exact read_of_bytes this (by omega)

/-! ### Delivery -/

/-- There is room in the receive queue and in the pool for a message of this length. -/
structure Rx.Room (x : Rx) (len : Nat) : Prop where
  queue : ¬ x.rcv.recvQueue.Full
  small : len ≤ ncMaxMsg
  pool : x.pool.poolFree ≠ []

/-- The state after a message entered the queue in buffer `b`. -/
def Rx.enqueued (x : Rx) (id : ChanId) (data : List UInt8) (b : BufIdx) (fs : List BufIdx) : Rx :=
  { pool := { x.pool with poolFree := fs }.write (some b) 0 data
    events := x.events.offer (.data id)
    rcv := { x.rcv with
      recvQueue := x.rcv.recvQueue.push ⟨some b, data.length⟩
      recvBuffered := x.rcv.recvBuffered + UInt32.ofNat data.length
      msgsRecv := x.rcv.msgsRecv + 1 } }

/-- **What a delivery does**: with room the message enters the queue, without it is dropped. -/
theorem deliver_cases (x : Rx) (id : ChanId) (data : List UInt8) :
    (x.Room data.length ∧ ∃ b fs, x.pool.poolFree = b :: fs ∧
      x.deliver id data = x.enqueued id data b fs) ∨
    (¬ x.Room data.length ∧ x.deliver id data = { x with events := x.events.offer (.data id) }) := by
  unfold Rx.deliver chanRecvEnqueue
  by_cases h1 : x.rcv.recvQueue.Full
  · refine .inr ⟨fun h => h.queue h1, ?_⟩
    simp only [if_pos h1]
  · by_cases h2 : data.length > ncMaxMsg
    · refine .inr ⟨fun h => absurd h.small (by omega), ?_⟩
      simp only [if_neg h1, if_pos h2]
    · cases hf : x.pool.poolFree with
      | nil =>
        refine .inr ⟨fun h => h.pool hf, ?_⟩
        simp only [if_neg h1, if_neg h2, poolGet, hf]
      | cons b fs =>
        refine .inl ⟨⟨h1, by omega, by simp [hf]⟩, b, fs, rfl, ?_⟩
        simp only [if_neg h1, if_neg h2, poolGet, hf]
        rfl

theorem enqueued_change {x : Rx} {data : List UInt8} {b : BufIdx} {fs : List BufIdx}
    (hok : (x.arena c id ch).Ok) (hr : x.Room data.length) (hf : x.pool.poolFree = b :: fs) :
    (x.arena c id ch).Change {(id, .queue x.rcv.recvQueue.tail)}
      ((x.enqueued id data b fs).arena c id ch) := by
  refine .alloc hok (b := b) (l := fs) hf rfl ?_ (holds_congr ?_) ?_
  · rw [holds_at]
    simp [Rx.enqueued, Chan.holds, Ring.push]
  · intro l hl
    cases l with
    | queue k =>
      have hk : k ≠ x.rcv.recvQueue.tail := fun he => hl (by rw [he])
      simp [Rx.enqueued, Chan.holds, Ring.push, Function.update_of_ne hk]
    | _ => rfl
  · intro b' hb'
    rw [cont_at, cont_at]
    exact bytes_write (n := 0) (d := data) hb' rfl (by have := hr.small; omega)

theorem enqueued_wf {x : Rx} {data : List UInt8} {b : BufIdx} {fs : List BufIdx}
    (hw : RcvWf x.rcv) (hr : x.Room data.length) : RcvWf (x.enqueued id data b fs).rcv := by
  refine ⟨fun e he => ?_, hw.reorder, hw.frags⟩
  simp only [Rx.enqueued] at he
  rw [Ring.toList_push (by decide) hr.queue, List.mem_append, List.mem_singleton] at he
  rcases he with he | rfl
  · exact hw.queue e he
  · exact ⟨⟨b, rfl⟩, hr.small⟩

/-- **With room, a delivery appends the message to the queue.** -/
theorem enqueued_queue {x : Rx} {data : List UInt8} {b : BufIdx} {fs : List BufIdx}
    (hok : (x.arena c id ch).Ok) (hw : RcvWf x.rcv) (hr : x.Room data.length)
    (hf : x.pool.poolFree = b :: fs) :
    (x.enqueued id data b fs).queue = x.queue ++ [data] := by
  have hold : x.rcv.recvQueue.toList.map
      (fun e => (x.enqueued id data b fs).pool.read e.buf 0 e.len) = x.queue := by
    refine List.map_congr_left fun e he => ?_
    obtain ⟨⟨b', hb'⟩, hl⟩ := hw.queue e he
    obtain ⟨k, hk⟩ := mem_toList he
    -- the buffer is not on the free stack, so the write goes elsewhere
    have hne : b' ≠ b := by
      have := hok.held (id, .queue k) b' (by rw [holds_at]; simp [Chan.holds, hk, hb'])
      rintro rfl
      exact this (show b' ∈ x.pool.poolFree by rw [hf]; exact .head _)
    rw [hb']
    exact read_of_bytes (bytes_write (n := 0) (d := data) hne rfl
      (by have := hr.small; omega)) (by omega)
  have hnew : (x.enqueued id data b fs).pool.read (some b) 0 data.length = data :=
    read_write_self _ b data
  unfold Rx.queue at hold ⊢
  rw [show (x.enqueued id data b fs).rcv.recvQueue =
    x.rcv.recvQueue.push ⟨some b, data.length⟩ from rfl,
    Ring.toList_push (by decide) hr.queue, List.map_append, hold, List.map_singleton, hnew]

/-! ### In-order delivery -/

/-- The arena is in order and so are the slots. -/
structure Rx.Ok (c : Conn) (id : ChanId) (ch : Chan) (x : Rx) : Prop where
  arena : (x.arena c id ch).Ok
  wf : RcvWf x.rcv

/-- The slots of the queue and the reorder table of channel `id`. -/
def deliveryLocs (id : ChanId) : Set Owner :=
  {o | o.1 = id ∧ ((∃ k, o.2 = .queue k) ∨ ∃ k, o.2 = .reorder k)}

/-- From `x` to `x'` the messages `l` entered the queue and none the reorder table. -/
structure Delivers (c : Conn) (id : ChanId) (ch : Chan) (x x' : Rx) (l : List (List UInt8)) :
    Prop where
  ok : x'.Ok c id ch
  change : (x.arena c id ch).Change (deliveryLocs id) (x'.arena c id ch)
  queue : x'.queue = x.queue ++ l
  slots : ∀ k, (x'.rcv.reorder k).valid = true →
    x'.rcv.reorder k = x.rcv.reorder k ∧ x'.slotBytes k = x.slotBytes k
  frags : x'.rcv.frags = x.rcv.frags

namespace Delivers

variable {x x' x'' : Rx} {l l' : List (List UInt8)}

theorem refl (hok : x.Ok c id ch) : Delivers c id ch x x [] :=
  ⟨hok, .refl hok.arena, by simp, fun _ _ => ⟨rfl, rfl⟩, rfl⟩

theorem trans (h1 : Delivers c id ch x x' l) (h2 : Delivers c id ch x' x'' l') :
    Delivers c id ch x x'' (l ++ l') := by
  refine ⟨h2.ok, h1.change.trans h2.change, by rw [h2.queue, h1.queue, List.append_assoc],
    fun k hk => ?_, h2.frags.trans h1.frags⟩
  obtain ⟨e2, b2⟩ := h2.slots k hk
  obtain ⟨e1, b1⟩ := h1.slots k (e2 ▸ hk)
  exact ⟨e2.trans e1, b2.trans b1⟩

theorem congr (h : Delivers c id ch x x' l) (hp : x''.pool = x'.pool)
    (hq : x''.rcv.recvQueue = x'.rcv.recvQueue) (hr : x''.rcv.reorder = x'.rcv.reorder)
    (hf : x''.rcv.frags = x'.rcv.frags) : Delivers c id ch x x'' l := by
  have ha : x''.arena c id ch = x'.arena c id ch := arena_congr hp hq hr hf
  have hwf : RcvWf x''.rcv := ⟨hq ▸ h.ok.wf.queue, hr ▸ h.ok.wf.reorder, hf ▸ h.ok.wf.frags⟩
  refine ⟨⟨ha ▸ h.ok.arena, hwf⟩, ha ▸ h.change, ?_, fun k hk => ?_, hf.trans h.frags⟩
  · rw [← h.queue, Rx.queue, Rx.queue, hq, hp]
  · rw [hr] at hk
    obtain ⟨h1, h2⟩ := h.slots k hk
    exact ⟨by rw [hr, h1], by rw [← h2, Rx.slotBytes, Rx.slotBytes, hr, hp]⟩

end Delivers

theorem deliver_delivers {x : Rx} (hok : x.Ok c id ch) (data : List UInt8) :
    (x.Room data.length ∧ Delivers c id ch x (x.deliver id data) [data]) ∨
      (¬ x.Room data.length ∧ Delivers c id ch x (x.deliver id data) []) := by
  rcases deliver_cases x id data with ⟨hr, b, fs, hf, he⟩ | ⟨hr, he⟩
  · refine .inl ⟨hr, ?_⟩
    have hc := enqueued_change hok.arena hr hf
    rw [he]
    refine ⟨⟨hc.ok, enqueued_wf hok.wf hr⟩, hc.mono ?_, enqueued_queue hok.arena hok.wf hr hf,
      fun k hk => ⟨rfl, ?_⟩, rfl⟩
    · rintro o rfl
      exact ⟨rfl, .inl ⟨_, rfl⟩⟩
    · exact slotBytes_of_change hc hok.wf hk rfl (by simp)
  · rw [he]
    exact .inr ⟨hr, (Delivers.refl hok).congr rfl rfl rfl rfl⟩

/-- The message at `slot` of the reorder table is taken out and its buffer given back. -/
def Rx.slotFreed (x : Rx) (slot : Fin ncReorderSlots) : Rx :=
  { x with
    pool := poolPut x.pool (x.rcv.reorder slot).buf
    rcv := { x.rcv with
      reorder := Function.update x.rcv.reorder slot
        { x.rcv.reorder slot with buf := none, valid := false }
      recvSeq := x.rcv.recvSeq + 1 } }

theorem deliverNext_eq (id : ChanId) (x : Rx) :
    deliverNext id x = (x.deliver id (x.slotBytes (reorderSlot x.rcv.recvSeq))).slotFreed
      (reorderSlot x.rcv.recvSeq) := by
  have h := (deliver_seq x id (x.slotBytes (reorderSlot x.rcv.recvSeq))).2
  simp only [deliverNext, Rx.slotFreed, Rx.slotBytes] at h ⊢
  rw [h]

theorem slotFreed_delivers {x : Rx} {slot : Fin ncReorderSlots} (hok : x.Ok c id ch)
    (hv : (x.rcv.reorder slot).valid = true) : Delivers c id ch x (x.slotFreed slot) [] := by
  obtain ⟨⟨b, hb⟩, hl⟩ := hok.wf.reorder slot hv
  have hp : (x.slotFreed slot).pool = { x.pool with poolFree := b :: x.pool.poolFree } := by
    simp only [Rx.slotFreed, hb, poolPut]
  have hc : (x.arena c id ch).Change {(id, .reorder slot)} ((x.slotFreed slot).arena c id ch) := by
    refine .release hok.arena (o := (id, .reorder slot)) (b := b) ?_ ?_ ?_ (holds_congr ?_) ?_
    · rw [holds_at]
      exact hb
    · rw [free_at, free_at, hp]
    · rw [holds_at]
      simp [Rx.slotFreed, Chan.holds]
    · intro l hl
      cases l with
      | reorder k =>
        have hk : k ≠ slot := fun he => hl (by rw [he])
        simp [Rx.slotFreed, Chan.holds, Function.update_of_ne hk]
      | _ => rfl
    · rw [cont_at, cont_at, hp]
      exact bytes_of_store rfl
  have hother : ∀ k, ((x.slotFreed slot).rcv.reorder k).valid = true →
      k ≠ slot ∧ (x.slotFreed slot).rcv.reorder k = x.rcv.reorder k := by
    intro k hk
    have hne : k ≠ slot := by
      rintro rfl
      simp [Rx.slotFreed] at hk
    exact ⟨hne, by simp [Rx.slotFreed, Function.update_of_ne hne]⟩
  refine ⟨⟨hc.ok, ⟨hok.wf.queue, fun k hk => ?_, hok.wf.frags⟩⟩, hc.mono ?_, ?_, fun k hk => ?_,
    rfl⟩
  · obtain ⟨-, he⟩ := hother k hk
    rw [he] at hk ⊢
    exact hok.wf.reorder k hk
  · rintro o rfl
    exact ⟨rfl, .inr ⟨_, rfl⟩⟩
  · rw [List.append_nil]
    exact queue_of_change hc hok.wf rfl (by simp)
  · obtain ⟨hne, he⟩ := hother k hk
    refine ⟨he, slotBytes_of_change hc hok.wf (he ▸ hk) he ?_⟩
    simpa using hne

theorem deliverNext_delivers {x : Rx} (hok : x.Ok c id ch)
    (hv : (x.rcv.reorder (reorderSlot x.rcv.recvSeq)).valid = true) :
    let data := x.slotBytes (reorderSlot x.rcv.recvSeq)
    (x.Room data.length ∧ Delivers c id ch x (deliverNext id x) [data]) ∨
      (¬ x.Room data.length ∧ Delivers c id ch x (deliverNext id x) []) := by
  intro data
  have hr : ((x.deliver id data).rcv.reorder (reorderSlot x.rcv.recvSeq)).valid = true := by
    rw [(deliver_seq x id data).2]
    exact hv
  rw [deliverNext_eq]
  rcases deliver_delivers hok data with ⟨hroom, hd⟩ | ⟨hroom, hd⟩
  · exact .inl ⟨hroom, by simpa using hd.trans (slotFreed_delivers hd.ok hr)⟩
  · exact .inr ⟨hroom, by simpa using hd.trans (slotFreed_delivers hd.ok hr)⟩

/-- The messages in the reorder slots of the `n` sequence numbers from `s` on. -/
def Rx.lined (x : Rx) (s : UInt16) (n : Nat) : List (List UInt8) :=
  (List.range n).map fun j => x.slotBytes (reorderSlot (s + UInt16.ofNat j))

theorem lined_succ (x : Rx) (s : UInt16) (n : Nat) :
    x.lined s (n + 1) = x.lined s n ++ [x.slotBytes (reorderSlot (s + UInt16.ofNat n))] := by
  simp [Rx.lined, List.range_succ]

/-- There is room for `n` messages from the reorder table, one after the other. -/
def Rx.RoomFor (x : Rx) (n : Nat) : Prop :=
  x.rcv.recvQueue.size + n < ncRecvQueue ∧ (n ≠ 0 → x.pool.poolFree ≠ [])

theorem length_queue (x : Rx) : x.queue.length = x.rcv.recvQueue.size := by simp [Rx.queue]

theorem length_slotBytes (x : Rx) (k : Fin ncReorderSlots) :
    (x.slotBytes k).length = (x.rcv.reorder k).len := by simp [Rx.slotBytes, Pool.read]

/-- The pool has a free buffer once a waiting message's own one was given back. -/
theorem deliverNext_free {x : Rx} (hw : RcvWf x.rcv)
    (hv : (x.rcv.reorder (reorderSlot x.rcv.recvSeq)).valid = true) :
    (deliverNext id x).pool.poolFree ≠ [] := by
  obtain ⟨⟨b, hb⟩, -⟩ := hw.reorder _ hv
  rw [deliverNext_eq, Rx.slotFreed, (deliver_seq x id _).2, hb]
  simp [poolPut]

/-- The loop of `chan_deliver_reordered` by its rounds. -/
theorem deliverLoop_rounds {I : Nat → Rx → Prop}
    (hstep : ∀ n y, I n y → waits y.rcv.reorder y.rcv.recvSeq = true → I (n + 1) (deliverNext id y)) :
    ∀ (fuel n : Nat) (x : Rx), I n x → ∃ m, m ≤ n + fuel ∧ I m (deliverLoop id fuel x)
  | 0, n, x, h => ⟨n, Nat.le_refl _, h⟩
  | fuel + 1, n, x, h => by
    unfold deliverLoop
    split
    · obtain ⟨m, hm, hi⟩ := deliverLoop_rounds hstep fuel (n + 1) _ (hstep n x h ‹_›)
      exact ⟨m, by omega, hi⟩
    · exact ⟨n, by omega, h⟩

/-- `n` rounds of in-order delivery: the messages of the next `n` sequence numbers leave the
reorder table; what enters the queue is some of them in order, and all of them if there is room. -/
structure Passes (c : Conn) (id : ChanId) (ch : Chan) (x : Rx) (n : Nat) (y : Rx) : Prop where
  seq : y.rcv.recvSeq = x.rcv.recvSeq + UInt16.ofNat n
  delivers : ∃ l, Delivers c id ch x y l ∧ l.Sublist (x.lined x.rcv.recvSeq n) ∧
    (x.RoomFor n → l = x.lined x.rcv.recvSeq n)
  free : (n = 0 → y.pool = x.pool) ∧ (n ≠ 0 → y.pool.poolFree ≠ [])
  cleared : ∀ j < n,
    (y.rcv.reorder (reorderSlot (x.rcv.recvSeq + UInt16.ofNat j))).valid = false

theorem Passes.next {x y : Rx} {n : Nat} (h : Passes c id ch x n y)
    (hw : waits y.rcv.reorder y.rcv.recvSeq = true) :
    Passes c id ch x (n + 1) (deliverNext id y) := by
  obtain ⟨l, hd, hsub, hall⟩ := h.delivers
  have hv : (y.rcv.reorder (reorderSlot y.rcv.recvSeq)).valid = true := by
    simp only [waits, Bool.and_eq_true] at hw
    exact hw.1
  have hdata : y.slotBytes (reorderSlot y.rcv.recvSeq) =
      x.slotBytes (reorderSlot (x.rcv.recvSeq + UInt16.ofNat n)) := by
    rw [(hd.slots _ hv).2, h.seq]
  have hclear : ∀ l', Delivers c id ch y (deliverNext id y) l' → ∀ j < n + 1,
      ((deliverNext id y).rcv.reorder
        (reorderSlot (x.rcv.recvSeq + UInt16.ofNat j))).valid = false := by
    intro l' hd' j hj
    by_contra hc
    rw [Bool.not_eq_false] at hc
    have he := (hd'.slots _ hc).1
    by_cases hjn : j = n
    · subst hjn
      rw [← h.seq, (deliverNext_seq id y).2, Function.update_self] at hc
      cases hc
    · rw [he, h.cleared j (by omega)] at hc
      cases hc
  have hseq : (deliverNext id y).rcv.recvSeq = x.rcv.recvSeq + UInt16.ofNat (n + 1) := by
    rw [(deliverNext_seq id y).1, h.seq, UInt16.add_assoc, ofNat_succ]
  have hfree : (deliverNext id y).pool.poolFree ≠ [] := deliverNext_free hd.ok.wf hv
  rcases deliverNext_delivers hd.ok hv with ⟨hr, hd'⟩ | ⟨hr, hd'⟩
  · refine ⟨hseq, ⟨l ++ [_], hd.trans hd', ?_, fun hroom => ?_⟩, ⟨by simp, fun _ => hfree⟩,
      hclear _ hd'⟩
    · rw [lined_succ, hdata]
      exact hsub.append (List.Sublist.refl _)
    · rw [lined_succ, hdata, hall ⟨by have := hroom.1; omega, fun _ => hroom.2 (by simp)⟩]
  · refine ⟨hseq, ⟨l ++ [], hd.trans hd', ?_, fun hroom => absurd ?_ hr⟩,
      ⟨by simp, fun _ => hfree⟩, hclear _ hd'⟩
    · rw [lined_succ]
      exact hsub.append (List.nil_sublist _)
    · -- with room for all of them there is room for this one
      have hl := hall ⟨by have := hroom.1; omega, fun _ => hroom.2 (by simp)⟩
      have hlen := congrArg List.length hd.queue
      rw [List.length_append, length_queue, length_queue, hl] at hlen
      simp only [Rx.lined, List.length_map, List.length_range] at hlen
      refine ⟨fun hfull => ?_, ?_, ?_⟩
      · rw [Ring.full_iff (by decide)] at hfull
        have := hroom.1
        omega
      · rw [length_slotBytes]
        exact (hd.ok.wf.reorder _ hv).2
      · by_cases hn : n = 0
        · rw [h.free.1 hn]
          exact hroom.2 (by simp)
        · exact h.free.2 hn

/-- **In-order delivery** passes exactly the messages that wait without a gap. -/
theorem chanDeliverReordered_passes {x : Rx} (hok : x.Ok c id ch) :
    Passes c id ch x (waiting x.rcv.reorder ncReorderSlots x.rcv.recvSeq)
      (chanDeliverReordered id x) := by
  have h0 : Passes c id ch x 0 x :=
    ⟨by simp, ⟨[], .refl hok, by simp, fun _ => by simp [Rx.lined]⟩, ⟨fun _ => rfl, by simp⟩,
      by simp⟩
  obtain ⟨n, hn, h⟩ := deliverLoop_rounds (I := Passes c id ch x) (fun _ _ => Passes.next)
    ncReorderSlots 0 x h0
  have hs := deliverLoop_seq id ncReorderSlots x (Nat.le_refl _)
  rw [h.seq] at hs
  have hle := waiting_le x.rcv.reorder ncReorderSlots x.rcv.recvSeq
  have heq : n = waiting x.rcv.reorder ncReorderSlots x.rcv.recvSeq := by
    refine eq_of_ofNat ((UInt16.add_right_inj _).1 hs) ?_ ?_ <;> simp only [ncReorderSlots] at * <;> omega
  rw [← heq]
  exact h

end

end Netchan
