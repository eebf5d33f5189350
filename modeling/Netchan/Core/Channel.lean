import Netchan.Core.Types

/-!
# Pool, queues and channel helpers

The static helpers of `src/netchan.c` below the frame handlers: the message-buffer pool, the event
queue, the control-frame queue with its encoders, channel creation, the receive queue with in-order
delivery of the reorder table, and fragment reassembly. The two functions that look at a channel's
send ring (`chanNextSendable`, `outAdvance`) are here too.
-/

namespace Netchan

open Lib

/-! ## Message-buffer pool -/

def poolInit : Pool := ⟨(List.finRange ncPoolBufs).reverse, fun _ => 0⟩

def poolGet (p : Pool) : Option BufIdx × Pool :=
  match p.poolFree with
  | [] => (none, p)
  | b :: fs => (some b, { p with poolFree := fs })

def poolPut (p : Pool) : Option BufIdx → Pool
  | none => p
  | some b => { p with poolFree := b :: p.poolFree }

/-- The offset of a buffer in `pool_store`. The code takes it of owned buffers only. -/
def poolPtr : Option BufIdx → Nat
  | none => 0
  | some b => b.val * ncMaxMsg

/-- `memcpy (pool_ptr (c, b) + off, d, |d|)`. -/
def Pool.write (p : Pool) (b : Option BufIdx) (off : Nat) (d : List UInt8) : Pool :=
  { p with poolStore := p.poolStore.write (poolPtr b + off) d }

/-- The `len` bytes at `pool_ptr (c, b) + off`. -/
def Pool.read (p : Pool) (b : Option BufIdx) (off len : Nat) : List UInt8 :=
  p.poolStore.read (poolPtr b + off) len

/-! ## Event queue -/

/-- `ev_push` and `ev_push_redirect`: a full queue drops the event. -/
def evPush (c : Conn) (e : Event) : Conn := { c with events := c.events.offer e }

/-! ## Control frame queue -/

/-- The queue with a frame added; one that does not fit is lost. -/
def ctrlAppend (buf frame : List UInt8) : List UInt8 :=
  if buf.length + frame.length > ncCtrlBufSize then buf else buf ++ frame

/-- `ctrl_reserve`, and the bytes the encoder writes there. -/
def ctrlReserve (c : Conn) (frame : List UInt8) : Conn :=
  { c with ctrlBuf := ctrlAppend c.ctrlBuf frame }

/-- The byte a channel id is on the wire. -/
def idByte (id : ChanId) : UInt8 := UInt8.ofNat id.val

def ctrlConnectInit (c : Conn) : Conn := ctrlReserve c (0x01 :: wr32 c.localId ++ [ncVersion])

def ctrlConnectAccept (c : Conn) : Conn :=
  ctrlReserve c (0x02 :: wr32 c.localId ++ [ncVersion] ++ wr32 c.cfg.idleTimeoutMs)

def ctrlDisconnect (c : Conn) (reason : UInt16) : Conn := ctrlReserve c (0x04 :: wr16 reason)

def ctrlPing (c : Conn) (opaq : UInt32) : Conn := ctrlReserve c (0x05 :: wr32 opaq)

def ctrlPong (c : Conn) (opaq : UInt32) : Conn := ctrlReserve c (0x06 :: wr32 opaq)

def ctrlChannelOpen (c : Conn) (ch : Chan) : Conn :=
  let ctLen := min ch.contentType.length 63
  ctrlReserve c ([0x07, idByte ch.id, ch.type.toByte, ch.dir.toByte, UInt8.ofNat ctLen] ++
    ch.contentType.take ctLen)

def ctrlChannelClose (c : Conn) (id : ChanId) (error : UInt16) : Conn :=
  ctrlReserve c (0x08 :: idByte id :: wr16 error)

def ctrlWindowUpdate (c : Conn) (id : ChanId) (window : UInt32) : Conn :=
  ctrlReserve c (0x0B :: idByte id :: wr32 window)

/-! ## Channel helpers -/

/-- `max_frag_payload`: computed in `unsigned`. -/
def maxFragPayload (c : Conn) : Nat := (c.cfg.mtu - UInt32.ofNat ncHdrFullSize - 8).toNat

/-- `snprintf (dst, 64, "%s", s)`: up to the first NUL, at most 63 bytes. -/
def contentTypeOf (s : List UInt8) : List UInt8 := (s.takeWhile (· ≠ 0)).take 63

/-- A fresh channel, as `chan_new` fills it in. -/
def freshChan (c : Conn) (id : ChanId) (type : ChanType) (dir : Dir) (role : Role)
    (contentType : List UInt8) : Chan :=
  { id, type, dir, role, contentType := contentTypeOf contentType,
    rcv := { recvWindow := c.cfg.chanWindow } }

def chanNew (c : Conn) (id : ChanId) (type : ChanType) (dir : Dir) (role : Role)
    (contentType : List UInt8) : Option (Chan × Conn) :=
  if c.chanUsed < ncMaxChan then
    let ch := freshChan c id type dir role contentType
    some (ch, { c.setChan id ch with chanUsed := c.chanUsed + 1 })
  else none   -- channel pool exhausted

/-- What the DATA path of a receiver channel writes: the pool and the event queue of the
connection, and the channel's receiver state. -/
structure Rx where
  pool : Pool
  events : Ring Event ncEventQueue
  rcv : Receiver

def chanRecvEnqueue (x : Rx) (data : List UInt8) : Except Err Unit × Rx :=
  let r := x.rcv
  if r.recvQueue.Full then (.error .err, x)
  else if data.length > ncMaxMsg then (.error .toobig, x)
  else match poolGet x.pool with
    | (none, _) => (.error .nomem, x)
    | (some b, p) =>
      (.ok (), { x with
        pool := p.write (some b) 0 data
        rcv := { r with recvQueue := r.recvQueue.push ⟨some b, data.length⟩
                        recvBuffered := r.recvBuffered + UInt32.ofNat data.length
                        msgsRecv := r.msgsRecv + 1 } })

/-- The call sites of `chan_recv_enqueue`: its result is not looked at, and a DATA event is
pushed. -/
def Rx.deliver (x : Rx) (id : ChanId) (data : List UInt8) : Rx :=
  let x := (chanRecvEnqueue x data).2
  { x with events := x.events.offer (.data id) }

/-- The reorder slot of a sequence number. -/
def reorderSlot (seq : UInt16) : Fin ncReorderSlots := Fin.ofNat _ seq.toNat

/-- The message `seq` waits in the reorder table. -/
def waits (reorder : Fin ncReorderSlots → Reorder) (seq : UInt16) : Bool :=
  (reorder (reorderSlot seq)).valid && (reorder (reorderSlot seq)).seq == seq

/-- One round of the loop of `chan_deliver_reordered`: the waiting message is copied to the
receive queue, and only then is its own buffer given back. -/
def deliverNext (id : ChanId) (x : Rx) : Rx :=
  let slot := reorderSlot x.rcv.recvSeq
  let e := x.rcv.reorder slot
  let x := x.deliver id (x.pool.read e.buf 0 e.len)
  { x with
    pool := poolPut x.pool e.buf
    rcv := { x.rcv with
      reorder := Function.update x.rcv.reorder slot { e with buf := none, valid := false }
      recvSeq := x.rcv.recvSeq + 1 } }

/-- The loop of `chan_deliver_reordered`, at most `fuel` rounds of it. -/
def deliverLoop (id : ChanId) : Nat → Rx → Rx
  | 0, x => x
  | fuel + 1, x =>
    if waits x.rcv.reorder x.rcv.recvSeq then deliverLoop id fuel (deliverNext id x) else x

/-- `chan_deliver_reordered`. Each round empties a valid slot, so `ncReorderSlots` rounds always
reach the exit (`chanDeliverReordered_exit`). -/
def chanDeliverReordered (id : ChanId) (x : Rx) : Rx := deliverLoop id ncReorderSlots x

/-! ## The send ring -/

/-- The indices of `[out_head, out_tail)`, in ring order. -/
def outWindow (s : Sender) : List (Fin ncOutgoingSlots) :=
  (List.range (s.outTail - s.outHead).val).map fun k => s.outHead + Fin.ofNat _ k

def chanNextSendable (s : Sender) : Option (Fin ncOutgoingSlots) :=
  (outWindow s).find? fun i => (s.outgoing i).active && (s.outgoing i).fragSent < (s.outgoing i).fragTotal

/-- `while (out_head != out_tail && !outgoing[out_head].active) out_head++`, at most `fuel`
rounds; the ring has `ncOutgoingSlots` slots. -/
def outAdvance : Nat → Sender → Sender
  | 0, s => s
  | fuel + 1, s =>
    if s.outHead ≠ s.outTail ∧ ¬ (s.outgoing s.outHead).active then
      outAdvance fuel { s with outHead := s.outHead + 1 }
    else s

/-! ## Fragment reassembly -/

def fragFind (r : Receiver) (seq : UInt16) : Option (Fin ncFragSlots) :=
  (List.finRange ncFragSlots).find? fun i => (r.frags i).active && (r.frags i).seq == seq

def fragAlloc (x : Rx) (seq : UInt16) (total : Nat) : Option (Fin ncFragSlots × Rx) :=
  if total > ncMaxFrags then none
  else match (List.finRange ncFragSlots).find? fun i => !(x.rcv.frags i).active with
    | none => none
    | some i =>
      match poolGet x.pool with
      | (none, _) => none
      | (some b, p) =>
        let f : FragAsm := { seq, total, active := true, buf := some b }
        some (i, { x with pool := p
                          rcv := { x.rcv with frags := Function.update x.rcv.frags i f } })

def fragFree (x : Rx) (i : Fin ncFragSlots) : Rx :=
  { x with pool := poolPut x.pool (x.rcv.frags i).buf
           rcv := { x.rcv with frags := Function.update x.rcv.frags i {} } }

/-- One `memmove` of the compaction loop, as offsets from the slot's buffer. -/
structure Move where
  dst : Nat
  src : Nat
  len : Nat

/-- The compaction loop over the fragments `is`, the next byte going to `pos`: the moves it makes
and the length of the message. -/
def compactMoves (fp : Nat) (offsets : Nat → Nat) : List Nat → Nat → List Move × Nat
  | [], pos => ([], pos)
  | i :: is, pos =>
    let rest := compactMoves fp offsets is (pos + offsets i)
    (if pos ≠ i * fp then ⟨pos, i * fp, offsets i⟩ :: rest.1 else rest.1, rest.2)

/-- Carry the moves out on the buffer at `base`. -/
def runMoves (m : Mem) (base : Nat) (ms : List Move) : Mem :=
  ms.foldl (fun m v => m.move (base + v.dst) (base + v.src) v.len) m

/-- The reassembly slot a fragment goes to: the slot of its message, or a new one. -/
def fragSlot (x : Rx) (seq : UInt16) (fragTotal : Nat) : Option (Fin ncFragSlots × Rx) :=
  match fragFind x.rcv seq with
  | some i => some (i, x)
  | none => fragAlloc x seq fragTotal

/-- Whether a slot takes a fragment: its index is in range and not there yet, and its bytes fit
at its place in the buffer. -/
def FragAsm.Takes (f : FragAsm) (fp fragIdx len : Nat) : Prop :=
  (fragIdx < f.total ∧ f.bitmask.testBit fragIdx = false) ∧ fragIdx * fp + len ≤ ncMaxMsg

instance (f : FragAsm) (fp fragIdx len : Nat) : Decidable (f.Takes fp fragIdx len) :=
  inferInstanceAs (Decidable (_ ∧ _))

/-- The slot with the fragment in it. -/
def FragAsm.add (f : FragAsm) (fragIdx len : Nat) : FragAsm :=
  { f with offsets := Function.update f.offsets fragIdx len
           bitmask := f.bitmask ||| 2 ^ fragIdx
           got := f.got + 1 }

/-- The fragment's bytes are copied to their place in slot `i`. -/
def fragPut (fp : Nat) (x : Rx) (i : Fin ncFragSlots) (fragIdx : Nat) (payload : List UInt8) : Rx :=
  let f := x.rcv.frags i
  { x with
    pool := x.pool.write f.buf (fragIdx * fp) payload
    rcv := { x.rcv with frags := Function.update x.rcv.frags i (f.add fragIdx payload.length) } }

/-- Slot `i`, complete, compacted in place; and the message's length. -/
def fragCompact (fp : Nat) (x : Rx) (i : Fin ncFragSlots) : Rx × Nat :=
  let f := x.rcv.frags i
  let moves := compactMoves fp f.offsets (List.range f.total) 0
  let store := runMoves x.pool.poolStore (poolPtr f.buf) moves.1
  ({ x with pool := { x.pool with poolStore := store } }, moves.2)

/-- The reassembly block of `process_data` (the same text in its two branches): store the
fragment and, when it is the last one missing, compact the message in place. The result names the
slot and the message's length if it is complete. -/
def fragStore (fp : Nat) (x : Rx) (seq : UInt16) (fragIdx fragTotal : Nat) (payload : List UInt8) :
    Rx × Option (Fin ncFragSlots × Nat) :=
  match fragSlot x seq fragTotal with
  | none => (x, none)
  | some (i, x) =>
    if (x.rcv.frags i).Takes fp fragIdx payload.length then
      let x := fragPut fp x i fragIdx payload
      if (x.rcv.frags i).got = (x.rcv.frags i).total then
        let (x, pos) := fragCompact fp x i
        (x, some (i, pos))
      else (x, none)
    else (x, none)

end Netchan
