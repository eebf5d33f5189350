import Netchan.Lib.Bytes
import Netchan.Lib.Serial
import Netchan.Lib.Ring

/-!
# The connection object

The constants of `src/netchan.c` and its structures. All storage lives in the connection object
`Conn`: the channel table, the message-buffer pool with its flat `poolStore`, the event ring and
the queue of serialized control frames.

* A slot's pool index is an `Option BufIdx`, `none` being `NC_NOBUF`.
* `poolFree` is the stack of free indices, top first; `poolFree.length` is `pool_free_top`.
* `poolStore` is addressed from the base of `pool_store`; offsets from `poolBytes` on are those of
  the memory behind it. In the structure the event ring and the control queue lie there, while
  `events` and `ctrlBuf` are fields of their own here that such a write does not change. What an
  overrun does to the control queue is followed in `Netchan.Object`.
* `channels` maps a wire id to its channel. Channels are never released while the connection
  lives, so of `chan_used` only the number of slots taken is kept.
* A `struct netchan_chan *` is the channel's wire id.
* The sender's and the receiver's fields of a channel are grouped in `Sender` and `Receiver`.
-/

namespace Netchan

open Lib

/-! ## Constants -/

def ncVersion : UInt8 := 0x01
def ncPktFlagInit : UInt8 := 0x01
def ncPktFlagPktnum : UInt8 := 0x02

abbrev ncHdrInitSize : Nat := 5
abbrev ncHdrFullSize : Nat := 7

abbrev ncMaxChannels : Nat := 256
abbrev ncEventQueue : Nat := 16
abbrev ncCtrlBufSize : Nat := 1024
abbrev ncOutgoingSlots : Nat := 64
abbrev ncRecvQueue : Nat := 64
abbrev ncReorderSlots : Nat := 64
abbrev ncFragSlots : Nat := 4
abbrev ncMaxFrags : Nat := 32

abbrev ncMaxChan : Nat := 16
abbrev ncMaxMsg : Nat := 2048
abbrev ncPoolBufs : Nat := 64

abbrev ncDefaultMtu : UInt32 := 1200
abbrev ncDefaultWindow : UInt32 := 65536
abbrev ncDefaultIdleMs : UInt32 := 30000
abbrev ncDefaultRtMs : UInt32 := 100
abbrev ncMaxRtMs : UInt32 := 1000
abbrev ncMaxRtAttempts : Nat := 5
abbrev ncConnectRetryMs : UInt32 := 500
abbrev ncConnectRetries : Nat := 5
abbrev ncPingIntervalMs : UInt32 := 5000

/-- The bytes of `pool_store`. -/
abbrev poolBytes : Nat := ncPoolBufs * ncMaxMsg

/-! ## Enumerations -/

/-- `NETCHAN_RELIABLE`, `NETCHAN_UNRELIABLE`, `NETCHAN_STREAM`; the wire can carry any byte. -/
inductive ChanType
  | reliable
  | unreliable
  | stream
  | other (b : UInt8)
  deriving DecidableEq, Repr

def ChanType.ofByte (b : UInt8) : ChanType :=
  if b = 0 then .reliable else if b = 1 then .unreliable else if b = 2 then .stream else .other b

def ChanType.toByte : ChanType → UInt8
  | .reliable => 0
  | .unreliable => 1
  | .stream => 2
  | .other b => b

/-- `NETCHAN_DIR_SEND`, `NETCHAN_DIR_RECV`; the wire can carry any byte. -/
inductive Dir
  | send
  | recv
  | other (b : UInt8)
  deriving DecidableEq, Repr

def Dir.ofByte (b : UInt8) : Dir :=
  if b = 0 then .send else if b = 1 then .recv else .other b

def Dir.toByte : Dir → UInt8
  | .send => 0
  | .recv => 1
  | .other b => b

/-- The local end's role on a channel: 0 sends, 1 receives. -/
inductive Role
  | sender
  | receiver
  deriving DecidableEq, Repr

/-- `ch->state`: 0 opening, 1 open, 2 closing, 3 closed. -/
inductive ChanState
  | opening
  | opened
  | closing
  | closed
  deriving DecidableEq, Repr

/-- `NETCHAN_STATE_*`. -/
inductive ConnState
  | new
  | connecting
  | connected
  | closing
  | closed
  deriving DecidableEq, Repr

/-- The numeric value of the enumerator. -/
def ConnState.rank : ConnState → Nat
  | .new => 0
  | .connecting => 1
  | .connected => 2
  | .closing => 3
  | .closed => 4

/-- `NETCHAN_ERR` and its causes. -/
inductive Err
  | err
  | nomem
  | again
  | closed
  | flow
  | proto
  | toobig
  deriving DecidableEq, Repr

/-! ## Structures -/

abbrev BufIdx := Fin ncPoolBufs
abbrev ChanId := Fin ncMaxChannels

/-- `struct nc_addr`: the `len` bytes in use; no bytes mean "unset". -/
abbrev Addr := List UInt8

/-- `struct netchan_cfg`. -/
structure Cfg where
  mtu : UInt32
  chanWindow : UInt32
  idleTimeoutMs : UInt32
  retransmitMs : UInt32
  deriving DecidableEq, Repr

/-- `struct netchan_event`. -/
inductive Event
  | none
  | connected
  | disconnected
  | redirect (addr : Addr) (connId : UInt32)
  | chanOpen (ch : ChanId)
  | chanClose (ch : ChanId)
  | data (ch : ChanId)
  deriving DecidableEq, Repr

/-- `struct nc_outgoing`. -/
structure Outgoing where
  seq : UInt16 := 0
  buf : Option BufIdx := none
  len : Nat := 0
  sentMs : UInt32 := 0
  attempts : Nat := 0
  fragSent : Nat := 0
  fragTotal : Nat := 0
  active : Bool := false
  deriving DecidableEq, Repr

/-- `struct nc_recv_entry`. -/
structure RecvEntry where
  buf : Option BufIdx := none
  len : Nat := 0
  deriving DecidableEq, Repr

/-- `struct nc_reorder`. -/
structure Reorder where
  seq : UInt16 := 0
  buf : Option BufIdx := none
  len : Nat := 0
  valid : Bool := false
  deriving DecidableEq, Repr

/-- `struct nc_frag_asm`. -/
structure FragAsm where
  seq : UInt16 := 0
  total : Nat := 0
  got : Nat := 0
  bitmask : Nat := 0
  buf : Option BufIdx := none
  offsets : Nat → Nat := fun _ => 0
  active : Bool := false

/-- The sender state of `struct netchan_chan`. -/
structure Sender where
  sendSeq : UInt16 := 0
  sendWindow : UInt32 := 0
  bytesInFlight : UInt32 := 0
  outgoing : Fin ncOutgoingSlots → Outgoing := fun _ => {}
  outHead : Fin ncOutgoingSlots := 0
  outTail : Fin ncOutgoingSlots := 0
  msgsSent : UInt32 := 0
  msgsAcked : UInt32 := 0
  retransmissions : UInt32 := 0

/-- The receiver state of `struct netchan_chan`. -/
structure Receiver where
  recvSeq : UInt16 := 0
  recvWindow : UInt32 := 0
  recvBuffered : UInt32 := 0
  recvQueue : Ring RecvEntry ncRecvQueue := Ring.blank {}
  reorder : Fin ncReorderSlots → Reorder := fun _ => {}
  frags : Fin ncFragSlots → FragAsm := fun _ => {}
  needAck : Bool := false
  ackSeq : UInt16 := 0
  needWindowUpdate : Bool := false
  msgsRecv : UInt32 := 0

/-- `struct netchan_chan`. -/
structure Chan where
  id : ChanId
  type : ChanType
  dir : Dir
  role : Role
  state : ChanState := .opening
  contentType : List UInt8 := []
  snd : Sender := {}
  rcv : Receiver := {}

/-- The message-buffer pool of `struct netchan_conn`. -/
structure Pool where
  poolFree : List BufIdx
  poolStore : Mem

/-- `struct netchan_conn`. -/
structure Conn where
  localId : UInt32 := 0
  remoteId : UInt32 := 0
  server : Bool
  state : ConnState := .new
  peerAddr : Addr := []
  nextPktNum : UInt16 := 0
  lastRecvMs : UInt32 := 0
  lastSendMs : UInt32 := 0
  connectSentMs : UInt32 := 0
  connectAttempts : Nat := 0
  pingSentMs : UInt32 := 0
  pingOpaque : UInt32 := 0
  rttMs : UInt32 := 0
  rttMinMs : UInt32 := 0
  pktsSent : UInt32 := 0
  pktsRecv : UInt32 := 0
  cfg : Cfg
  channels : ChanId → Option Chan := fun _ => none
  nextChanId : ChanId := 0
  chanUsed : Nat := 0
  pool : Pool
  events : Ring Event ncEventQueue := Ring.blank .none
  ctrlBuf : List UInt8 := []

/-- What a call takes from its surroundings: the clock `nc_now_ms` reads, the word read from the
operating system's entropy source (0 when there is none) and the clock and stack-address mix
`nc_random_id` falls back on. -/
structure Env where
  now : UInt32 := 0
  entropy : UInt32 := 0
  mix : UInt32 := 0

/-- `nc_random_id`. -/
def ncRandomId (env : Env) : UInt32 :=
  let id := env.entropy
  let id := if id = 0 then env.mix else id
  if id = 0 then 1 else id

theorem ncRandomId_ne_zero (env : Env) : ncRandomId env ≠ 0 := by
  simp only [ncRandomId]
  generalize (if env.entropy = 0 then env.mix else env.entropy) = id
  split
  · decide
  · assumption

/-- The channel table. -/
abbrev Table := ChanId → Option Chan

/-- The table after a write to the channel at `id`. -/
def Table.set (t : Table) (id : ChanId) (ch : Chan) : Table := Function.update t id (some ch)

@[simp] theorem Table.set_same (t : Table) (id : ChanId) (ch : Chan) : t.set id ch id = some ch :=
  Function.update_self ..

theorem Table.set_of_ne (t : Table) {id j : ChanId} (h : j ≠ id) (ch : Chan) :
    t.set id ch j = t j :=
  Function.update_of_ne h ..

def Conn.setChan (c : Conn) (id : ChanId) (ch : Chan) : Conn :=
  { c with channels := Table.set c.channels id ch }

end Netchan
