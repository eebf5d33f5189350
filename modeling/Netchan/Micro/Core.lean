import Netchan.Lib.Bytes
import Netchan.Lib.Serial
import Mathlib.Logic.Function.Basic

/-!
# microchan

The core of `microchan/src/microchan.c`: handshake, channels, the Go-Back-N window and the timers
of one connection object, with the default tunables of `microchan.h`.

* The delivery ring of a channel, the ring of unreliable datagrams and the event queue are lists,
  oldest first: each is an array with a head and a count, so the count is the list's length.
* The transmit window stays an array: the slot of a sequence number is its remainder by the
  window, `win` in the functions that use it.
* A `struct mc_chan *` is the channel's index. A message's length is the length of its bytes.
* Pointers that may be `NULL` are options where the callers may pass `NULL` (`from`); the
  connection and the buffers are there.
-/

namespace Netchan.Micro

open Lib

/-! ## Constants -/

abbrev mcMtu : Nat := 546
abbrev mcWindow : Nat := 8
abbrev mcMaxChan : Nat := 2
abbrev mcRecvq : Nat := mcWindow
abbrev mcUnrelTxq : Nat := 4
abbrev mcEventq : Nat := 8

abbrev mcHdr : Nat := 8
abbrev mcRec : Nat := 6
abbrev mcMaxmsg : Nat := mcMtu - mcHdr - mcRec

abbrev mtUnrel : UInt8 := 0
abbrev mtRel : UInt8 := 1

abbrev rtMs : UInt32 := 120
abbrev rtMaxMs : UInt32 := 1000
abbrev rtAttempts : UInt16 := 12
abbrev connectRetryMs : UInt32 := 250
abbrev connectRetries : UInt16 := 240
abbrev keepaliveMs : UInt32 := 1000
abbrev idleMs : UInt32 := 10000

/-! ## Types -/

/-- `MC_RELIABLE`; every other type of channel is treated as `MC_UNRELIABLE`. -/
inductive ChanType
  | reliable
  | unreliable
  deriving DecidableEq, Repr

inductive State
  | closed
  | connecting
  | connected
  | closing
  deriving DecidableEq, Repr

/-- `struct mc_addr`: the `len` bytes in use. -/
abbrev Addr := List UInt8

abbrev ChanId := Fin mcMaxChan

/-- The events the core pushes. -/
inductive Event
  | connected
  | disconnected
  | data (ch : ChanId)
  deriving DecidableEq, Repr

/-- `MC_ERR` and its causes. -/
inductive Err
  | err
  | again
  | closed
  | toobig
  | proto
  deriving DecidableEq, Repr

/-- `struct mc_chan`. -/
structure Chan where
  used : Bool := false
  type : ChanType := .reliable
  rxq : List (List UInt8) := []
  deriving DecidableEq, Repr

/-- `struct tx_slot`. -/
structure TxSlot where
  seq : UInt16 := 0
  chan : UInt8 := 0
  data : List UInt8 := []
  deriving DecidableEq, Repr

/-- `struct microchan`. -/
structure Mc where
  isServer : Bool
  state : State := .closed
  localId : UInt32
  remoteId : UInt32 := 0
  peer : Addr := []
  now : UInt32 := 0
  lastRecv : UInt32 := 0
  lastSend : UInt32 := 0
  sendSyn : Bool := false
  sendSynack : Bool := false
  sendAck : Bool := false
  connectTimer : UInt32 := 0
  connectAttempts : UInt16 := 0
  txw : Nat → TxSlot := fun _ => {}
  txBase : UInt16 := 0
  txNext : UInt16 := 0
  txUnsent : UInt16 := 0
  txTimer : UInt32 := 0
  txAttempts : UInt16 := 0
  rxNext : UInt16 := 0
  ackPending : Bool := false
  txu : List (UInt8 × List UInt8) := []
  chan : ChanId → Chan := fun _ => {}
  evq : List Event := []

/-! ## Event queue -/

def evPush (c : Mc) (e : Event) : Mc :=
  if c.evq.length ≥ mcEventq then c else { c with evq := c.evq ++ [e] }

theorem evPush_eq (c : Mc) (e : Event) :
    evPush c e = { c with evq := if c.evq.length ≥ mcEventq then c.evq else c.evq ++ [e] } := by
  unfold evPush
  split <;> rfl

/-- `mc_poll`: the event, or `none` for the return value 0. -/
def mcPoll (c : Mc) : Option Event × Mc :=
  match c.evq with
  | [] => (none, c)
  | e :: es => (some e, { c with evq := es })

/-! ## Connection lifecycle -/

/-- `gen_id`, from the word two calls of `rand` give. -/
def genId (r : UInt32) : UInt32 := if r ≠ 0 then r else 1

def mcOpen (isServer : Bool) (r : UInt32) : Mc := { isServer, localId := genId r }

def mcConnect (c : Mc) (addr : Addr) : Mc :=
  { c with peer := addr, state := .connecting, sendSyn := true,
           connectTimer := c.now + connectRetryMs, connectAttempts := 0 }

/-! ## Channels -/

/-- `mc_chan_open`: the first channel that is not in use. -/
def mcChanOpen (c : Mc) (type : ChanType) : Option ChanId × Mc :=
  match (List.finRange mcMaxChan).find? fun i => !(c.chan i).used with
  | none => (none, c)
  | some i => (some i, { c with chan := Function.update c.chan i { used := true, type } })

def mcChanClose (c : Mc) (i : ChanId) : Mc :=
  { c with chan := Function.update c.chan i { c.chan i with used := false } }

def rxqFull (ch : Chan) : Bool := ch.rxq.length ≥ mcRecvq

def rxqPush (ch : Chan) (data : List UInt8) : Chan :=
  if ch.rxq.length ≥ mcRecvq then ch else { ch with rxq := ch.rxq ++ [data.take mcMaxmsg] }

def mcRead (c : Mc) (i : ChanId) (buflen : Nat) : Except Err (List UInt8) × Mc :=
  match (c.chan i).rxq with
  | [] => (.ok [], c)
  | m :: ms =>
    if m.length > buflen then (.error .toobig, c)
    else (.ok m, { c with chan := Function.update c.chan i { c.chan i with rxq := ms } })

/-- The byte a channel id is on the wire. -/
def idByte (i : ChanId) : UInt8 := UInt8.ofNat i.val

def mcWrite (win : Nat) (c : Mc) (i : ChanId) (data : List UInt8) : Except Err Nat × Mc :=
  if !(c.chan i).used then (.error .err, c)
  else if c.state ≠ .connected then (.error .closed, c)
  else if data.length > mcMaxmsg then (.error .toobig, c)
  else if (c.chan i).type = .reliable then
    if (c.txNext - c.txBase).toNat ≥ win then (.error .again, c)
    else
      let s : TxSlot := ⟨c.txNext, idByte i, data⟩
      (.ok data.length, { c with txw := Function.update c.txw (c.txNext.toNat % win) s
                                 txNext := c.txNext + 1 })
  else
    -- a full ring drops its oldest datagram
    let txu := if c.txu.length ≥ mcUnrelTxq then c.txu.tail else c.txu
    (.ok data.length, { c with txu := txu ++ [(idByte i, data)] })

/-! ## Receive path -/

/-- `seq_after`. -/
def seqAfter (a b : UInt16) : Bool := 0 < int16 (a - b)

/-- `chan_by_id`. -/
def chanById (c : Mc) (id : UInt8) : Option ChanId :=
  if h : id.toNat < mcMaxChan then if (c.chan ⟨id.toNat, h⟩).used then some ⟨id.toNat, h⟩ else none
  else none

/-- The loop of `process_ack`: `tx_base` moves on while it is behind `ack` and not at `tx_next`,
which is at most `tx_next - tx_base` times. -/
def ackLoop (ack txNext : UInt16) : Nat → UInt16 → UInt16
  | 0, txBase => txBase
  | fuel + 1, txBase =>
    if txBase ≠ txNext ∧ seqAfter ack txBase then ackLoop ack txNext fuel (txBase + 1) else txBase

def processAck (c : Mc) (ack : UInt16) : Mc :=
  let txBase := ackLoop ack c.txNext (c.txNext - c.txBase).toNat c.txBase
  let txUnsent := if seqAfter txBase c.txUnsent then txBase else c.txUnsent
  if txBase ≠ c.txBase then
    { c with txBase, txUnsent, txAttempts := 0
             txTimer := if txBase = c.txNext then 0 else c.now + rtMs }
  else { c with txUnsent }

/-- A message goes to a channel's delivery ring. -/
def pushData (c : Mc) (i : ChanId) (data : List UInt8) : Mc :=
  evPush { c with chan := Function.update c.chan i (rxqPush (c.chan i) data) } (.data i)

def deliver (c : Mc) (chan mt : UInt8) (seq : UInt16) (data : List UInt8) : Mc :=
  if mt = mtRel then
    if seq = c.rxNext then
      match chanById c chan with
      | none => { c with rxNext := c.rxNext + 1, ackPending := true }
      | some i =>
        if rxqFull (c.chan i) then { c with ackPending := true }
        else
          let c := pushData c i data
          { c with rxNext := c.rxNext + 1, ackPending := true }
    else { c with ackPending := true }
  else
    match chanById c chan with
    | none => c
    | some i => pushData c i data

/-- The record loop of `mc_feed` on the rest of the packet. Every round consumes a record header or
more, so `fuel` rounds do for a rest of at most `fuel` bytes. -/
def feedRecords : Nat → Mc → List UInt8 → Mc
  | 0, c, _ => c
  | fuel + 1, c, q =>
    if q.length < mcRec then c
    else
      let dlen := (rd16 q 4).toNat
      if q.length < mcRec + dlen then c
      else
        feedRecords fuel (deliver c (byte q 0) (byte q 1) (rd16 q 2) ((q.drop mcRec).take dlen))
          (q.drop (mcRec + dlen))

/-- The case `PKT_SYN` of `mc_feed`. -/
def feedSyn (c : Mc) (pkt : List UInt8) (source : Option Addr) : Except Err Unit × Mc :=
  if !c.isServer then (.error .proto, c)
  else if pkt.length < mcHdr + 4 then (.error .proto, c)
  else
    let c :=
      if c.state = .closed then
        { c with peer := source.getD c.peer, remoteId := rd32 pkt mcHdr, state := .connecting
                 connectTimer := c.now + connectRetryMs, connectAttempts := 0 }
      else c
    (.ok (), if c.state = .connecting then { c with sendSynack := true } else c)

/-- The case `PKT_SYNACK` of `mc_feed`. -/
def feedSynack (c : Mc) (pkt : List UInt8) (source : Option Addr) : Except Err Unit × Mc :=
  if c.isServer ∨ rd32 pkt 0 ≠ c.localId then (.error .proto, c)
  else if pkt.length < mcHdr + 4 then (.error .proto, c)
  else
    let c := { c with peer := source.getD c.peer, remoteId := rd32 pkt mcHdr }
    let c := if c.state = .connecting then evPush { c with state := .connected } .connected else c
    (.ok (), { c with sendAck := true })

/-- The case `PKT_ACK` of `mc_feed`. -/
def feedAck (c : Mc) (pkt : List UInt8) : Except Err Unit × Mc :=
  if !c.isServer ∨ rd32 pkt 0 ≠ c.localId then (.error .proto, c)
  else if c.state = .connecting then (.ok (), evPush { c with state := .connected } .connected)
  else (.ok (), c)

/-- A server that gets data while it is connecting: the ACK was lost, data implies that the peer
is up. -/
def dataUp (c : Mc) : Mc :=
  if c.isServer ∧ c.state = .connecting then evPush { c with state := .connected } .connected
  else c

/-- The case `PKT_DATA` of `mc_feed`. -/
def feedData (c : Mc) (pkt : List UInt8) : Except Err Unit × Mc :=
  if rd32 pkt 0 ≠ c.localId then (.error .proto, c)
  else
    let c := dataUp c
    if c.state ≠ .connected then (.ok (), c)
    else (.ok (), feedRecords (pkt.length - mcHdr) (processAck c (rd16 pkt 6)) (pkt.drop mcHdr))

/-- The case `PKT_FIN` of `mc_feed`. -/
def feedFin (c : Mc) (pkt : List UInt8) : Except Err Unit × Mc :=
  if rd32 pkt 0 ≠ c.localId then (.error .proto, c)
  else if c.state ≠ .closed then (.ok (), evPush { c with state := .closed } .disconnected)
  else (.ok (), c)

def mcFeed (c : Mc) (pkt : List UInt8) (source : Option Addr) : Except Err Unit × Mc :=
  if pkt.length < mcHdr then (.error .proto, c)
  else
    let c := { c with lastRecv := c.now }
    match (byte pkt 4).toNat with
    | 1 => feedSyn c pkt source
    | 2 => feedSynack c pkt source
    | 3 => feedAck c pkt
    | 4 => feedData c pkt
    | 5 => feedFin c pkt
    | _ => (.error .proto, c)

/-! ## Transmit path -/

/-- The packet header. -/
def header (id : UInt32) (ptype : UInt8) (ack : UInt16) : List UInt8 :=
  wr32 id ++ [ptype, 0] ++ wr16 ack

/-- A record of a DATA packet. -/
def record (chan mt : UInt8) (seq : UInt16) (data : List UInt8) : List UInt8 :=
  [chan, mt] ++ wr16 seq ++ wr16 (UInt16.ofNat data.length) ++ data

/-- The loop over the reliable records: from `tx_unsent` on, while they fit; `pos` bytes are
written. It ends at `tx_next`, after at most `tx_next - tx_unsent` rounds. -/
def sendRel (win cap : Nat) (txw : Nat → TxSlot) (txNext : UInt16) :
    Nat → UInt16 → Nat → UInt16 × List UInt8
  | 0, txUnsent, _ => (txUnsent, [])
  | fuel + 1, txUnsent, pos =>
    let s := txw (txUnsent.toNat % win)
    if txUnsent = txNext ∨ pos + (mcRec + s.data.length) > cap then (txUnsent, [])
    else
      let (u, bs) := sendRel win cap txw txNext fuel (txUnsent + 1) (pos + (mcRec + s.data.length))
      (u, record s.chan mtRel s.seq s.data ++ bs)

/-- The loop over the unreliable records. -/
def sendUnrel (cap : Nat) : List (UInt8 × List UInt8) → Nat → List (UInt8 × List UInt8) × List UInt8
  | [], _ => ([], [])
  | (ch, m) :: txu, pos =>
    if pos + (mcRec + m.length) > cap then ((ch, m) :: txu, [])
    else
      let (rest, bs) := sendUnrel cap txu (pos + (mcRec + m.length))
      (rest, record ch mtUnrel 0 m ++ bs)

/-- The DATA packet of `mc_send_next`. -/
def sendData (win cap : Nat) (c : Mc) : Mc × List UInt8 :=
  let (u, rel) := sendRel win cap c.txw c.txNext (c.txNext - c.txUnsent).toNat c.txUnsent mcHdr
  let (txu, unrel) := sendUnrel cap c.txu (mcHdr + rel.length)
  ({ c with txUnsent := u, txu
            txTimer := if c.txBase ≠ c.txNext ∧ c.txTimer = 0 then c.now + rtMs else c.txTimer
            ackPending := false, lastSend := c.now },
    header c.remoteId 4 c.rxNext ++ rel ++ unrel)

/-- `mc_send_next`: the packet and its destination, or `none` for the return value 0. -/
def mcSendNext (win : Nat) (c : Mc) (buflen : Nat) : Mc × Option (List UInt8 × Addr) :=
  if buflen < mcHdr then (c, none)
  else if c.sendSynack then
    ({ c with sendSynack := false, lastSend := c.now },
      some (header c.remoteId 2 0 ++ wr32 c.localId, c.peer))
  else if c.sendAck then
    ({ c with sendAck := false, lastSend := c.now }, some (header c.remoteId 3 0, c.peer))
  else if c.sendSyn then
    ({ c with sendSyn := false, lastSend := c.now },
      some (header 0 1 0 ++ wr32 c.localId, c.peer))
  else if c.state ≠ .connected then (c, none)
  else if c.txUnsent = c.txNext ∧ c.txu = [] ∧ !c.ackPending then (c, none)
  else
    let (c', pkt) := sendData win (min buflen mcMtu) c
    (c', some (pkt, c.peer))

/-! ## Timers -/

/-- The backoff after `attempts` resends. -/
def backoff (attempts : UInt16) : UInt32 :=
  let b := rtMs <<< (if attempts < 4 then attempts.toUInt32 else 3)
  if b > rtMaxMs then rtMaxMs else b

/-- `mc_service` while connecting. -/
def serviceConnecting (c : Mc) : Int × Mc :=
  if c.now ≥ c.connectTimer then
    let c := { c with connectAttempts := c.connectAttempts + 1 }
    if c.connectAttempts > connectRetries then
      (-1, evPush { c with state := .closed } .disconnected)
    else
      let c := if c.isServer then { c with sendSynack := true } else { c with sendSyn := true }
      (250, { c with connectTimer := c.now + connectRetryMs })
  else (250, c)

/-- `mc_service` while connected: the retransmit timer, then the keepalive. -/
def serviceConnected (c : Mc) : Int × Mc :=
  if c.now - c.lastRecv > idleMs then (-1, evPush { c with state := .closed } .disconnected)
  else if c.txBase ≠ c.txNext ∧ c.txTimer ≠ 0 ∧ c.now ≥ c.txTimer then
    let c := { c with txAttempts := c.txAttempts + 1 }
    if c.txAttempts > rtAttempts then (-1, evPush { c with state := .closed } .disconnected)
    else
      -- the whole window is sent again
      let c := { c with txUnsent := c.txBase, txTimer := c.now + backoff c.txAttempts }
      (120, if c.now - c.lastSend > keepaliveMs then { c with ackPending := true } else c)
  else (120, if c.now - c.lastSend > keepaliveMs then { c with ackPending := true } else c)

def mcService (c : Mc) (nowMs : UInt32) : Int × Mc :=
  let c := { c with now := nowMs }
  if c.state = .connecting then serviceConnecting c
  else if c.state = .connected then serviceConnected c
  else (-1, c)

end Netchan.Micro
