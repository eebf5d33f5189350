import Netchan.Core.Channel

/-!
# Frame handlers

The `process_*` functions of `src/netchan.c`, `parse_frames` and `netchan_feed`. A handler gets the
rest of the datagram from its frame on (`data + pos` and `len - pos`, one list here) and returns
the number of bytes of the frame, or `NETCHAN_ERR_PROTO`.
-/

namespace Netchan

open Lib

/-- A handler's result: the bytes consumed or the error, and the connection. -/
abbrev Handled := Except Err Nat × Conn

/-- The channel id in byte `i`. -/
def chanIdAt (p : List UInt8) (i : Nat) : ChanId := Fin.ofNat _ (byte p i).toNat

def processConnectInit (env : Env) (c : Conn) (p : List UInt8) : Handled :=
  if p.length < 6 then (.error .proto, c)
  else if !c.server then (.error .proto, c)
  else if byte p 5 ≠ ncVersion then (.error .proto, c)
  else
    let c := { c with remoteId := rd32 p 1 }
    if c.state = .new then (.ok 6, { c with localId := ncRandomId env, state := .connecting })
    else (.ok 6, c)

def processConnectAccept (c : Conn) (p : List UInt8) : Handled :=
  if p.length < 10 then (.error .proto, c)
  else if c.server then (.error .proto, c)
  else (.ok 10, evPush { c with remoteId := rd32 p 1, state := .connected } .connected)

def processConnectRedirect (c : Conn) (p : List UInt8) : Handled :=
  if p.length < 12 then (.error .proto, c)
  else if byte p 5 = 4 then
    (.ok 12, evPush c (.redirect (4 :: (p.drop 6).take 6) (rd32 p 1)))
  else if byte p 5 = 6 then
    if p.length < 24 then (.error .proto, c)
    else (.ok 24, evPush c (.redirect (6 :: (p.drop 6).take 18) (rd32 p 1)))
  else (.error .proto, c)

def processDisconnect (c : Conn) (p : List UInt8) : Handled :=
  if p.length < 3 then (.error .proto, c)
  else match c.state with
    | .connecting => (.ok 3, evPush { c with state := .closed } .disconnected)
    | .connected => (.ok 3, evPush { c with state := .closed } .disconnected)
    | .closing => (.ok 3, { c with state := .closed })
    | .new => (.ok 3, c)
    | .closed => (.ok 3, c)

def processPing (c : Conn) (p : List UInt8) : Handled :=
  if p.length < 5 then (.error .proto, c) else (.ok 5, ctrlPong c (rd32 p 1))

def processPong (env : Env) (c : Conn) (p : List UInt8) : Handled :=
  if p.length < 5 then (.error .proto, c)
  else if rd32 p 1 = c.pingOpaque ∧ c.pingSentMs ≠ 0 then
    let rtt := env.now - c.pingSentMs
    (.ok 5, { c with rttMs := rtt
                     rttMinMs := if c.rttMinMs = 0 ∨ rtt < c.rttMinMs then rtt else c.rttMinMs
                     pingSentMs := 0 })
  else (.ok 5, c)

/-- `process_channel_open` after its length checks. -/
def channelOpened (c : Conn) (id : ChanId) (type : ChanType) (dir : Dir) (ct : List UInt8) : Conn :=
  match c.channels id with
  | some _ => ctrlChannelClose c id 1
  | none =>
    -- the remote's direction is flipped for us
    let localRole := if dir = .send then Role.receiver else Role.sender
    match chanNew c id type dir localRole (ct.take 63) with
    | none => ctrlChannelClose c id 1
    | some (ch, c) =>
      let c := c.setChan id { ch with state := .opened }
      let c := if localRole = .receiver then ctrlWindowUpdate c id ch.rcv.recvWindow else c
      evPush c (.chanOpen id)

def processChannelOpen (c : Conn) (p : List UInt8) : Handled :=
  if p.length < 5 then (.error .proto, c)
  else
    let ctLen := (byte p 4).toNat
    if p.length < 5 + ctLen then (.error .proto, c)
    else (.ok (5 + ctLen), channelOpened c (chanIdAt p 1) (.ofByte (byte p 2)) (.ofByte (byte p 3))
      ((p.drop 5).take ctLen))

/-- `process_channel_close` after its length check. -/
def channelClosed (c : Conn) (id : ChanId) : Conn :=
  match c.channels id with
  | none => c
  | some ch => evPush (c.setChan id { ch with state := .closed }) (.chanClose id)

def processChannelClose (c : Conn) (p : List UInt8) : Handled :=
  if p.length < 4 then (.error .proto, c) else (.ok 4, channelClosed c (chanIdAt p 1))

/-! ## DATA -/

/-- The message a completed reassembly slot holds. -/
def assembled (x : Rx) (i : Fin ncFragSlots) (pos : Nat) : List UInt8 :=
  x.pool.read (x.rcv.frags i).buf 0 pos

/-- The unreliable branch of `process_data`. -/
def dataUnreliable (fp : Nat) (id : ChanId) (x : Rx) (seq : UInt16) (fragIdx fragTotal : Nat)
    (payload : List UInt8) : Rx :=
  if fragTotal ≤ 1 then x.deliver id payload
  else
    match fragStore fp x seq fragIdx fragTotal payload with
    | (x, none) => x
    | (x, some (i, pos)) => fragFree (x.deliver id (assembled x i pos)) i

/-- Put a message that is ahead of `recv_seq` into the reorder table. -/
def reorderStore (x : Rx) (seq : UInt16) (data : List UInt8) : Rx :=
  let r := x.rcv
  let diff := int16 (seq - r.recvSeq)
  if 0 < diff ∧ diff < ncReorderSlots then
    let slot := reorderSlot seq
    if (r.reorder slot).valid = false ∧ data.length ≤ ncMaxMsg then
      match poolGet x.pool with
      | (none, _) => x
      | (some b, p) =>
        let e : Reorder := ⟨seq, some b, data.length, true⟩
        { x with pool := p.write (some b) 0 data
                 rcv := { r with reorder := Function.update r.reorder slot e } }
    else x
  else x

/-- A whole message on a reliable channel (the same text twice in `process_data`): deliver it and
what waits behind it, or keep it for later. -/
def dataArrived (id : ChanId) (x : Rx) (seq : UInt16) (data : List UInt8) : Rx :=
  if seq = x.rcv.recvSeq then
    let x := x.deliver id data
    chanDeliverReordered id { x with rcv := { x.rcv with recvSeq := x.rcv.recvSeq + 1 } }
  else reorderStore x seq data

/-- The reliable branch of `process_data`, up to the acknowledgement. -/
def dataReliable (fp : Nat) (id : ChanId) (x : Rx) (seq : UInt16) (fragIdx fragTotal : Nat)
    (payload : List UInt8) : Rx :=
  if fragTotal ≤ 1 then dataArrived id x seq payload
  else
    match fragStore fp x seq fragIdx fragTotal payload with
    | (x, none) => x
    | (x, some (i, pos)) => fragFree (dataArrived id x seq (assembled x i pos)) i

/-- The acknowledgement `process_data` records. -/
def ackFor (recvSeq : UInt16) : UInt16 := if 0 < recvSeq then recvSeq - 1 else 0

/-- The end of `process_data` on a reliable channel. -/
def Receiver.ack (r : Receiver) : Receiver := { r with needAck := true, ackSeq := ackFor r.recvSeq }

/-- What the DATA path works on, for channel `ch` of `c`. -/
def Conn.rx (c : Conn) (ch : Chan) : Rx := ⟨c.pool, c.events, ch.rcv⟩

/-- The connection after the DATA path worked on channel `ch`. -/
def Conn.withRx (c : Conn) (id : ChanId) (ch : Chan) (x : Rx) : Conn :=
  { c with pool := x.pool, events := x.events }.setChan id { ch with rcv := x.rcv }

/-- `process_data` after its length check. -/
def dataReceived (c : Conn) (id : ChanId) (seq : UInt16) (fragIdx fragTotal : Nat)
    (payload : List UInt8) : Conn :=
  match c.channels id with
  | none => c
  | some ch =>
    if ch.role ≠ .receiver then c
    else if ch.type = .unreliable then
      c.withRx id ch
        (dataUnreliable (maxFragPayload c) id (c.rx ch) seq fragIdx fragTotal payload)
    else
      let x := dataReliable (maxFragPayload c) id (c.rx ch) seq fragIdx fragTotal payload
      c.withRx id ch { x with rcv := x.rcv.ack }

def processData (c : Conn) (p : List UInt8) : Handled :=
  if p.length < 8 then (.error .proto, c)
  else
    let dataLen := (rd16 p 4).toNat
    if p.length < 8 + dataLen then (.error .proto, c)
    else (.ok (8 + dataLen), dataReceived c (chanIdAt p 1) (rd16 p 2) (byte p 6).toNat
      (byte p 7).toNat ((p.drop 8).take dataLen))

/-! ## ACK and WINDOW_UPDATE -/

/-- One slot of the scan of `process_ack`. -/
def ackSlot (acked : UInt16) (st : Pool × Sender) (i : Fin ncOutgoingSlots) : Pool × Sender :=
  let (p, s) := st
  let o := s.outgoing i
  if o.active ∧ int16 (o.seq - acked) ≤ 0 then
    (poolPut p o.buf,
      { s with bytesInFlight := s.bytesInFlight - UInt32.ofNat o.len
               msgsAcked := s.msgsAcked + 1
               outgoing := Function.update s.outgoing i { o with buf := none, active := false } })
  else (p, s)

/-- `process_ack` after its length check. -/
def ackReceived (c : Conn) (id : ChanId) (acked : UInt16) : Conn :=
  match c.channels id with
  | none => c
  | some ch =>
    if ch.role ≠ .sender then c
    else
      let (p, s) := (List.finRange ncOutgoingSlots).foldl (ackSlot acked) (c.pool, ch.snd)
      { c with pool := p }.setChan id { ch with snd := outAdvance ncOutgoingSlots s }

def processAck (c : Conn) (p : List UInt8) : Handled :=
  if p.length < 4 then (.error .proto, c) else (.ok 4, ackReceived c (chanIdAt p 1) (rd16 p 2))

/-- `process_window_update` after its length check. -/
def windowUpdated (c : Conn) (id : ChanId) (window : UInt32) : Conn :=
  match c.channels id with
  | none => c
  | some ch =>
    if ch.role = .sender then
      c.setChan id { ch with snd := { ch.snd with sendWindow := window }
                             state := if ch.state = .opening then .opened else ch.state }
    else c

def processWindowUpdate (c : Conn) (p : List UInt8) : Handled :=
  if p.length < 6 then (.error .proto, c) else (.ok 6, windowUpdated c (chanIdAt p 1) (rd32 p 2))

/-! ## Packet parsing -/

/-- The `switch` of `parse_frames`, for a frame that is not padding. -/
def processFrame (env : Env) (c : Conn) (p : List UInt8) : Handled :=
  match (byte p 0).toNat with
  | 0x01 => processConnectInit env c p
  | 0x02 => processConnectAccept c p
  | 0x03 => processConnectRedirect c p
  | 0x04 => processDisconnect c p
  | 0x05 => processPing c p
  | 0x06 => processPong env c p
  | 0x07 => processChannelOpen c p
  | 0x08 => processChannelClose c p
  | 0x09 => processData c p
  | 0x0A => processAck c p
  | 0x0B => processWindowUpdate c p
  | _ => (.error .proto, c)

/-- The loop of `parse_frames` on the rest of the packet. Every round consumes a byte or more
(`processFrame_pos`), so `fuel` rounds do for a rest of at most `fuel` bytes. -/
def parseLoop (env : Env) : Nat → Conn → List UInt8 → Except Err Unit × Conn
  | 0, c, _ => (.ok (), c)
  | _ + 1, c, [] => (.ok (), c)
  | fuel + 1, c, b :: p =>
    if b = 0 then parseLoop env fuel c p
    else
      match processFrame env c (b :: p) with
      | (.error e, c) => (.error e, c)
      | (.ok n, c) => parseLoop env fuel c ((b :: p).drop n)

def parseFrames (env : Env) (c : Conn) (data : List UInt8) : Except Err Unit × Conn :=
  parseLoop env data.length c data

/-- `validate_migration`: the first frame is DATA or ACK for a channel that exists. -/
def validateMigration (c : Conn) (frames : List UInt8) : Bool :=
  match frames with
  | [] => false
  | ftype :: _ =>
    (ftype = 0x09 && 4 ≤ frames.length && (c.channels (chanIdAt frames 1)).isSome) ||
      (ftype = 0x0A && 2 ≤ frames.length && (c.channels (chanIdAt frames 1)).isSome)

/-- The bytes of the header `netchan_feed` reads for a flag byte. -/
def hdrSize (flags : UInt8) : Nat :=
  if flags &&& ncPktFlagInit ≠ 0 then ncHdrInitSize else ncHdrFullSize

/-- The connection with the peer's address as `netchan_feed` updates it: migration of a connected
session, and the first packet's address. -/
def updatePeer (c : Conn) (frames : List UInt8) (source : Option Addr) : Conn :=
  match source with
  | none => c
  | some a =>
    let c :=
      if a ≠ [] ∧ c.peerAddr ≠ [] ∧ c.state = .connected ∧ a ≠ c.peerAddr ∧
          validateMigration c frames then { c with peerAddr := a }
      else c
    if c.peerAddr = [] ∧ a ≠ [] then { c with peerAddr := a } else c

/-- The checks of `netchan_feed` on the header: long enough, and the connection id is ours unless
the packet is an INIT packet. -/
def headerOk (c : Conn) (pkt : List UInt8) : Bool :=
  ncHdrInitSize ≤ pkt.length && hdrSize (byte pkt 0) ≤ pkt.length &&
    (byte pkt 0 &&& ncPktFlagInit ≠ 0 || rd32 pkt 1 = c.localId)

/-- The connection `netchan_feed` hands to `parse_frames`. -/
def fedConn (env : Env) (c : Conn) (pkt : List UInt8) (source : Option Addr) : Conn :=
  { updatePeer c (pkt.drop (hdrSize (byte pkt 0))) source with
    lastRecvMs := env.now, pktsRecv := c.pktsRecv + 1 }

def netchanFeed (env : Env) (c : Conn) (pkt : List UInt8) (source : Option Addr) :
    Except Err Unit × Conn :=
  if headerOk c pkt then
    parseFrames env (fedConn env c pkt source) (pkt.drop (hdrSize (byte pkt 0)))
  else (.error .proto, c)

end Netchan
