import Netchan.Core.Wire

/-!
# The packet parser with every access checked

`netchan_feed` and what it calls, once more, as the source has it: here every byte of the packet is
read through an access that fails at or beyond its end, and every array index that comes from the
packet is checked against the array. `none` stands for an access out of bounds, for a handler that
does not advance, or for a loop that does not end in as many rounds as the packet has bytes.
-/

namespace Netchan

open Lib

namespace Checked

/-- `p[i]`. -/
def byte (p : List UInt8) (i : Nat) : Option UInt8 := p[i]?

/-- `rd16 (p + i)`. -/
def rd16 (p : List UInt8) (i : Nat) : Option UInt16 := do
  let a ← byte p i
  let b ← byte p (i + 1)
  return UInt16.ofNat (a.toNat * 2 ^ 8 + b.toNat)

/-- `rd32 (p + i)`. -/
def rd32 (p : List UInt8) (i : Nat) : Option UInt32 := do
  let a ← byte p i
  let b ← byte p (i + 1)
  let c ← byte p (i + 2)
  let d ← byte p (i + 3)
  return UInt32.ofNat (a.toNat * 2 ^ 24 + b.toNat * 2 ^ 16 + c.toNat * 2 ^ 8 + d.toNat)

/-- The `n` bytes from `p + i` on. -/
def bytes (p : List UInt8) (i n : Nat) : Option (List UInt8) :=
  if i + n ≤ p.length then some ((p.drop i).take n) else none

/-- Index `i` of an array of `n`, or a shift by `i` in a word of `n` bits. -/
def index (n i : Nat) : Option (Fin n) := if h : i < n then some ⟨i, h⟩ else none

/-- `channels[p[i]]`. -/
def chanIdAt (p : List UInt8) (i : Nat) : Option ChanId := do
  let b ← byte p i
  index ncMaxChannels b.toNat

/-! ## Handlers -/

def processConnectInit (env : Env) (c : Conn) (p : List UInt8) : Option Handled :=
  if p.length < 6 then some (.error .proto, c)
  else if !c.server then some (.error .proto, c)
  else do
    let id ← rd32 p 1
    let version ← byte p 5
    if version ≠ ncVersion then return (.error .proto, c)
    else
      let c := { c with remoteId := id }
      if c.state = .new then
        return (.ok 6, { c with localId := ncRandomId env, state := .connecting })
      else return (.ok 6, c)

def processConnectAccept (c : Conn) (p : List UInt8) : Option Handled :=
  if p.length < 10 then some (.error .proto, c)
  else if c.server then some (.error .proto, c)
  else do
    let id ← rd32 p 1
    let _version ← byte p 5
    let _idle ← rd32 p 6
    return (.ok 10, evPush { c with remoteId := id, state := .connected } .connected)

def processConnectRedirect (c : Conn) (p : List UInt8) : Option Handled :=
  if p.length < 12 then some (.error .proto, c)
  else do
    let id ← rd32 p 1
    let addrType ← byte p 5
    if addrType = 4 then
      let addr ← bytes p 6 6
      return (.ok 12, evPush c (.redirect (4 :: addr) id))
    else if addrType = 6 then
      if p.length < 24 then return (.error .proto, c)
      else
        let addr ← bytes p 6 18
        return (.ok 24, evPush c (.redirect (6 :: addr) id))
    else return (.error .proto, c)

def processPing (c : Conn) (p : List UInt8) : Option Handled :=
  if p.length < 5 then some (.error .proto, c)
  else do
    let opaq ← rd32 p 1
    return (.ok 5, ctrlPong c opaq)

def processPong (env : Env) (c : Conn) (p : List UInt8) : Option Handled :=
  if p.length < 5 then some (.error .proto, c)
  else do
    let opaq ← rd32 p 1
    return (.ok 5, pongReceived env c opaq)

def processChannelOpen (c : Conn) (p : List UInt8) : Option Handled :=
  if p.length < 5 then some (.error .proto, c)
  else do
    let id ← chanIdAt p 1
    let type ← byte p 2
    let dir ← byte p 3
    let ctLen ← byte p 4
    if p.length < 5 + ctLen.toNat then return (.error .proto, c)
    else
      let ct ← bytes p 5 (min ctLen.toNat 63)
      return (.ok (5 + ctLen.toNat), channelOpened c id (.ofByte type) (.ofByte dir) ct)

def processChannelClose (c : Conn) (p : List UInt8) : Option Handled :=
  if p.length < 4 then some (.error .proto, c)
  else do
    let id ← chanIdAt p 1
    return (.ok 4, channelClosed c id)

/-! ## DATA -/

/-- The reassembly block: `1u << frag_idx`, `offsets[frag_idx]` and, in the compaction, `offsets[i]`
for every fragment. -/
def fragStore (fp : Nat) (x : Rx) (seq : UInt16) (fragIdx fragTotal : Nat) (payload : List UInt8) :
    Option (Rx × Option (Fin ncFragSlots × Nat)) :=
  match fragSlot x seq fragTotal with
  | none => some (x, none)
  | some (i, x) =>
    if fragIdx < (x.rcv.frags i).total then do
      let bit ← index 32 fragIdx
      if (x.rcv.frags i).bitmask.testBit bit = false ∧ fragIdx * fp + payload.length ≤ ncMaxMsg then
        let o ← index ncMaxFrags fragIdx
        let x := fragPut fp x i o payload
        if (x.rcv.frags i).got = (x.rcv.frags i).total then
          let _ ← (List.range (x.rcv.frags i).total).mapM (index ncMaxFrags)
          let (x, pos) := fragCompact fp x i
          return (x, some (i, pos))
        else return (x, none)
      else return (x, none)
    else some (x, none)

def dataUnreliable (fp : Nat) (id : ChanId) (x : Rx) (seq : UInt16) (fragIdx fragTotal : Nat)
    (payload : List UInt8) : Option Rx :=
  if fragTotal ≤ 1 then some (x.deliver id payload)
  else do
    match ← fragStore fp x seq fragIdx fragTotal payload with
    | (x, none) => return x
    | (x, some (i, pos)) => return fragFree (x.deliver id (assembled x i pos)) i

/-- `reorder[seq % NC_REORDER_SLOTS]`. -/
def reorderStore (x : Rx) (seq : UInt16) (data : List UInt8) : Option Rx :=
  let r := x.rcv
  let diff := int16 (seq - r.recvSeq)
  if 0 < diff ∧ diff < ncReorderSlots then do
    let slot ← index ncReorderSlots (seq.toNat % ncReorderSlots)
    if (r.reorder slot).valid = false ∧ data.length ≤ ncMaxMsg then
      match poolGet x.pool with
      | (none, _) => return x
      | (some b, p) =>
        let e : Reorder := ⟨seq, some b, data.length, true⟩
        return { x with pool := p.write (some b) 0 data
                        rcv := { r with reorder := Function.update r.reorder slot e } }
    else return x
  else some x

def dataArrived (id : ChanId) (x : Rx) (seq : UInt16) (data : List UInt8) : Option Rx :=
  if seq = x.rcv.recvSeq then
    let x := x.deliver id data
    some (chanDeliverReordered id { x with rcv := { x.rcv with recvSeq := x.rcv.recvSeq + 1 } })
  else reorderStore x seq data

def dataReliable (fp : Nat) (id : ChanId) (x : Rx) (seq : UInt16) (fragIdx fragTotal : Nat)
    (payload : List UInt8) : Option Rx :=
  if fragTotal ≤ 1 then dataArrived id x seq payload
  else do
    match ← fragStore fp x seq fragIdx fragTotal payload with
    | (x, none) => return x
    | (x, some (i, pos)) =>
      let x ← dataArrived id x seq (assembled x i pos)
      return fragFree x i

def dataReceived (c : Conn) (id : ChanId) (seq : UInt16) (fragIdx fragTotal : Nat)
    (payload : List UInt8) : Option Conn :=
  match c.channels id with
  | none => some c
  | some ch =>
    if ch.role ≠ .receiver then some c
    else if ch.type = .unreliable then do
      let x ← dataUnreliable (maxFragPayload c) id (c.rx ch) seq fragIdx fragTotal payload
      return c.withRx id ch x
    else do
      let x ← dataReliable (maxFragPayload c) id (c.rx ch) seq fragIdx fragTotal payload
      return c.withRx id ch { x with rcv := x.rcv.ack }

def processData (c : Conn) (p : List UInt8) : Option Handled :=
  if p.length < 8 then some (.error .proto, c)
  else do
    let id ← chanIdAt p 1
    let seq ← rd16 p 2
    let dataLen ← rd16 p 4
    let fragIdx ← byte p 6
    let fragTotal ← byte p 7
    if p.length < 8 + dataLen.toNat then return (.error .proto, c)
    else
      let payload ← bytes p 8 dataLen.toNat
      let c ← dataReceived c id seq fragIdx.toNat fragTotal.toNat payload
      return (.ok (8 + dataLen.toNat), c)

/-! ## ACK and WINDOW_UPDATE -/

def processAck (c : Conn) (p : List UInt8) : Option Handled :=
  if p.length < 4 then some (.error .proto, c)
  else do
    let id ← chanIdAt p 1
    let acked ← rd16 p 2
    return (.ok 4, ackReceived c id acked)

def processWindowUpdate (c : Conn) (p : List UInt8) : Option Handled :=
  if p.length < 6 then some (.error .proto, c)
  else do
    let id ← chanIdAt p 1
    let window ← rd32 p 2
    return (.ok 6, windowUpdated c id window)

/-! ## Packet parsing -/

def processFrame (env : Env) (c : Conn) (p : List UInt8) : Option Handled := do
  match (← byte p 0).toNat with
  | 0x01 => processConnectInit env c p
  | 0x02 => processConnectAccept c p
  | 0x03 => processConnectRedirect c p
  | 0x04 => return processDisconnect c p   -- it reads no byte
  | 0x05 => processPing c p
  | 0x06 => processPong env c p
  | 0x07 => processChannelOpen c p
  | 0x08 => processChannelClose c p
  | 0x09 => processData c p
  | 0x0A => processAck c p
  | 0x0B => processWindowUpdate c p
  | _ => return (.error .proto, c)

/-- The loop of `parse_frames` from `pos` on, in at most `fuel` rounds. -/
def parseLoop (env : Env) (data : List UInt8) :
    Nat → Conn → Nat → Option (Except Err Unit × Conn)
  | 0, c, pos => if pos < data.length then none else some (.ok (), c)
  | fuel + 1, c, pos =>
    if pos < data.length then do
      if (← byte data pos) = 0 then parseLoop env data fuel c (pos + 1)
      else
        match ← processFrame env c (data.drop pos) with
        | (.error e, c) => return (.error e, c)
        | (.ok n, c) =>
          if 1 ≤ n ∧ pos + n ≤ data.length then parseLoop env data fuel c (pos + n) else none
    else some (.ok (), c)

def parseFrames (env : Env) (c : Conn) (data : List UInt8) : Option (Except Err Unit × Conn) :=
  parseLoop env data data.length c 0

def validateMigration (c : Conn) (frames : List UInt8) : Option Bool :=
  if frames.length = 0 then some false
  else do
    let ftype ← byte frames 0
    if ftype = 0x09 ∧ 4 ≤ frames.length then
      return (c.channels (← chanIdAt frames 1)).isSome
    else if ftype = 0x0A ∧ 2 ≤ frames.length then
      return (c.channels (← chanIdAt frames 1)).isSome
    else return false

def updatePeer (c : Conn) (frames : List UInt8) (source : Option Addr) : Option Conn :=
  match source with
  | none => some c
  | some a => do
    let c ←
      if a ≠ [] ∧ c.peerAddr ≠ [] ∧ c.state = .connected ∧ a ≠ c.peerAddr then
        if ← validateMigration c frames then pure { c with peerAddr := a } else pure c
      else pure c
    if c.peerAddr = [] ∧ a ≠ [] then return { c with peerAddr := a } else return c

def netchanFeed (env : Env) (c : Conn) (pkt : List UInt8) (source : Option Addr) :
    Option (Except Err Unit × Conn) :=
  if pkt.length < ncHdrInitSize then some (.error .proto, c)
  else do
    let flags ← byte pkt 0
    let connId ← rd32 pkt 1
    if flags &&& ncPktFlagInit = 0 ∧ pkt.length < ncHdrFullSize then return (.error .proto, c)
    else if flags &&& ncPktFlagInit = 0 ∧ connId ≠ c.localId then return (.error .proto, c)
    else
      let body ← bytes pkt (hdrSize flags) (pkt.length - hdrSize flags)
      let c ← updatePeer c body source
      parseFrames env { c with lastRecvMs := env.now, pktsRecv := c.pktsRecv + 1 } body

end Checked

end Netchan
