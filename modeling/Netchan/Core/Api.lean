import Netchan.Core.Frames

/-!
# The public calls

Connection lifecycle, `netchan_send_next`, `netchan_service` and the channel calls of
`src/netchan.c`. `size_t` differences that the code does not guard are taken modulo `2 ^ 64`
(`sizeSub`). A call that takes a channel pointer takes its wire id here; an id without a channel is
the NULL pointer.
-/

namespace Netchan

open Lib

/-- `a - b` in `size_t`. -/
def sizeSub (a b : Nat) : Nat := (a + 2 ^ 64 - b) % 2 ^ 64

/-- `(int) x` of an unsigned value. -/
def asInt (x : UInt32) : Int := if x.toNat < 2 ^ 31 then x.toNat else x.toNat - 2 ^ 32

/-- Every channel id, in table order. -/
def allIds : List ChanId := List.finRange ncMaxChannels

/-! ## Configuration and lifecycle -/

def netchanCfgDefault : Cfg := ⟨ncDefaultMtu, ncDefaultWindow, ncDefaultIdleMs, ncDefaultRtMs⟩

def netchanOpen (server : Bool) : Conn :=
  { server, state := .new, nextChanId := if server then 1 else 0, rttMs := 100, pool := poolInit,
    cfg := netchanCfgDefault }

def netchanDisconnect (c : Conn) : Conn :=
  if c.state ≠ .connected then c else { ctrlDisconnect c 0 with state := .closing }

def netchanConfig (c : Conn) (cfg : Cfg) : Conn := { c with cfg }

def netchanConnect (env : Env) (c : Conn) (addr : Addr) : Except Err Unit × Conn :=
  if c.server then (.error .err, c)
  else if c.state ≠ .new then (.error .err, c)
  else
    let c := { c with localId := ncRandomId env, peerAddr := addr, state := .connecting }
    (.ok (), { ctrlConnectInit c with connectSentMs := env.now, connectAttempts := 1 })

def netchanAccept (c : Conn) : Except Err Unit × Conn :=
  if !c.server then (.error .err, c)
  else if c.state ≠ .connecting then (.error .err, c)
  else (.ok (), evPush { ctrlConnectAccept c with state := .connected } .connected)

/-! ## Sending -/

/-- A channel has something for `netchan_send_next`. -/
def chanPending (ch : Chan) : Bool :=
  (ch.role = .sender && ch.state = .opened && (chanNextSendable ch.snd).isSome) ||
    ch.rcv.needAck || ch.rcv.needWindowUpdate

def hasData (c : Conn) : Bool :=
  !c.ctrlBuf.isEmpty || allIds.any fun i => (c.channels i).any chanPending

/-- The window a receiver advertises. -/
def advertised (r : Receiver) : UInt32 :=
  if r.recvWindow > r.recvBuffered then r.recvWindow - r.recvBuffered else 0

/-- One round of the loop that flushes pending acknowledgements: the ACK. -/
def flushAck (mtu : Nat) (ch : Chan) (out : List UInt8) : Chan × List UInt8 :=
  if ch.rcv.needAck ∧ out.length + 4 ≤ mtu then
    ({ ch with rcv := { ch.rcv with needAck := false } },
      out ++ (0x0A :: idByte ch.id :: wr16 ch.rcv.ackSeq))
  else (ch, out)

/-- One round of the loop that flushes pending acknowledgements: the WINDOW_UPDATE. -/
def flushWindow (mtu : Nat) (ch : Chan) (out : List UInt8) : Chan × List UInt8 :=
  if ch.rcv.needWindowUpdate ∧ out.length + 6 ≤ mtu then
    ({ ch with rcv := { ch.rcv with needWindowUpdate := false } },
      out ++ (0x0B :: idByte ch.id :: wr32 (advertised ch.rcv)))
  else (ch, out)

/-- The loop of `netchan_send_next` over pending ACKs and window updates. -/
def flushAcks (mtu : Nat) : List ChanId → Table → List UInt8 → Table × List UInt8
  | [], t, out => (t, out)
  | i :: is, t, out =>
    if out.length + 6 ≤ mtu then
      match t i with
      | none => flushAcks mtu is t out
      | some ch =>
        let (ch, out) := flushAck mtu ch out
        let (ch, out) := flushWindow mtu ch out
        flushAcks mtu is (Table.set t i ch) out
    else (t, out)

/-- The slot after its next fragment went out. -/
def Outgoing.sent (o : Outgoing) (now : UInt32) : Outgoing :=
  { o with fragSent := o.fragSent + 1
           sentMs := now
           attempts := if o.attempts = 0 then 1 else o.attempts }

/-- The bytes of the fragment of `o` that is sent next: `dlen` of them, from `offset` on. -/
def fragLen (fp : Nat) (o : Outgoing) : Nat := min (sizeSub o.len (o.fragSent * fp)) fp

/-- The DATA frame of the next fragment of `o`. -/
def dataFrame (p : Pool) (fp : Nat) (id : ChanId) (o : Outgoing) : List UInt8 :=
  0x09 :: idByte id :: wr16 o.seq ++ wr16 (UInt16.ofNat (fragLen fp o)) ++
    [UInt8.ofNat o.fragSent, UInt8.ofNat o.fragTotal] ++
    p.read o.buf (o.fragSent * fp) (fragLen fp o)

/-- The channel and the pool after slot `i` sent a fragment: an unreliable message is freed once
it is out. -/
def chanSent (now : UInt32) (p : Pool) (ch : Chan) (i : Fin ncOutgoingSlots) : Pool × Chan :=
  let o := (ch.snd.outgoing i).sent now
  if o.fragSent ≥ o.fragTotal ∧ ch.type = .unreliable then
    let slots := Function.update ch.snd.outgoing i { o with buf := none, active := false }
    (poolPut p o.buf,
      { ch with snd := outAdvance ncOutgoingSlots { ch.snd with outgoing := slots } })
  else (p, { ch with snd := { ch.snd with outgoing := Function.update ch.snd.outgoing i o } })

/-- The slot whose fragment a channel sends next, if it is an open sender channel. -/
def chanSendSlot (ch : Chan) : Option (Fin ncOutgoingSlots) :=
  if ch.role ≠ .sender ∨ ch.state ≠ .opened then none else chanNextSendable ch.snd

/-- The loop of `netchan_send_next` over the channels' DATA. -/
def flushData (now : UInt32) (fp mtu : Nat) :
    List ChanId → Pool × Table → List UInt8 → (Pool × Table) × List UInt8
  | [], st, out => (st, out)
  | i :: is, (p, t), out =>
    if out.length + 9 ≤ mtu then
      match t i with
      | none => flushData now fp mtu is (p, t) out
      | some ch =>
        match chanSendSlot ch with
        | none => flushData now fp mtu is (p, t) out
        | some k =>
          let o := ch.snd.outgoing k
          let avail := mtu - out.length - 8
          if avail = 0 then ((p, t), out)
          else if fragLen fp o > avail then ((p, t), out)   -- can't fit this fragment
          else
            let out := out ++ dataFrame p fp ch.id o
            let (p, ch) := chanSent now p ch k
            flushData now fp mtu is (p, Table.set t i ch) out
    else ((p, t), out)

/-- A client that is still connecting sends INIT packets. -/
def isInit (c : Conn) : Bool := c.state = .connecting && !c.server

/-- The size of the header `netchan_send_next` writes. -/
def sendHdrSize (c : Conn) : Nat := if isInit c then ncHdrInitSize else ncHdrFullSize

/-- The packet header, and the connection after it. -/
def sendHeader (c : Conn) : Conn × List UInt8 :=
  if isInit c then (c, ncPktFlagInit :: wr32 c.localId)
  else ({ c with nextPktNum := c.nextPktNum + 1 },
    ncPktFlagPktnum :: wr32 c.remoteId ++ wr16 c.nextPktNum)

/-- The bytes `netchan_send_next` may fill. -/
def sendRoom (c : Conn) (buflen : Nat) : Nat := min c.cfg.mtu.toNat buflen

/-- Flush control frames: as much of the queue as there is room for. -/
def flushCtrl (mtu : Nat) (c : Conn) (out : List UInt8) : Conn × List UInt8 :=
  let n := min c.ctrlBuf.length (sizeSub mtu out.length)
  ({ c with ctrlBuf := c.ctrlBuf.drop n }, out ++ c.ctrlBuf.take n)

/-- `netchan_send_next`: the packet and its destination, or `none` for the return value 0. -/
def netchanSendNext (env : Env) (c : Conn) (buflen : Nat) : Conn × Option (List UInt8 × Addr) :=
  if !hasData c then (c, none)
  else if buflen < sendHdrSize c then (c, none)
  else
    let mtu := sendRoom c buflen
    let (c, out) := sendHeader c
    let (c, out) := flushCtrl mtu c out
    let (t, out) := flushAcks mtu allIds c.channels out
    let ((p, t), out) := flushData env.now (maxFragPayload c) mtu allIds (c.pool, t) out
    ({ c with pool := p, channels := t, lastSendMs := env.now, pktsSent := c.pktsSent + 1 },
      some (out, c.peerAddr))

/-! ## Timers -/

/-- `if (next_ms < 0 || remain < next_ms) next_ms = remain`. -/
def sooner (nextMs remain : Int) : Int := if nextMs < 0 ∨ remain < nextMs then remain else nextMs

/-- The backoff of a slot: doubled with each attempt, up to the ceiling. -/
def rtTimeout (cfg : Cfg) (o : Outgoing) : UInt32 :=
  let timeout := cfg.retransmitMs <<< UInt32.ofNat (o.attempts - 1)
  if timeout > ncMaxRtMs then ncMaxRtMs else timeout

/-- The slots of a channel from `is` on, in `netchan_service`: the channel, whether it was declared
dead (which ends the scan), and the wait. -/
def serviceSlots (cfg : Cfg) (now : UInt32) :
    List (Fin ncOutgoingSlots) → Sender → Int → Sender × Bool × Int
  | [], s, nextMs => (s, false, nextMs)
  | j :: js, s, nextMs =>
    let o := s.outgoing j
    if !o.active || o.sentMs == 0 then serviceSlots cfg now js s nextMs
    else
      let timeout := rtTimeout cfg o
      let elapsed := now - o.sentMs
      if elapsed ≥ timeout then
        if o.attempts ≥ ncMaxRtAttempts then (s, true, nextMs)
        else
          serviceSlots cfg now js
            { s with outgoing := Function.update s.outgoing j
                       { o with fragSent := 0, sentMs := now, attempts := o.attempts + 1 }
                     retransmissions := s.retransmissions + 1 } nextMs
      else serviceSlots cfg now js s (sooner nextMs (asInt (timeout - elapsed)))

/-- The retransmit loop of `netchan_service` over the channels. -/
def serviceChans (cfg : Cfg) (now : UInt32) :
    List ChanId → Ring Event ncEventQueue × Table → Int → (Ring Event ncEventQueue × Table) × Int
  | [], st, nextMs => (st, nextMs)
  | i :: is, (ev, t), nextMs =>
    match t i with
    | none => serviceChans cfg now is (ev, t) nextMs
    | some ch =>
      if ch.role ≠ .sender ∨ ch.type ≠ .reliable then serviceChans cfg now is (ev, t) nextMs
      else
        match serviceSlots cfg now (List.finRange ncOutgoingSlots) ch.snd nextMs with
        | (s, true, nextMs) =>
          serviceChans cfg now is
            (ev.offer (.chanClose i), Table.set t i { ch with snd := s, state := .closed }) nextMs
        | (s, false, nextMs) =>
          serviceChans cfg now is (ev, Table.set t i { ch with snd := s }) nextMs

/-- The handshake part of `netchan_service`: `none` when it returns early. -/
def serviceConnect (c : Conn) (now : UInt32) : Conn × Option Int :=
  if c.state = .connecting ∧ c.server = false then
    let elapsed := now - c.connectSentMs
    let remain := max (asInt (ncConnectRetryMs - elapsed)) 0
    if elapsed ≥ ncConnectRetryMs then
      if c.connectAttempts ≥ ncConnectRetries then
        (evPush { c with state := .closed } .disconnected, none)
      else
        ({ ctrlConnectInit c with connectSentMs := now, connectAttempts := c.connectAttempts + 1 },
          some (sooner (-1) remain))
    else (c, some (sooner (-1) remain))
  else (c, some (-1))

/-- The idle timeout of `netchan_service`: `none` when it returns early. -/
def serviceIdle (c : Conn) (now : UInt32) (nextMs : Int) : Conn × Option Int :=
  if c.state = .connected ∧ c.lastRecvMs > 0 then
    let idle := now - c.lastRecvMs
    if idle ≥ c.cfg.idleTimeoutMs then (evPush { c with state := .closed } .disconnected, none)
    else (c, some (sooner nextMs (asInt (c.cfg.idleTimeoutMs - idle))))
  else (c, some nextMs)

/-- The keepalive ping of `netchan_service`. -/
def servicePing (env : Env) (c : Conn) (now : UInt32) (nextMs : Int) : Conn × Int :=
  if c.state = .connected ∧ c.lastSendMs > 0 then
    let sinceSend := now - c.lastSendMs
    let c :=
      if sinceSend ≥ ncPingIntervalMs ∧ c.pingSentMs = 0 then
        { ctrlPing c (ncRandomId env) with pingOpaque := ncRandomId env, pingSentMs := now }
      else c
    (c, if sinceSend < ncPingIntervalMs then sooner nextMs (asInt (ncPingIntervalMs - sinceSend))
        else nextMs)
  else (c, nextMs)

/-- `netchan_service`: the wait, or -1 (`NETCHAN_ERR`). -/
def netchanService (env : Env) (c : Conn) (now : UInt32) : Int × Conn :=
  match serviceConnect c now with
  | (c, none) => (-1, c)
  | (c, some nextMs) =>
    match serviceIdle c now nextMs with
    | (c, none) => (-1, c)
    | (c, some nextMs) =>
      let (c, nextMs) := servicePing env c now nextMs
      let ((ev, t), nextMs) := serviceChans c.cfg now allIds (c.events, c.channels) nextMs
      (nextMs, { c with events := ev, channels := t })

/-! ## Channels -/

/-- `netchan_chan_open`: `none` is the NULL pointer; a NULL content type is the empty one. -/
def netchanChanOpen (c : Conn) (type : ChanType) (dir : Dir) (contentType : List UInt8) :
    Option ChanId × Conn :=
  if c.state ≠ .connected then (none, c)
  else
    let id := c.nextChanId
    if (c.channels id).isSome then (none, c)
    else
      let c := { c with nextChanId := c.nextChanId + 2 }
      let localRole := if dir = .send then Role.sender else Role.receiver
      match chanNew c id type dir localRole contentType with
      | none => (none, c)
      | some (ch, c) =>
        let c := ctrlChannelOpen c ch
        if localRole = .receiver then
          (some id,
            (ctrlWindowUpdate c id ch.rcv.recvWindow).setChan id { ch with state := .opened })
        else (some id, c)

def netchanChanClose (c : Conn) (id : ChanId) : Conn :=
  match c.channels id with
  | none => c
  | some ch =>
    if ch.state = .closing ∨ ch.state = .closed then c
    else (ctrlChannelClose c id 0).setChan id { ch with state := .closing }

/-- The number of fragments `netchan_chan_write` records, an 8-bit value. -/
def fragTotalOf (fp len : Nat) : Nat :=
  let t := (len + fp - 1) / fp % 2 ^ 8
  if t = 0 then 1 else t

/-- `netchan_chan_write`. A message of too many fragments is refused after its sequence number is
taken. -/
def netchanChanWrite (c : Conn) (id : ChanId) (data : List UInt8) : Except Err Nat × Conn :=
  match c.channels id with
  | none => (.error .err, c)
  | some ch =>
    let s := ch.snd
    let len := data.length
    if ch.role ≠ .sender then (.error .err, c)
    else if ch.state = .closed then (.error .closed, c)
    else if len = 0 then (.ok 0, c)
    else if len > ncMaxMsg then (.error .toobig, c)
    else if ch.type = .reliable ∧ ch.state = .opened ∧
        s.bytesInFlight.toNat + len > s.sendWindow.toNat then (.error .flow, c)
    else if s.outTail + 1 = s.outHead then (.error .again, c)
    else
      match poolGet c.pool with
      | (none, _) => (.error .nomem, c)
      | (some b, p) =>
        let fragTotal := fragTotalOf (maxFragPayload c) len
        let p := p.write (some b) 0 data
        if fragTotal > ncMaxFrags then
          (.error .toobig, { c with pool := poolPut p (some b) }.setChan id
            { ch with snd := { s with outgoing := Function.update s.outgoing s.outTail {}
                                      sendSeq := s.sendSeq + 1 } })
        else
          let o : Outgoing := { seq := s.sendSeq, buf := some b, len, fragTotal, active := true }
          (.ok len, { c with pool := p }.setChan id
            { ch with snd := { s with
                outgoing := Function.update s.outgoing s.outTail o
                sendSeq := s.sendSeq + 1
                bytesInFlight :=
                  if ch.type = ChanType.reliable then s.bytesInFlight + UInt32.ofNat len
                  else s.bytesInFlight
                msgsSent := s.msgsSent + 1
                outTail := s.outTail + 1 } })

/-- `netchan_chan_read`: the bytes copied to the caller's buffer (none for the return value 0). -/
def netchanChanRead (c : Conn) (id : ChanId) (buflen : Nat) : Except Err (List UInt8) × Conn :=
  match c.channels id with
  | none => (.error .err, c)
  | some ch =>
    let r := ch.rcv
    if ch.role ≠ .receiver then (.error .err, c)
    else if r.recvQueue.Empty then (.ok [], c)
    else
      let e := r.recvQueue.front
      let n := min e.len buflen
      (.ok (c.pool.read e.buf 0 n), { c with pool := poolPut c.pool e.buf }.setChan id
        { ch with rcv := { r with recvQueue := r.recvQueue.pop {}
                                  recvBuffered := r.recvBuffered - UInt32.ofNat n
                                  needWindowUpdate := true } })

/-! ## Events -/

/-- `netchan_poll`: the event, or `none` for the return value 0. -/
def netchanPoll (c : Conn) : Option Event × Conn :=
  if c.events.Empty then (none, c)
  else (some c.events.front, { c with events := c.events.pop c.events.front })

end Netchan
