import Netchan.Auth.Client
import Netchan.Auth.Server
import Netchan.Core.World
import Netchan.Transport.Udp

/-!
# auth_link

The authenticated link of `examples/auth/auth_link.c`: nc_auth on a reliable channel of netchan,
whose datagrams nc_crypto seals.

* Every call of a layer goes through `AuthLink.does`, which makes the call and notes it in `log`.
  Nothing reads the log.
* `io n` is what the `n`-th use of the surroundings finds: the clocks and the entropy, what
  `verify_peer` and the credential store answer, and what the application does in a callback; `turn`
  counts the uses. A callback may call the link again. `auth_link_close` is not called from one, for
  the link is freed there.
* `exec` runs the calls that callbacks make. It and the loops are bounded: `depth` and `limit`.
* The event loop is in the model as far as the timer goes that `on_tick` arms. The functions that
  only read a field (`auth_link_up`, `auth_link_user`, `auth_link_form`, `auth_link_waiting`,
  `auth_link_registered`) are not.
-/

namespace Netchan.Link

open Lib Crypto Transport

/-- The application's side of `sizeof (buf)` and `sizeof (sealed)`. -/
abbrev bufSize : Nat := 2048
abbrev sealedSize : Nat := 2048 + ncCryptoOverhead

abbrev tagAuth : UInt8 := 0xa0
abbrev tagApp : UInt8 := 0xa1

/-- `AL_DOWN_*`. -/
inductive Reason
  | peer | auth | hostkey
  deriving DecidableEq, Repr

/-- The callbacks of `struct auth_link_cb` that are set. -/
structure Callbacks where
  onUp : Bool := false
  onData : Bool := false
  onDown : Bool := false
  onNeed : Bool := false

/-- A call that the application makes on a link. -/
inductive Cmd
  | send (data : List UInt8)
  | supplyKey (keys : Option (Bytes 64 × Key))
  | supplyPassword (password : Option CStr)
  | supplyMethod (method : UInt32)
  | submit (vals : Option (List Auth.FormValue))
  | cancel

/-- What one use of the surroundings finds. `now` is what `now_ms` reads, `timerId` what
`iox_timer_add` returns and `script` what the application does in the callback. -/
structure Moment where
  env : Netchan.Env
  now : UInt32
  verifyPeer : Option Key → Bool
  auth : Auth.Env
  timerId : Int
  script : List Cmd

/-- A call that the link makes, to a layer or to the outside, with what it returned. `call` is for the
calls of netchan whose result is not needed. -/
inductive Act
  | sendNext (env : Netchan.Env) (out : Option (List UInt8 × Addr))
  | sealed (plain : List UInt8) (out : Option (List UInt8))
  | sendto (pkt : List UInt8) (dest : SockAddr)
  | opened (answer : Option Key → Bool) (pkt : List UInt8) (out : Option (List UInt8))
  | feed (env : Netchan.Env) (plain : List UInt8) (source : Addr)
  | call (k : Netchan.Call)
  | chanOpen (out : Option ChanId)
  | write (id : ChanId) (msg : List UInt8) (out : Except Err Nat)
  | read (id : ChanId) (out : Except Err (List UInt8))
  | start (a : Auth.NcAuth)
  | server (c : Auth.ServerCall)
  | client (c : Auth.ClientCall)
  | up
  | data (msg : List UInt8)
  | down (why : Reason)
  | need (what : Auth.Need)

/-- `struct auth_link`. -/
structure AuthLink where
  conn : Conn
  tx : Option ChanId := none
  rx : Option ChanId := none
  server : Bool
  havePeer : Bool := false
  connectSent : Bool := false
  accepted : Bool := false
  authStarted : Bool := false
  needFired : Auth.Need := .nothing
  up : Bool := false
  down : Bool := false
  closing : Bool := false
  timerId : Int := -1
  peer : Addr := []
  crypto : Session
  auth : Auth.NcAuth := {}
  cb : Callbacks
  scb : Auth.Callbacks
  user : CStr := ⟨[], zero_notMem_nil⟩
  turn : Nat := 0
  log : List Act := []

/-- `"auth"`. -/
def authName : List UInt8 := Auth.chars ['a', 'u', 't', 'h']

section
variable (P : Monocypher)

/-- The link makes a call. -/
def AuthLink.does (l : AuthLink) (act : Act) : AuthLink :=
  let l := { l with log := l.log ++ [act] }
  match act with
  | .sendNext env _ => { l with conn := (netchanSendNext env l.conn bufSize).1 }
  | .sealed plain _ => { l with crypto := (ncCryptoSeal P l.crypto plain sealedSize).2 }
  | .sendto _ _ => l
  | .opened answer pkt _ => { l with crypto := (ncCryptoOpen P answer l.crypto pkt bufSize).2.1 }
  | .feed env plain source => { l with conn := (netchanFeed env l.conn plain (some source)).2 }
  | .call k => { l with conn := k.apply l.conn }
  | .chanOpen out =>
    { l with conn := (Call.chanOpen .reliable .send authName).apply l.conn, tx := out }
  | .write id msg _ => { l with conn := (Call.write id msg).apply l.conn }
  | .read id _ => { l with conn := (Call.read id bufSize).apply l.conn }
  | .start a => { l with auth := a, authStarted := true }
  | .server c => { l with auth := c.apply P l.auth }
  | .client c => { l with auth := c.apply P l.auth }
  | .up => { l with up := true, user := l.auth.user }
  | .data _ => l
  | .down _ => { l with down := true }
  | .need _ => l

/-- One more use of the surroundings. -/
def AuthLink.next (l : AuthLink) : AuthLink := { l with turn := l.turn + 1 }

variable (io : Nat → Moment) (limit : Nat)

/-! ## Sending -/

/-- `send_hello`. -/
def sendHello (l : AuthLink) : AuthLink :=
  if !l.havePeer then l
  else
    match ncCryptoHandshakePacket l.crypto ncCryptoHelloLen, ncUdpToSockaddr l.peer with
    | some hp, some ss => l.does P (.sendto hp ss)
    | _, _ => l

/-- The body of the loop of `flush_out`. -/
def sealOut (l : AuthLink) (buf : List UInt8) (dest : Addr) : AuthLink :=
  let sealed := (ncCryptoSeal P l.crypto buf sealedSize).1
  let l := l.does P (.sealed buf sealed)
  match sealed, ncUdpToSockaddr dest with
  | some pkt, some ss => l.does P (.sendto pkt ss)
  | _, _ => l

/-- The loop of `flush_out`. -/
def flushLoop : Nat → AuthLink → AuthLink
  | 0, l => l
  | n + 1, l =>
    let env := (io l.turn).env
    let out := (netchanSendNext env l.conn bufSize).2
    let l := l.next.does P (.sendNext env out)
    match out with
    | none => l
    | some (buf, dest) => flushLoop n (sealOut P l buf dest)

/-- `flush_out`. -/
def flushOut (l : AuthLink) : AuthLink := flushLoop P io limit l

/-- `netchan_service (al->conn, now_ms ())`. -/
def service (l : AuthLink) : AuthLink :=
  l.next.does P (.call (.service (io l.turn).env (io l.turn).now))

/-- The loop of `chan_send`: `spins` more attempts. -/
def spin (tx : ChanId) (msg : List UInt8) : Nat → AuthLink → Bool × AuthLink
  | 0, l => (false, l)
  | spins + 1, l =>
    let w := (netchanChanWrite l.conn tx msg).1
    let l := l.does P (.write tx msg w)
    match w with
    | .ok n => if n = msg.length then (true, flushOut P io limit l) else (false, l)
    | .error e =>
      if e ≠ .flow ∧ e ≠ .again then (false, l)
      else spin tx msg spins (flushOut P io limit (service P io l))

/-- `chan_send`: whether it returns `AUTH_LINK_OK`. -/
def chanSend (l : AuthLink) (tag : UInt8) (data : List UInt8) : Bool × AuthLink :=
  match l.tx with
  | none => (false, l)
  | some tx =>
    if data.length + 1 > bufSize then (false, l) else spin P io limit tx (tag :: data) 64 l

/-- `auth_out`, for the messages that a call of nc_auth emitted. -/
def authOut (l : AuthLink) : List Auth.Act → AuthLink
  | [] => l
  | .emit msg :: acts => authOut (chanSend P io limit l tagAuth msg).2 acts
  | _ :: acts => authOut l acts

/-- A call of nc_auth on the server. -/
def serverDoes (l : AuthLink) (c : Auth.ServerCall) : AuthLink :=
  authOut P io limit (l.does P (.server c)) (c.acts P l.auth)

/-- A call of nc_auth on the client. -/
def clientDoes (l : AuthLink) (c : Auth.ClientCall) : AuthLink :=
  authOut P io limit (l.does P (.client c)) (c.acts P l.auth)

/-! ## Reporting -/

variable (exec : Cmd → AuthLink → AuthLink)

/-- A callback runs, if it is set. -/
def react (isSet : Bool) (l : AuthLink) : AuthLink :=
  if isSet then (io l.turn).script.foldl (fun l k => exec k l) l.next else l

/-- `fire_down`. -/
def fireDown (l : AuthLink) (why : Reason) : AuthLink :=
  if l.down then l else react io exec l.cb.onDown (l.does P (.down why))

/-- `settle_need`. -/
def settleNeed (l : AuthLink) : AuthLink :=
  if !l.authStarted || l.server || l.up || l.down then l
  else
    let need := l.auth.need
    if need = l.needFired then l
    else
      let l := { l with needFired := need }
      if need ≠ .nothing ∧ l.cb.onNeed then react io exec true (l.does P (.need need)) else l

/-- `settle_auth`. -/
def settleAuth (l : AuthLink) : AuthLink :=
  if !l.authStarted || l.up || l.down then l
  else
    let l := settleNeed P io exec l
    match l.auth.state with
    | .ok => react io exec l.cb.onUp (l.does P .up)
    | .denied => fireDown P io exec l .auth
    | .pending => l

/-! ## Advancing -/

/-- The `netchan_connect` of `advance`. -/
def connectOut (l : AuthLink) : AuthLink :=
  if !l.server ∧ !l.connectSent ∧ l.crypto.haveKey then
    let env := (io l.turn).env
    let r := (netchanConnect env l.conn l.peer).1
    let l := l.next.does P (.call (.connect env l.peer))
    match r with
    | .ok _ => { l with connectSent := true }
    | .error _ => l
  else l

/-- The `netchan_chan_open` of `advance`. -/
def openTx (l : AuthLink) : AuthLink :=
  if l.tx.isNone ∧ l.conn.state = .connected then
    l.does P (.chanOpen (netchanChanOpen l.conn .reliable .send authName).1)
  else l

/-- The conversation that `advance` starts. -/
def conversation (l : AuthLink) : Auth.NcAuth :=
  if l.server then Auth.fresh l.crypto.sid { l.scb with send := true } (some Auth.ncFormMaxMsg)
  else Auth.newClient l.crypto.sid l.user true (some Auth.ncFormMaxMsg)

/-- `advance` starts the login. -/
def startLogin (l : AuthLink) : AuthLink :=
  if l.tx.isSome ∧ !l.authStarted ∧ l.crypto.haveKey then
    let l := l.does P (.start (conversation l))
    if !l.server then authOut P io limit l (Auth.ncAuthStart l.auth) else l
  else l

/-- `advance`. -/
def advance (l : AuthLink) : AuthLink :=
  if l.crypto.failed then fireDown P io exec l .hostkey
  else settleAuth P io exec (startLogin P io limit (openTx P (connectOut P io l)))

/-! ## Receiving -/

/-- `nc_auth_feed`. -/
def feedLogin (l : AuthLink) (msg : List UInt8) : AuthLink :=
  if l.server then serverDoes P io limit l.next (.feed (io l.turn).auth msg)
  else clientDoes P io limit l (.feed msg)

/-- `deliver`. -/
def deliver (l : AuthLink) (msg : List UInt8) : AuthLink :=
  match msg with
  | [] => l
  | tag :: body =>
    if tag = tagAuth then
      settleAuth P io exec (if l.authStarted then feedLogin P io limit l body else l)
    else if tag = tagApp ∧ l.up ∧ l.cb.onData then react io exec true (l.does P (.data body))
    else l

/-- The body of the loop over `netchan_poll`. -/
def onEvent (l : AuthLink) : Event → AuthLink
  | .chanOpen ch | .data ch => { l with rx := some ch }
  | .disconnected => fireDown P io exec l .peer
  | _ => l

/-- The loop over `netchan_poll`. -/
def pollLoop : Nat → AuthLink → AuthLink
  | 0, l => l
  | n + 1, l =>
    let ev := (netchanPoll l.conn).1
    let l := l.does P (.call .poll)
    match ev with
    | none => l
    | some ev => pollLoop n (onEvent P io exec l ev)

/-- The loop over `netchan_chan_read`. -/
def readLoop (rx : ChanId) : Nat → AuthLink → AuthLink
  | 0, l => l
  | n + 1, l =>
    let rd := (netchanChanRead l.conn rx bufSize).1
    let l := l.does P (.read rx rd)
    match rd with
    | .ok (b :: msg) => readLoop rx n (deliver P io limit exec l (b :: msg))
    | _ => l

/-- `pump_events`. -/
def pumpEvents (l : AuthLink) : AuthLink :=
  let l := pollLoop P io exec limit l
  match l.rx with
  | some rx => readLoop P io limit exec rx limit l
  | none => l

/-- A datagram in the socket. -/
structure Datagram where
  bytes : List UInt8
  source : SockAddr

/-- The server pins its peer. -/
def pin (l : AuthLink) (source : Addr) : AuthLink :=
  if l.server && !l.havePeer then { l with peer := source, havePeer := true } else l

/-- `on_readable` gives netchan a plaintext. -/
def feedConn (l : AuthLink) (plain : List UInt8) (source : Addr) : AuthLink :=
  let l := l.next.does P (.feed (io l.turn).env plain source)
  if l.server && !l.accepted then { l.does P (.call .accept) with accepted := true } else l

/-- The body of the loop of `on_readable`, for a datagram in the socket; `recvfrom` cuts it to the
buffer. The flag tells whether the loop goes on. -/
def recvOne (d : Datagram) (l : AuthLink) : Bool × AuthLink :=
  let buf := d.bytes.take bufSize
  if buf.length = 0 then (false, l)
  else
    match ncUdpFromSockaddr d.source with
    | none => (true, l)
    | some source =>
      let l := pin l source
      let answer := (io l.turn).verifyPeer
      let pn := (ncCryptoOpen P answer l.crypto buf bufSize).1
      let l := l.next.does P (.opened answer buf pn)
      if l.crypto.failed then (false, l)
      else
        let l := if byte buf 0 = ncCryptoHello ∧ l.server then sendHello P l else l
        match pn with
        | some (b :: plain) => (true, feedConn P io l (b :: plain) source)
        | _ => (true, l)

/-- The loop of `on_readable`, over the datagrams in the socket. -/
def recvLoop : List Datagram → AuthLink → AuthLink
  | [], l => l
  | d :: ds, l =>
    let (more, l) := recvOne P io d l
    if more then recvLoop ds l else l

/-- `on_readable`. -/
def onReadable (ds : List Datagram) (l : AuthLink) : AuthLink :=
  flushOut P io limit
    (advance P io limit exec (pumpEvents P io limit exec (recvLoop P io ds l)))

/-- `on_tick`. -/
def onTick (l : AuthLink) : AuthLink :=
  let l := if !l.server ∧ !l.crypto.haveKey then sendHello P l else l
  let l := flushOut P io limit
    (advance P io limit exec (pumpEvents P io limit exec (service P io l)))
  if !l.closing then { l.next with timerId := (io l.turn).timerId } else { l with timerId := -1 }

/-! ## The application's calls -/

/-- What the calls `auth_link_supply_*`, `auth_link_submit` and `auth_link_cancel` have in common. -/
def answerNeed (l : AuthLink) (c : Auth.ClientCall) : AuthLink :=
  if !l.authStarted || l.server then l
  else
    flushOut P io limit
      (settleAuth P io exec { clientDoes P io limit l c with needFired := .nothing })

/-- `auth_link_send`. -/
def authLinkSend (l : AuthLink) (data : List UInt8) : Bool × AuthLink :=
  if !l.up then (false, l) else chanSend P io limit l tagApp data

/-- A call of the application. -/
def command (l : AuthLink) : Cmd → AuthLink
  | .send data => (authLinkSend P io limit l data).2
  | .supplyKey keys => answerNeed P io limit exec l (.supplyKey keys)
  | .supplyPassword password => answerNeed P io limit exec l (.supplyPassword password)
  | .supplyMethod method => answerNeed P io limit exec l (.supplyMethod method)
  | .submit vals => answerNeed P io limit exec l (.submit vals)
  | .cancel => answerNeed P io limit exec l .cancel

/-- `auth_link_close`, up to `netchan_close` and the wiping of the conversation. -/
def authLinkClose (l : AuthLink) : AuthLink :=
  let l := { l with closing := true }
  let l := if l.crypto.haveKey then flushOut P io limit (l.does P (.call .disconnect)) else l
  if l.authStarted ∧ l.server then l.does P (.server .clear) else l

/-- A callback's calls run `depth` deep at most. -/
def nested : Nat → Cmd → AuthLink → AuthLink
  | 0, _, l => l
  | depth + 1, k, l => command P io limit (nested depth) l k

end

/-! ## Runs -/

/-- `struct auth_link_cfg`, with the socket's callbacks. -/
structure Cfg where
  server : Bool
  peer : Option Addr := none
  staticSk : Option Key := none
  psk : Option Key := none
  requirePeerStatic : Bool := false
  verifyPeer : Bool := false
  user : CStr := ⟨[], zero_notMem_nil⟩
  scb : Auth.Callbacks := {}
  cb : Callbacks := {}

section
variable (P : Monocypher) (io : Nat → Moment) (limit depth : Nat)

/-- The link that `auth_link_open` fills in, before it kicks the handshakes; `random` is what the
OS gives to `nc_crypto_init`. -/
def AuthLink.init (cfg : Cfg) (random : Option Key) : Option AuthLink :=
  if !cfg.server ∧ cfg.peer.isNone then none
  else
    (ncCryptoInit P (if cfg.server then .responder else .initiator)
      { psk := cfg.psk, staticSk := cfg.staticSk, requirePeerStatic := cfg.requirePeerStatic
        verifyPeer := cfg.verifyPeer } random).map fun crypto =>
      { conn := netchanOpen cfg.server, server := cfg.server, havePeer := cfg.peer.isSome
        peer := cfg.peer.getD [], crypto, cb := cfg.cb, scb := cfg.scb
        user := Auth.CStr.take cfg.user Auth.ncAuthMaxUser }

/-- What happens to a link: its socket is readable, its timer fires, or the application calls. -/
inductive Event
  | readable (ds : List Datagram)
  | tick
  | cmd (k : Cmd)
  | close

/-- One event. A link that was closed is gone. -/
def AuthLink.step (l : AuthLink) (ev : Event) : AuthLink :=
  if l.closing then l
  else
    match ev with
    | .readable ds => onReadable P io limit (nested P io limit depth) ds l
    | .tick => onTick P io limit (nested P io limit depth) l
    | .cmd k => command P io limit (nested P io limit depth) l k
    | .close => authLinkClose P io limit l

/-- `auth_link_open`: it kicks the handshakes with the first tick. -/
def authLinkOpen (cfg : Cfg) (random : Option Key) : Option AuthLink :=
  (AuthLink.init P cfg random).map (onTick P io limit (nested P io limit depth))

end

end Netchan.Link
