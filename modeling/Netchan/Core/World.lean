import Netchan.Core.Sending

/-!
# Two endpoints and the network

A `World` is a client, a server, the datagrams on their way to either and a `Log` of what an
observer has seen. `Op` is one thing that happens in it: a call at one end, a datagram leaving one
(`send`), a datagram reaching one (`deliver`), or the network duplicating or losing one. Datagrams
are delivered from any place of the queue, so they are reordered at will.

The log is history only, no call depends on it. Every datagram carries the log of the moment it
was sent as its `stamp`, which dates it and, with the frames before it in the datagram, each of
its frames.
-/

namespace Netchan

open Lib

inductive Side
  | client
  | server
  deriving DecidableEq, Repr

namespace Side

def other : Side → Side
  | client => server
  | server => client

def isServer : Side → Bool
  | client => false
  | server => true

@[simp] theorem other_other (s : Side) : s.other.other = s := by cases s <;> rfl

theorem other_ne (s : Side) : s.other ≠ s := by cases s <;> simp [other]

theorem eq_or_eq_other (s t : Side) : t = s ∨ t = s.other := by cases s <;> cases t <;> simp [other]

instance decidableForall {p : Side → Prop} [DecidablePred p] : Decidable (∀ s, p s) :=
  decidable_of_iff (p client ∧ p server)
    ⟨fun h s => by cases s; exacts [h.1, h.2], fun h => ⟨h client, h server⟩⟩

end Side

/-- What an observer has seen so far, by end and channel. -/
structure Log where
  /-- The messages `netchan_chan_write` accepted. -/
  written : Side → ChanId → List (List UInt8) := fun _ _ => []
  /-- The messages that entered `recv_queue`. -/
  placed : Side → ChanId → List (List UInt8) := fun _ _ => []
  /-- The number of messages `recv_seq` has moved past. -/
  passed : Side → ChanId → Nat := fun _ _ => 0
  /-- The bytes `netchan_chan_read` returned. -/
  readBytes : Side → ChanId → Nat := fun _ _ => 0
  /-- The windows of the WINDOW_UPDATEs sent. -/
  grants : Side → ChanId → List UInt32 := fun _ _ => []
  /-- Which of the peer's WINDOW_UPDATEs the sender processed last (0 for none). -/
  heard : Side → ChanId → Nat := fun _ _ => 0
  /-- The transmissions of the message in an outgoing slot, up to its last fragment. -/
  transmissions : Side → ChanId → Fin ncOutgoingSlots → Nat := fun _ _ _ => 0
  /-- A message was transmitted `NC_MAX_RT_ATTEMPTS` times while it was not acknowledged. -/
  exhausted : Side → ChanId → Bool := fun _ _ => false
  /-- An application called `netchan_chan_close` on the channel. -/
  appClosed : ChanId → Bool := fun _ => false
  /-- The channels the application opened. -/
  opened : Side → List ChanId := fun _ => []
  /-- The first connection id an end has chosen. -/
  chosen : Side → Option UInt32 := fun _ => none
  /-- The application ended the session. -/
  left : Side → Bool := fun _ => false

/-- Change one end's entry for a channel. -/
def onChan {α : Type} (f : Side → ChanId → α) (s : Side) (id : ChanId) (x : α) :
    Side → ChanId → α :=
  fun t j => if t = s ∧ j = id then x else f t j

section
variable {α : Type} (f : Side → ChanId → α) (s : Side) (id : ChanId) (x : α)

@[simp] theorem onChan_same : onChan f s id x s id = x := if_pos ⟨rfl, rfl⟩

theorem onChan_of_side {t : Side} (h : t ≠ s) (j : ChanId) : onChan f s id x t j = f t j :=
  if_neg fun h' => h h'.1

theorem onChan_of_id (t : Side) {j : ChanId} (h : j ≠ id) : onChan f s id x t j = f t j :=
  if_neg fun h' => h h'.2

end

/-- The messages in a channel's receive queue. -/
def queued (c : Conn) (id : ChanId) : List (List UInt8) :=
  match c.channels id with
  | none => []
  | some ch => ch.rcv.recvQueue.toList.map fun e => c.pool.read e.buf 0 e.len

/-- The number of bytes a `netchan_chan_read` returns. -/
def readLen (c : Conn) (id : ChanId) (buflen : Nat) : Nat :=
  match (netchanChanRead c id buflen).1 with
  | .ok d => d.length
  | .error _ => 0

/-- The outgoing slot a channel writes next. -/
def outTailOf (c : Conn) (id : ChanId) : Option (Fin ncOutgoingSlots) :=
  (c.channels id).map fun ch => ch.snd.outTail

/-- The sequence number a channel expects. -/
def recvSeqOf (c : Conn) (id : ChanId) : UInt16 :=
  match c.channels id with
  | none => 0
  | some ch => ch.rcv.recvSeq

/-- The end sends on the channel. -/
def sendsOn (c : Conn) (id : ChanId) : Bool := (c.channels id).any fun ch => ch.role = .sender

namespace Log

/-- The log after end `s`, in state `c`, made a call. -/
def called (l : Log) (s : Side) (c : Conn) : Call → Log
  | .connect env addr =>
    match (netchanConnect env c addr).1 with
    | .ok _ => { l with chosen := Function.update l.chosen s (l.chosen s <|> some (ncRandomId env)) }
    | .error _ => l
  | .disconnect =>
    if c.state = .connected then { l with left := Function.update l.left s true } else l
  | .write id data =>
    if writeAccepted c id data then
      { l with written := onChan l.written s id (l.written s id ++ [data])
               transmissions := onChan l.transmissions s id fun k =>
                 if outTailOf c id = some k then 0 else l.transmissions s id k }
    else l
  | .read id buflen =>
    { l with readBytes := onChan l.readBytes s id (l.readBytes s id + readLen c id buflen) }
  | .chanOpen type dir contentType =>
    match (netchanChanOpen c type dir contentType).1 with
    | some id => { l with opened := Function.update l.opened s (l.opened s ++ [id]) }
    | none => l
  | .chanClose id =>
    if (c.channels id).isSome then { l with appClosed := fun j => l.appClosed j || j == id } else l
  | _ => l

/-- The log after end `s` sent a frame. -/
def frameSent (l : Log) (s : Side) : Frame → Log
  | .windowUpdate id w => { l with grants := onChan l.grants s id (l.grants s id ++ [w]) }
  | _ => l

/-- The log after end `s` went from `c` to `c'` on a frame that its peer sent when the log was
`stamp`. -/
def frameHeard (l : Log) (s : Side) (stamp : Log) (c c' : Conn) : Frame → Log
  | .connectInit _ =>
    if c.server ∧ c.state = .new then
      { l with chosen := Function.update l.chosen s (l.chosen s <|> some c'.localId) }
    else l
  | .windowUpdate id _ =>
    if sendsOn c id then { l with heard := onChan l.heard s id (stamp.grants s.other id).length }
    else l
  | .data id _ _ _ _ =>
    { l with
      placed := onChan l.placed s id
        (l.placed s id ++ (queued c' id).drop (queued c id).length)
      passed := onChan l.passed s id
        (l.passed s id + (recvSeqOf c' id - recvSeqOf c id).toNat) }
  | _ => l

end Log

/-- A slot's message went out to its last fragment. -/
def wentOut (o o' : Outgoing) : Bool := o.fragSent < o'.fragSent && o'.fragSent == o'.fragTotal

/-- The outgoing slots of a channel. -/
def slotsOf (c : Conn) (id : ChanId) : Fin ncOutgoingSlots → Outgoing :=
  match c.channels id with
  | none => fun _ => {}
  | some ch => ch.snd.outgoing

/-- The log after end `s` went from `c` to `c'` in a `netchan_send_next`. -/
def Log.transmitted (l : Log) (s : Side) (c c' : Conn) : Log :=
  let tx : ChanId → Fin ncOutgoingSlots → Nat := fun id k =>
    if wentOut (slotsOf c id k) (slotsOf c' id k) then l.transmissions s id k + 1
    else l.transmissions s id k
  { l with
    transmissions := fun t id => if t = s then tx id else l.transmissions t id
    exhausted := fun t id => l.exhausted t id ||
      (t == s && (List.finRange ncOutgoingSlots).any fun k => ncMaxRtAttempts ≤ tx id k) }

/-- The frames of a packet's body. -/
def framesOf : Nat → List UInt8 → List Frame
  | 0, _ => []
  | _ + 1, [] => []
  | fuel + 1, b :: p =>
    if b = 0 then framesOf fuel p
    else match decodeFrame (b :: p) with
      | none => []
      | some (f, n) => f :: framesOf fuel ((b :: p).drop n)

/-- The frames of a datagram. -/
def packetFrames (pkt : List UInt8) : List Frame :=
  let body := pkt.drop (hdrSize (byte pkt 0))
  framesOf body.length body

/-- A datagram, and the log when `netchan_send_next` began to fill it. -/
structure Packet where
  bytes : List UInt8
  stamp : Log

/-- The two ends and the log. -/
structure Ends where
  conn : Side → Conn
  log : Log

structure World extends Ends where
  net : Side → List Packet

/-- Two connections fresh from `netchan_open` and `netchan_config`, and an empty network. -/
def World.init (cfg : Side → Cfg) : World :=
  { conn := fun s => netchanConfig (netchanOpen s.isServer) (cfg s), net := fun _ => [], log := {} }

inductive Op
  | call (s : Side) (k : Call)
  | send (s : Side) (env : Env) (buflen : Nat)
  | deliver (s : Side) (i : Nat) (env : Env) (source : Option Addr)
  | dup (s : Side) (i : Nat)
  | drop (s : Side) (i : Nat)

namespace Ends

/-- End `s` makes a call. -/
def called (x : Ends) (s : Side) (k : Call) : Ends :=
  ⟨Function.update x.conn s (k.apply (x.conn s)), x.log.called s (x.conn s) k⟩

/-- End `s` processes a frame that its peer sent when the log was `stamp`. -/
def heard (x : Ends) (s : Side) (env : Env) (stamp : Log) (f : Frame) : Ends :=
  ⟨Function.update x.conn s (stepFrame env (x.conn s) f),
    x.log.frameHeard s stamp (x.conn s) (stepFrame env (x.conn s) f) f⟩

/-- End `s` has sent the frame `f` and is in state `c`. -/
def sent (x : Ends) (s : Side) (c : Conn) (f : Frame) : Ends :=
  ⟨Function.update x.conn s c, x.log.frameSent s f⟩

end Ends

/-- A frame of a datagram reaches end `s`; the stamp goes along with the frames. -/
def hearFrame (s : Side) (env : Env) (x : Ends × Log) (f : Frame) : Ends × Log :=
  let stamp := x.2.frameSent s.other f
  (x.1.heard s env stamp f, stamp)

/-- The frames of a datagram that end `s` processes, and the ends once its header was read. -/
def framesFed (x : Ends) (s : Side) (pkt : Packet) (env : Env) (source : Option Addr) :
    Ends × List Frame :=
  let body := pkt.bytes.drop (hdrSize (byte pkt.bytes 0))
  let c := fedConn env (x.conn s) pkt.bytes source
  (⟨Function.update x.conn s c, x.log⟩, parsed env body.length c body)

/-- A datagram reaches end `s`. -/
def World.receive (w : World) (s : Side) (pkt : Packet) (env : Env) (source : Option Addr) :
    World :=
  { w with
    conn := Function.update w.conn s (netchanFeed env (w.conn s) pkt.bytes source).2
    log :=
      if headerOk (w.conn s) pkt.bytes then
        let (x, fs) := framesFed w.toEnds s pkt env source
        (run (hearFrame s env) (x, pkt.stamp) fs).1.log
      else w.log }

/-- End `s` has a datagram to send, or not. -/
def World.transmit (w : World) (s : Side) (env : Env) (buflen : Nat) : World :=
  match netchanSendNext env (w.conn s) buflen with
  | (c, none) => { w with conn := Function.update w.conn s c }
  | (c, some (bytes, _)) =>
    { conn := Function.update w.conn s c
      net := Function.update w.net s.other (w.net s.other ++ [⟨bytes, w.log⟩])
      log := ((packetFrames bytes).foldl (fun l f => l.frameSent s f) w.log).transmitted s
        (w.conn s) c }

def World.step (w : World) : Op → World
  | .call s k => { w with toEnds := w.toEnds.called s k }
  | .send s env buflen => w.transmit s env buflen
  | .deliver s i env source =>
    match (w.net s)[i]? with
    | none => w
    | some pkt =>
      { w with net := Function.update w.net s ((w.net s).eraseIdx i) }.receive s pkt env source
  | .dup s i =>
    match (w.net s)[i]? with
    | none => w
    | some pkt => { w with net := Function.update w.net s (w.net s ++ [pkt]) }
  | .drop s i => { w with net := Function.update w.net s ((w.net s).eraseIdx i) }

/-- The world after a run. -/
def World.run (cfg : Side → Cfg) (ops : List Op) : World := Lib.run World.step (.init cfg) ops

/-- **What every step of a connection keeps, every step of the world keeps** at both ends. -/
theorem World.conn_step {I : Side → Conn → Prop}
    (hstep : ∀ s c st, (∀ cfg, st ≠ .config cfg) → I s c → I s (Step.apply c st)) {w : World}
    (h : ∀ s, I s (w.conn s)) (op : Op) (s : Side) : I s ((w.step op).conn s) := by
  have hupd : ∀ {c : Conn} (t : Side), I t c → I s (Function.update w.conn t c s) := by
    intro c t hc
    by_cases hs : s = t
    · subst hs
      rwa [Function.update_self]
    · rw [Function.update_of_ne hs]
      exact h s
  cases op with
  | call t k => exact hupd t (hstep t _ (.call k) (by simp) (h t))
  | send t env buflen =>
    have hsend := hstep t _ (.sendNext env buflen) (by simp) (h t)
    simp only [World.step, World.transmit]
    split <;> rename_i he <;> simp only [Step.apply, he] at hsend <;> exact hupd t hsend
  | deliver t i env source =>
    simp only [World.step]
    split
    · exact h s
    · rename_i pkt _
      refine hupd t ?_
      show I t (netchanFeed env (w.conn t) pkt.bytes source).2
      rw [netchanFeed_run]
      refine run_invariant (A := fun _ st => ∀ cfg, st ≠ .config cfg)
        (fun c st hc hst => hstep t c st hst hc) (h t) (along_of_forall fun st hst => ?_)
      simp only [feedSteps] at hst
      split at hst
      · rcases List.mem_cons.1 hst with rfl | hst
        · simp
        · obtain ⟨f, -, rfl⟩ := List.mem_map.1 hst
          simp
      · simp at hst
  | dup t i =>
    simp only [World.step]
    split <;> exact h s
  | drop t i => exact h s

/-- `netchan_send_next` sends its whole queue of control frames, or nothing: the room left after
the header holds the queue. -/
def Whole (c : Conn) (buflen : Nat) : Prop :=
  buflen < sendHdrSize c ∨ sendHdrSize c + c.ctrlBuf.length ≤ sendRoom c buflen

instance (c : Conn) (buflen : Nat) : Decidable (Whole c buflen) :=
  inferInstanceAs (Decidable (_ ∨ _))

/-- Control frames are sent whole. -/
def Op.SendsWhole (w : World) : Op → Prop
  | .send s _ buflen => Netchan.Whole (w.conn s) buflen
  | _ => True

instance (w : World) : ∀ op : Op, Decidable (op.SendsWhole w)
  | .send s _ buflen => inferInstanceAs (Decidable (Netchan.Whole (w.conn s) buflen))
  | .call .. | .deliver .. | .dup .. | .drop .. => inferInstanceAs (Decidable True)

/-- A session with one reliable channel from the client to the server, open at both ends. -/
def openOps : List Op :=
  [.call .client (.connect { now := 1, entropy := 7 } [1]), .send .client { now := 2 } 1200,
    .deliver .server 0 { now := 3, entropy := 9 } (some [2]), .call .server .accept,
    .send .server { now := 4 } 1200, .deliver .client 0 { now := 5 } (some [1]),
    .call .client (.chanOpen .reliable .send []), .send .client { now := 6 } 1200,
    .deliver .server 0 { now := 7 } (some [2]), .send .server { now := 8 } 1200,
    .deliver .client 0 { now := 9 } (some [1])]

/-- The same session with a channel of another type. -/
def openOpsOf (type : ChanType) : List Op :=
  openOps.take 6 ++ .call .client (.chanOpen type .send []) :: openOps.drop 7

/-- A client with an open channel that was granted a window. -/
def openSteps (window : UInt32) : List Step :=
  [.call (.connect { now := 1, entropy := 7 } [1]), .frame {} (.connectAccept 9 ncVersion 30000),
    .call (.chanOpen .reliable .send []), .frame {} (.windowUpdate 0 window)]

end Netchan
