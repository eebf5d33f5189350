import Netchan.Core.World
import Netchan.Micro.Core

/-!
# Two microchan endpoints and the network

A client and a server with the same channel layout, opened before anything else happens, the
datagrams on their way to either, and a log of the reliable messages that were accepted and of the
messages that were pushed. Datagrams are dropped, duplicated and delivered in any order; each
carries the log of the moment it was sent as its `stamp`. No call depends on the log.
-/

namespace Netchan.Micro

open Lib

/-- What an observer has seen so far. -/
structure Log where
  /-- The messages `mc_write` accepted on reliable channels, in order over all channels. -/
  written : Side → List (ChanId × List UInt8) := fun _ => []
  /-- The messages pushed into a channel's `rxq`. -/
  pushed : Side → ChanId → List (List UInt8) := fun _ _ => []
  /-- The number of reliable messages `rx_next` has moved past. -/
  passed : Side → Nat := fun _ => 0

/-- The messages of one channel. -/
def messages (ms : List (ChanId × List UInt8)) (i : ChanId) : List (List UInt8) :=
  (ms.filter fun m => m.1 = i).map Prod.snd

inductive Call
  | connect (addr : Addr)
  | service (nowMs : UInt32)
  | write (i : ChanId) (data : List UInt8)
  | read (i : ChanId) (buflen : Nat)
  | poll

/-- The connection after a call. -/
def Call.apply (c : Mc) : Call → Mc
  | .connect addr => mcConnect c addr
  | .service nowMs => (mcService c nowMs).2
  | .write i data => (mcWrite mcWindow c i data).2
  | .read i buflen => (mcRead c i buflen).2
  | .poll => (mcPoll c).2

/-- `mc_write` takes the message. -/
def writeAccepted (c : Mc) (i : ChanId) (data : List UInt8) : Bool :=
  match (mcWrite mcWindow c i data).1 with
  | .ok _ => true
  | .error _ => false

namespace Log

/-- The log after end `s`, in state `c`, made a call. -/
def called (l : Log) (s : Side) (c : Mc) : Call → Log
  | .write i data =>
    if writeAccepted c i data ∧ (c.chan i).type = .reliable then
      { l with written := Function.update l.written s (l.written s ++ [(i, data)]) }
    else l
  | _ => l

/-- The log after a datagram took end `s` from `c` to `c'`. -/
def fed (l : Log) (s : Side) (c c' : Mc) : Log :=
  { l with
    pushed := Function.update l.pushed s fun i =>
      l.pushed s i ++ (c'.chan i).rxq.drop (c.chan i).rxq.length
    passed := Function.update l.passed s (l.passed s + (c'.rxNext - c.rxNext).toNat) }

end Log

/-- A datagram, and the log when it was sent. -/
structure Packet where
  bytes : List UInt8
  stamp : Log

structure World where
  conn : Side → Mc
  log : Log
  net : Side → List Packet

/-- The connection with the channels of a layout opened in order. -/
def openAll (c : Mc) (layout : List ChanType) : Mc :=
  layout.foldl (fun c type => (mcChanOpen c type).2) c

/-- Two fresh connections with one layout; `rand` gives the word each makes its id from. -/
def World.init (layout : List ChanType) (rand : Side → UInt32) : World :=
  { conn := fun s => openAll (mcOpen s.isServer (rand s)) layout, log := {}, net := fun _ => [] }

inductive Op
  | call (s : Side) (k : Call)
  | send (s : Side) (buflen : Nat)
  | deliver (s : Side) (i : Nat) (source : Option Addr)
  | dup (s : Side) (i : Nat)
  | drop (s : Side) (i : Nat)

/-- A datagram reaches end `s`. -/
def World.receive (w : World) (s : Side) (pkt : Packet) (source : Option Addr) : World :=
  let c' := (mcFeed (w.conn s) pkt.bytes source).2
  { w with conn := Function.update w.conn s c', log := w.log.fed s (w.conn s) c' }

/-- End `s` has a datagram to send, or not. -/
def World.transmit (w : World) (s : Side) (buflen : Nat) : World :=
  match mcSendNext mcWindow (w.conn s) buflen with
  | (c, none) => { w with conn := Function.update w.conn s c }
  | (c, some (bytes, _)) =>
    { w with conn := Function.update w.conn s c
             net := Function.update w.net s.other (w.net s.other ++ [⟨bytes, w.log⟩]) }

def World.step (w : World) : Op → World
  | .call s k =>
    { w with conn := Function.update w.conn s (k.apply (w.conn s))
             log := w.log.called s (w.conn s) k }
  | .send s buflen => w.transmit s buflen
  | .deliver s i source =>
    match (w.net s)[i]? with
    | none => w
    | some pkt =>
      { w with net := Function.update w.net s ((w.net s).eraseIdx i) }.receive s pkt source
  | .dup s i =>
    match (w.net s)[i]? with
    | none => w
    | some pkt => { w with net := Function.update w.net s (w.net s ++ [pkt]) }
  | .drop s i => { w with net := Function.update w.net s ((w.net s).eraseIdx i) }

/-- The world after a run. -/
def World.run (layout : List ChanType) (rand : Side → UInt32) (ops : List Op) : World :=
  Lib.run World.step (.init layout rand) ops

/-- No datagram arrives after more than `2 ^ 14` newer reliable messages were written at an end. -/
def Fresh (w : World) : Op → Prop
  | .deliver s i _ => ∀ pkt ∈ (w.net s)[i]?, ∀ t : Side,
      (w.log.written t).length ≤ (pkt.stamp.written t).length + 2 ^ 14
  | _ => True

instance (w : World) : ∀ op : Op, Decidable (Fresh w op)
  | .deliver s i _ =>
    have (pkt : Packet) : Decidable (∀ t : Side,
        (w.log.written t).length ≤ (pkt.stamp.written t).length + 2 ^ 14) :=
      decidable_of_iff (_ ∧ _) ⟨fun h t => t.casesOn h.1 h.2, fun h => ⟨h .client, h .server⟩⟩
    inferInstanceAs (Decidable (∀ pkt ∈ (w.net s)[i]?, ∀ t : Side,
      (w.log.written t).length ≤ (pkt.stamp.written t).length + 2 ^ 14))
  | .call .. | .send .. | .dup .. | .drop .. => inferInstanceAs (Decidable True)

end Netchan.Micro
