import Netchan.Lib.Run
import Netchan.Micro.Core

/-!
# The calls of one microchan connection

`Step` is a call of the public API with what it takes from outside, arbitrary datagrams included;
`Step.exec` is what it returns and the connection it leaves.
-/

namespace Netchan.Micro

open Lib

inductive Step
  | connect (addr : Addr)
  | chanOpen (type : ChanType)
  | chanClose (i : ChanId)
  | write (i : ChanId) (data : List UInt8)
  | read (i : ChanId) (buflen : Nat)
  | poll
  | feed (pkt : List UInt8) (source : Option Addr)
  | sendNext (buflen : Nat)
  | service (nowMs : UInt32)

/-- What a call returns. -/
inductive Out
  | done
  | opened (i : Option ChanId)
  | wrote (n : Except Err Nat)
  | got (m : Except Err (List UInt8))
  | event (e : Option Event)
  | fed (r : Except Err Unit)
  | packet (p : Option (List UInt8 × Addr))
  | wait (ms : Int)

/-- A call: what it returns and the connection after it. -/
def Step.exec (c : Mc) : Step → Out × Mc
  | .connect addr => (.done, mcConnect c addr)
  | .chanOpen type => ((mcChanOpen c type).map .opened id)
  | .chanClose i => (.done, mcChanClose c i)
  | .write i data => (mcWrite mcWindow c i data).map .wrote id
  | .read i buflen => (mcRead c i buflen).map .got id
  | .poll => (mcPoll c).map .event id
  | .feed pkt source => (mcFeed c pkt source).map .fed id
  | .sendNext buflen => (.packet (mcSendNext mcWindow c buflen).2, (mcSendNext mcWindow c buflen).1)
  | .service nowMs => (mcService c nowMs).map .wait id

/-- The connection after a call. -/
def Step.apply (c : Mc) (st : Step) : Mc := (st.exec c).2

end Netchan.Micro
