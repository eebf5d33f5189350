import Netchan.Core.Wire

/-!
# The steps of one connection

`Call` is a call of the public API that exchanges no datagram, with everything it takes from
outside. `Step` is one thing that can happen to a connection object: such a call, a
`netchan_send_next` or, inside `netchan_feed`, the header of an accepted datagram or one frame of
it. `netchanFeed_run` splits a `netchan_feed` into such steps, so what holds along every run of
steps with arbitrary frames holds along every run of calls with arbitrary datagrams.
-/

namespace Netchan

open Lib

inductive Call
  | connect (env : Env) (addr : Addr)
  | accept
  | disconnect
  | service (env : Env) (now : UInt32)
  | chanOpen (type : ChanType) (dir : Dir) (contentType : List UInt8)
  | chanClose (id : ChanId)
  | write (id : ChanId) (data : List UInt8)
  | read (id : ChanId) (buflen : Nat)
  | poll

/-- The connection after a call. -/
def Call.apply (c : Conn) : Call → Conn
  | .connect env addr => (netchanConnect env c addr).2
  | .accept => (netchanAccept c).2
  | .disconnect => netchanDisconnect c
  | .service env now => (netchanService env c now).2
  | .chanOpen type dir contentType => (netchanChanOpen c type dir contentType).2
  | .chanClose id => netchanChanClose c id
  | .write id data => (netchanChanWrite c id data).2
  | .read id buflen => (netchanChanRead c id buflen).2
  | .poll => (netchanPoll c).2

inductive Step
  | config (cfg : Cfg)
  | call (k : Call)
  | sendNext (env : Env) (buflen : Nat)
  | header (env : Env) (pkt : List UInt8) (source : Option Addr)
  | frame (env : Env) (f : Frame)

/-- The connection after a step. -/
def Step.apply (c : Conn) : Step → Conn
  | .config cfg => netchanConfig c cfg
  | .call k => k.apply c
  | .sendNext env buflen => (netchanSendNext env c buflen).1
  | .header env pkt source => fedConn env c pkt source
  | .frame env f => stepFrame env c f

/-- The connection after a run of steps from `netchan_open`. -/
def runConn (server : Bool) (steps : List Step) : Conn :=
  run Step.apply (netchanOpen server) steps

/-- The steps of a `netchan_feed`. -/
def feedSteps (env : Env) (c : Conn) (pkt : List UInt8) (source : Option Addr) : List Step :=
  if headerOk c pkt then
    let data := pkt.drop (hdrSize (byte pkt 0))
    .header env pkt source ::
      (parsed env data.length (fedConn env c pkt source) data).map (Step.frame env)
  else []

theorem run_frames (env : Env) (c : Conn) (fs : List Frame) :
    run Step.apply c (fs.map (Step.frame env)) = run (stepFrame env) c fs :=
  List.foldl_map

/-- **A `netchan_feed` is a run of steps**: its header and the frames it decodes. -/
theorem netchanFeed_run (env : Env) (c : Conn) (pkt : List UInt8) (source : Option Addr) :
    (netchanFeed env c pkt source).2 = run Step.apply c (feedSteps env c pkt source) := by
  unfold netchanFeed feedSteps
  split
  · rw [run_cons, run_frames]
    exact parseFrames_run env _ _
  · rfl

end Netchan
