import Netchan.Pair.Queue
import Netchan.Lib.LittleEndian

/-!
# The connection object in memory

`Conn` keeps the control queue apart from `pool_store`. In `struct netchan_conn` the event ring and
the control queue lie right behind it, so what a step writes past the store reaches them: a message
of several fragments that is longer than its buffer is compacted over them (`reassembly_escapes`).
Here the control queue is where the object has it.

* A `Layout` says where `ctrl_buf` and `ctrl_len` lie, counted from `pool_store`; `Layout.lp64` is
  that of x86-64.
* An object is a `Conn` whose `poolStore` goes on behind the store. Its field `ctrlBuf` is not looked
  at: `reserve` is `ctrl_reserve` on memory, `netchanSendNext` takes the queue from memory.
* `apply` is a step of an object; `none` is one that accesses memory outside of the object.

The event ring is that of `Conn`: what an overrun leaves in it is not followed.
-/

namespace Netchan

open Lib

/-- The offsets of `ctrl_buf` and `ctrl_len` from `pool_store`. -/
structure Layout where
  ctrlBuf : Nat
  ctrlLen : Nat
  store : poolBytes ≤ ctrlBuf
  buf : ctrlBuf + ncCtrlBufSize ≤ ctrlLen

/-- The end of the object: `ctrl_len` is its last field, a `size_t`. -/
def Layout.size (L : Layout) : Nat := L.ctrlLen + 8

/-- On x86-64: 4 bytes of padding, 16 events of 48 bytes, `ev_head` and `ev_tail` come first. -/
def Layout.lp64 : Layout where
  ctrlBuf := poolBytes + 780
  ctrlLen := poolBytes + 1804
  store := by decide
  buf := by decide

/-- The connection with other contents of its memory. -/
def Conn.patch (c : Conn) (m : Mem) : Conn := { c with pool := { c.pool with poolStore := m } }

@[simp] theorem Conn.patch_store (c : Conn) (m : Mem) : (c.patch m).pool.poolStore = m := rfl

namespace Object

/-- `c->ctrl_len`. -/
def ctrlLen (L : Layout) (m : Mem) : Nat := leVal (m.read L.ctrlLen 8)

/-- `c->ctrl_len = n`. -/
def setCtrlLen (L : Layout) (m : Mem) (n : Nat) : Mem := m.write L.ctrlLen (leBytes 8 n)

/-- `ctrl_reserve`, and the bytes the encoder writes there; where the sum wraps, they lie before
`ctrl_buf`. -/
def reserve (L : Layout) (m : Mem) (frame : List UInt8) : Option Mem :=
  let len := ctrlLen L m
  if (len + frame.length) % 2 ^ 64 > ncCtrlBufSize then some m
  else if len > ncCtrlBufSize then none
  else some ((setCtrlLen L m (len + frame.length)).write (L.ctrlBuf + len) frame)

/-- The encoders of several frames, one after the other. -/
def reserveFrames (L : Layout) : Mem → List Frame → Option Mem
  | m, [] => some m
  | m, f :: fs => (reserve L m f.encode).bind fun m => reserveFrames L m fs

/-- The memory once `n` bytes of the queue were copied into a packet. -/
def flush (L : Layout) (m : Mem) (n : Nat) : Mem :=
  let len := ctrlLen L m
  if n < len then
    let m := m.move L.ctrlBuf (L.ctrlBuf + n) (len - n)
    setCtrlLen L m (sizeSub (ctrlLen L m) n)
  else setCtrlLen L m 0

/-- The connection with the queue that is in memory. -/
def loaded (L : Layout) (o : Conn) : Conn :=
  { o with ctrlBuf := o.pool.poolStore.read L.ctrlBuf (ctrlLen L o.pool.poolStore) }

/-- What a packet of at most `buflen` bytes is made from: the queue as it was found, and the memory
once it was flushed. -/
def flushed (L : Layout) (o : Conn) (buflen : Nat) : Conn :=
  (loaded L o).patch (flush L o.pool.poolStore (ctrlSent (loaded L o) buflen))

def hasData (L : Layout) (o : Conn) : Bool :=
  0 < ctrlLen L o.pool.poolStore || Netchan.hasData { o with ctrlBuf := [] }

/-- `netchan_send_next`. It reads the queue to its end, to copy it into the packet and to move the
rest of it. -/
def netchanSendNext (L : Layout) (env : Env) (o : Conn) (buflen : Nat) :
    Option (Conn × Option (List UInt8 × Addr)) :=
  if !hasData L o then some (o, none)
  else if buflen < sendHdrSize o then some (o, none)
  else if L.ctrlBuf + ctrlLen L o.pool.poolStore > L.size then none
  else some (Netchan.netchanSendNext env (flushed L o buflen) buflen)

/-- The object after a step. -/
def apply (L : Layout) (o : Conn) : Step → Option Conn
  | .sendNext env buflen => (netchanSendNext L env o buflen).map Prod.fst
  | st => (reserveFrames L (st.apply o).pool.poolStore (requested o st)).map (st.apply o).patch

def step (L : Layout) (o : Option Conn) (st : Step) : Option Conn := o.bind fun o => apply L o st

/-- The object after a run of steps from `netchan_open`. -/
def run (L : Layout) (server : Bool) (sts : List Step) : Option Conn :=
  Lib.run (step L) (some (netchanOpen server)) sts

/-- Every step of the run is one that `A` allows, at the object it is taken in. -/
def Along (L : Layout) (A : Conn → Step → Prop) (server : Bool) (sts : List Step) : Prop :=
  Lib.Along (step L) (fun o st => ∀ c ∈ o, A c st) (some (netchanOpen server)) sts

instance (L : Layout) (A : Conn → Step → Prop) [∀ c st, Decidable (A c st)] (server : Bool)
    (sts : List Step) : Decidable (Along L A server sts) :=
  inferInstanceAs (Decidable (Lib.Along ..))

end Object

end Netchan
