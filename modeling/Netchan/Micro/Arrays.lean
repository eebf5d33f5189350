import Netchan.Lib.Counted
import Netchan.Micro.Step

/-!
# The rings of a microchan connection as arrays

`Raw` is `struct microchan` with its three kinds of rings as the source has them: an array, a head
and a count, each a byte. The functions below are those of `microchan.c` that work on a ring or call
one that does; a function that works on no ring is the one of `Netchan.Micro.Core`.

`exec_returns`: as long as heads and counts are within their arrays, a call on the arrays is the
call on the lists that `Mc` has in their place, and it leaves them within the arrays.
-/

namespace Netchan.Micro

open Lib

/-- `struct microchan`: the rings, and in `conn` everything else. -/
structure Raw where
  conn : Mc
  rxq : ChanId → Counted (List UInt8) mcRecvq := fun _ => .blank []
  txu : Counted (UInt8 × List UInt8) mcUnrelTxq := .blank (0, [])
  evq : Counted Event mcEventq := .blank .connected

namespace Raw

/-! ## Rings -/

def evPush (r : Raw) (e : Event) : Raw :=
  if r.evq.count.toNat ≥ mcEventq then r else { r with evq := r.evq.push e }

def mcPoll (r : Raw) : Option Event × Raw :=
  if r.evq.count = 0 then (none, r) else (some r.evq.front, { r with evq := r.evq.pop })

def mcOpen (isServer : Bool) (rand : UInt32) : Raw := { conn := Micro.mcOpen isServer rand }

/-- `mc_chan_open`, with the `memset` of the channel. -/
def mcChanOpen (r : Raw) (type : ChanType) : Option ChanId × Raw :=
  match (List.finRange mcMaxChan).find? fun i => !(r.conn.chan i).used with
  | none => (none, r)
  | some i =>
    (some i, { r with
      conn := { r.conn with chan := Function.update r.conn.chan i { used := true, type } }
      rxq := Function.update r.rxq i (.blank []) })

def rxqPush (q : Counted (List UInt8) mcRecvq) (data : List UInt8) :
    Counted (List UInt8) mcRecvq :=
  if q.count.toNat ≥ mcRecvq then q else q.push (data.take mcMaxmsg)

def rxqFull (q : Counted (List UInt8) mcRecvq) : Bool := q.count.toNat ≥ mcRecvq

def mcRead (r : Raw) (i : ChanId) (buflen : Nat) : Except Err (List UInt8) × Raw :=
  if (r.rxq i).count = 0 then (.ok [], r)
  else if (r.rxq i).front.length > buflen then (.error .toobig, r)
  else (.ok (r.rxq i).front, { r with rxq := Function.update r.rxq i (r.rxq i).pop })

def mcWrite (r : Raw) (i : ChanId) (data : List UInt8) : Except Err Nat × Raw :=
  if !(r.conn.chan i).used then (.error .err, r)
  else if r.conn.state ≠ .connected then (.error .closed, r)
  else if data.length > mcMaxmsg then (.error .toobig, r)
  else if (r.conn.chan i).type = .reliable then
    if (r.conn.txNext - r.conn.txBase).toNat ≥ mcWindow then (.error .again, r)
    else
      let s : TxSlot := ⟨r.conn.txNext, idByte i, data⟩
      (.ok data.length, { r with conn := { r.conn with
        txw := Function.update r.conn.txw (r.conn.txNext.toNat % mcWindow) s
        txNext := r.conn.txNext + 1 } })
  else
    -- a full ring drops its oldest datagram
    let txu := if r.txu.count.toNat ≥ mcUnrelTxq then r.txu.pop else r.txu
    (.ok data.length, { r with txu := txu.push (idByte i, data) })

/-! ## Receive path -/

def pushData (r : Raw) (i : ChanId) (data : List UInt8) : Raw :=
  evPush { r with rxq := Function.update r.rxq i (rxqPush (r.rxq i) data) } (.data i)

def deliver (r : Raw) (chan mt : UInt8) (seq : UInt16) (data : List UInt8) : Raw :=
  if mt = mtRel then
    if seq = r.conn.rxNext then
      match chanById r.conn chan with
      | none => { r with conn := { r.conn with rxNext := r.conn.rxNext + 1, ackPending := true } }
      | some i =>
        if rxqFull (r.rxq i) then { r with conn := { r.conn with ackPending := true } }
        else
          let r := pushData r i data
          { r with conn := { r.conn with rxNext := r.conn.rxNext + 1, ackPending := true } }
    else { r with conn := { r.conn with ackPending := true } }
  else
    match chanById r.conn chan with
    | none => r
    | some i => pushData r i data

/-- The record loop of `mc_feed`. -/
def feedRecords : Nat → Raw → List UInt8 → Raw
  | 0, r, _ => r
  | fuel + 1, r, q =>
    if q.length < mcRec then r
    else
      let dlen := (rd16 q 4).toNat
      if q.length < mcRec + dlen then r
      else
        feedRecords fuel (deliver r (byte q 0) (byte q 1) (rd16 q 2) ((q.drop mcRec).take dlen))
          (q.drop (mcRec + dlen))

/-- The state changes and an event tells. -/
def become (r : Raw) (state : State) (e : Event) : Raw :=
  evPush { r with conn := { r.conn with state } } e

/-- The case `PKT_SYN` of `mc_feed` works on no ring. -/
def feedSyn (r : Raw) (pkt : List UInt8) (source : Option Addr) : Except Err Unit × Raw :=
  ((Micro.feedSyn r.conn pkt source).1, { r with conn := (Micro.feedSyn r.conn pkt source).2 })

/-- The case `PKT_SYNACK` of `mc_feed`. -/
def feedSynack (r : Raw) (pkt : List UInt8) (source : Option Addr) : Except Err Unit × Raw :=
  if r.conn.isServer ∨ rd32 pkt 0 ≠ r.conn.localId then (.error .proto, r)
  else if pkt.length < mcHdr + 4 then (.error .proto, r)
  else
    let r := { r with conn := { r.conn with
      peer := source.getD r.conn.peer, remoteId := rd32 pkt mcHdr } }
    let r := if r.conn.state = .connecting then r.become .connected .connected else r
    (.ok (), { r with conn := { r.conn with sendAck := true } })

/-- The case `PKT_ACK` of `mc_feed`. -/
def feedAck (r : Raw) (pkt : List UInt8) : Except Err Unit × Raw :=
  if !r.conn.isServer ∨ rd32 pkt 0 ≠ r.conn.localId then (.error .proto, r)
  else if r.conn.state = .connecting then (.ok (), r.become .connected .connected)
  else (.ok (), r)

/-- A server that gets data while it is connecting. -/
def dataUp (r : Raw) : Raw :=
  if r.conn.isServer ∧ r.conn.state = .connecting then r.become .connected .connected else r

/-- The case `PKT_DATA` of `mc_feed`. -/
def feedData (r : Raw) (pkt : List UInt8) : Except Err Unit × Raw :=
  if rd32 pkt 0 ≠ r.conn.localId then (.error .proto, r)
  else
    let r := dataUp r
    if r.conn.state ≠ .connected then (.ok (), r)
    else
      (.ok (), feedRecords (pkt.length - mcHdr)
        { r with conn := processAck r.conn (rd16 pkt 6) } (pkt.drop mcHdr))

/-- The case `PKT_FIN` of `mc_feed`. -/
def feedFin (r : Raw) (pkt : List UInt8) : Except Err Unit × Raw :=
  if rd32 pkt 0 ≠ r.conn.localId then (.error .proto, r)
  else if r.conn.state ≠ .closed then (.ok (), r.become .closed .disconnected)
  else (.ok (), r)

def mcFeed (r : Raw) (pkt : List UInt8) (source : Option Addr) : Except Err Unit × Raw :=
  if pkt.length < mcHdr then (.error .proto, r)
  else
    let r := { r with conn := { r.conn with lastRecv := r.conn.now } }
    match (byte pkt 4).toNat with
    | 1 => feedSyn r pkt source
    | 2 => feedSynack r pkt source
    | 3 => feedAck r pkt
    | 4 => feedData r pkt
    | 5 => feedFin r pkt
    | _ => (.error .proto, r)

/-! ## Transmit path and timers -/

/-- The loop over the unreliable records, at most `txu_count` rounds. -/
def sendUnrel (cap : Nat) : Nat → Counted (UInt8 × List UInt8) mcUnrelTxq → Nat →
    Counted (UInt8 × List UInt8) mcUnrelTxq × List UInt8
  | 0, q, _ => (q, [])
  | fuel + 1, q, pos =>
    if q.count = 0 ∨ pos + (mcRec + q.front.2.length) > cap then (q, [])
    else
      let (q', bs) := sendUnrel cap fuel q.pop (pos + (mcRec + q.front.2.length))
      (q', record q.front.1 mtUnrel 0 q.front.2 ++ bs)

/-- The DATA packet of `mc_send_next`. -/
def sendData (cap : Nat) (r : Raw) : Raw × List UInt8 :=
  let c := r.conn
  let (u, rel) := sendRel mcWindow cap c.txw c.txNext (c.txNext - c.txUnsent).toNat c.txUnsent mcHdr
  let (txu, unrel) := sendUnrel cap r.txu.count.toNat r.txu (mcHdr + rel.length)
  ({ r with
      txu
      conn := { c with
        txUnsent := u
        txTimer := if c.txBase ≠ c.txNext ∧ c.txTimer = 0 then c.now + rtMs else c.txTimer
        ackPending := false, lastSend := c.now } },
    header c.remoteId 4 c.rxNext ++ rel ++ unrel)

def mcSendNext (r : Raw) (buflen : Nat) : Raw × Option (List UInt8 × Addr) :=
  let c := r.conn
  if buflen < mcHdr then (r, none)
  else if c.sendSynack then
    ({ r with conn := { c with sendSynack := false, lastSend := c.now } },
      some (header c.remoteId 2 0 ++ wr32 c.localId, c.peer))
  else if c.sendAck then
    ({ r with conn := { c with sendAck := false, lastSend := c.now } },
      some (header c.remoteId 3 0, c.peer))
  else if c.sendSyn then
    ({ r with conn := { c with sendSyn := false, lastSend := c.now } },
      some (header 0 1 0 ++ wr32 c.localId, c.peer))
  else if c.state ≠ .connected then (r, none)
  else if c.txUnsent = c.txNext ∧ r.txu.count = 0 ∧ !c.ackPending then (r, none)
  else
    let (r', pkt) := sendData (min buflen mcMtu) r
    (r', some (pkt, c.peer))

/-- `mc_service` while connecting. -/
def serviceConnecting (r : Raw) : Int × Raw :=
  if r.conn.now ≥ r.conn.connectTimer then
    let r := { r with conn := { r.conn with connectAttempts := r.conn.connectAttempts + 1 } }
    if r.conn.connectAttempts > connectRetries then (-1, r.become .closed .disconnected)
    else
      let c := if r.conn.isServer then { r.conn with sendSynack := true }
        else { r.conn with sendSyn := true }
      (250, { r with conn := { c with connectTimer := c.now + connectRetryMs } })
  else (250, r)

/-- `mc_service` while connected. -/
def serviceConnected (r : Raw) : Int × Raw :=
  let keepalive (c : Mc) : Mc :=
    if c.now - c.lastSend > keepaliveMs then { c with ackPending := true } else c
  let c := r.conn
  if c.now - c.lastRecv > idleMs then (-1, r.become .closed .disconnected)
  else if c.txBase ≠ c.txNext ∧ c.txTimer ≠ 0 ∧ c.now ≥ c.txTimer then
    let c := { c with txAttempts := c.txAttempts + 1 }
    if c.txAttempts > rtAttempts then
      (-1, Raw.become { r with conn := c } .closed .disconnected)
    else
      let c := { c with txUnsent := c.txBase, txTimer := c.now + backoff c.txAttempts }
      (120, { r with conn := keepalive c })
  else (120, { r with conn := keepalive c })

def mcService (r : Raw) (nowMs : UInt32) : Int × Raw :=
  let r := { r with conn := { r.conn with now := nowMs } }
  if r.conn.state = .connecting then serviceConnecting r
  else if r.conn.state = .connected then serviceConnected r
  else (-1, r)

/-! ## Calls -/

/-- A call on the arrays: what it returns and the connection after it. -/
def exec (r : Raw) : Step → Out × Raw
  | .connect addr => (.done, { r with conn := mcConnect r.conn addr })
  | .chanOpen type => ((mcChanOpen r type).map .opened id)
  | .chanClose i => (.done, { r with conn := mcChanClose r.conn i })
  | .write i data => (mcWrite r i data).map .wrote id
  | .read i buflen => (mcRead r i buflen).map .got id
  | .poll => (mcPoll r).map .event id
  | .feed pkt source => (mcFeed r pkt source).map .fed id
  | .sendNext buflen => (.packet (mcSendNext r buflen).2, (mcSendNext r buflen).1)
  | .service nowMs => (mcService r nowMs).map .wait id

/-- The connection after some calls. -/
def after (isServer : Bool) (rand : UInt32) (sts : List Step) : Raw :=
  run (fun r st => (exec r st).2) (mcOpen isServer rand) sts

/-! ## What the arrays show -/

/-- Heads and counts are within their arrays. -/
structure Ok (r : Raw) : Prop where
  rxq : ∀ i, (r.rxq i).Ok
  txu : r.txu.Ok
  evq : r.evq.Ok

/-- The connection with the lists that the arrays hold. -/
def view (r : Raw) : Mc :=
  { r.conn with
    chan := fun i => { r.conn.chan i with rxq := (r.rxq i).toList }
    txu := r.txu.toList
    evq := r.evq.toList }

/-- The arrays are in order and hold the lists of `c`. -/
structure Shows (r : Raw) (c : Mc) : Prop where
  ok : r.Ok
  view : r.view = c

/-- A call returns the same on both and leaves the arrays in order. -/
structure Returns {α : Type} (x : α × Raw) (y : α × Mc) : Prop where
  out : x.1 = y.1
  shows : x.2.Shows y.2

theorem Shows.ite {p q : Prop} [Decidable p] [Decidable q] {r r' : Raw} {c c' : Mc} (hpq : p ↔ q)
    (h : p → r.Shows c) (h' : ¬p → r'.Shows c') :
    (if p then r else r').Shows (if q then c else c') := by
  by_cases hp : p
  · rw [if_pos hp, if_pos (hpq.1 hp)]
    exact h hp
  · rw [if_neg hp, if_neg (mt hpq.2 hp)]
    exact h' hp

theorem Returns.ite {α : Type} {p q : Prop} [Decidable p] [Decidable q] {x x' : α × Raw}
    {y y' : α × Mc} (hpq : p ↔ q) (h : p → Returns x y) (h' : ¬p → Returns x' y') :
    Returns (if p then x else x') (if q then y else y') := by
  by_cases hp : p
  · rw [if_pos hp, if_pos (hpq.1 hp)]
    exact h hp
  · rw [if_neg hp, if_neg (mt hpq.2 hp)]
    exact h' hp

theorem Returns.map {α β : Type} {x : α × Raw} {y : α × Mc} (h : Returns x y) (f : α → β) :
    Returns (x.map f id) (y.map f id) := ⟨congrArg f h.out, h.shows⟩

section
variable {r : Raw} (h : r.Ok)
include h

theorem Ok.same {α : Type} (a : α) : Returns (a, r) (a, r.view) := ⟨rfl, h, rfl⟩

theorem Ok.on (c : Mc) : Ok { r with conn := c } := ⟨h.rxq, h.txu, h.evq⟩

theorem evPush_shows (e : Event) : (r.evPush e).Shows (Micro.evPush r.view e) := by
  refine .ite (by rw [view, Counted.length_toList]) (fun _ => ⟨h, rfl⟩) fun hroom => ?_
  have hc : r.evq.count.toNat < mcEventq := Nat.not_le.1 hroom
  refine ⟨⟨h.rxq, h.txu, h.evq.push (by decide) hc e⟩, ?_⟩
  simp only [view, Counted.toList_push (by decide) h.evq hc]

theorem mcPoll_returns : Returns r.mcPoll (Micro.mcPoll r.view) := by
  unfold mcPoll Micro.mcPoll
  by_cases hc : r.evq.count = 0
  · have hl : r.view.evq = [] := (Counted.toList_eq_nil _).2 hc
    rw [if_pos hc, hl]
    exact h.same _
  · have hl : r.view.evq = r.evq.front :: r.evq.pop.toList :=
      Counted.toList_pop (by decide) h.evq hc
    rw [if_neg hc, hl]
    exact ⟨rfl, ⟨h.rxq, h.txu, h.evq.pop (by decide) hc⟩, rfl⟩

theorem mcChanOpen_returns (type : ChanType) :
    Returns (r.mcChanOpen type) (Micro.mcChanOpen r.view type) := by
  have hfind : ((List.finRange mcMaxChan).find? fun i => !(r.view.chan i).used) =
      (List.finRange mcMaxChan).find? fun i => !(r.conn.chan i).used := rfl
  unfold mcChanOpen Micro.mcChanOpen
  rw [hfind]
  cases (List.finRange mcMaxChan).find? fun i => !(r.conn.chan i).used with
  | none => exact h.same _
  | some i =>
    refine ⟨rfl, ⟨fun j => ?_, h.txu, h.evq⟩, ?_⟩
    · simp only [Function.update_apply]
      split
      · exact Counted.ok_blank (by decide) _
      · exact h.rxq j
    · simp only [view]
      congr 1
      funext j
      simp only [Function.update_apply]
      split <;> rfl

theorem mcChanClose_shows (i : ChanId) :
    Shows { r with conn := mcChanClose r.conn i } (mcChanClose r.view i) := by
  refine ⟨h.on _, ?_⟩
  simp only [view, mcChanClose]
  congr 1
  funext j
  simp only [Function.update_apply]
  split
  · rename_i he
    rw [he]
  · rfl

omit h in
theorem view_rxq (r : Raw) (i : ChanId) (q : Counted (List UInt8) mcRecvq) :
    Raw.view { r with rxq := Function.update r.rxq i q } =
      { r.view with
        chan := Function.update r.view.chan i { r.view.chan i with rxq := q.toList } } := by
  simp only [view]
  congr 1
  funext j
  simp only [Function.update_apply]
  split
  · rename_i he
    rw [he]
  · rfl

theorem Ok.setRxq {i : ChanId} {q : Counted (List UInt8) mcRecvq} (hq : q.Ok) :
    Ok { r with rxq := Function.update r.rxq i q } := by
  refine ⟨fun j => ?_, h.txu, h.evq⟩
  simp only [Function.update_apply]
  split
  · exact hq
  · exact h.rxq j

theorem mcRead_returns (i : ChanId) (buflen : Nat) :
    Returns (r.mcRead i buflen) (Micro.mcRead r.view i buflen) := by
  unfold mcRead Micro.mcRead
  by_cases hc : (r.rxq i).count = 0
  · have hl : (r.view.chan i).rxq = [] := (Counted.toList_eq_nil _).2 hc
    rw [if_pos hc, hl]
    exact h.same _
  · have hl : (r.view.chan i).rxq = (r.rxq i).front :: (r.rxq i).pop.toList :=
      Counted.toList_pop (by decide) (h.rxq i) hc
    rw [if_neg hc, hl]
    refine .ite Iff.rfl (fun _ => h.same _) fun _ => ?_
    exact ⟨rfl, h.setRxq ((h.rxq i).pop (by decide) hc), view_rxq r i _⟩

theorem mcWrite_returns (i : ChanId) (data : List UInt8) :
    Returns (r.mcWrite i data) (Micro.mcWrite mcWindow r.view i data) := by
  unfold mcWrite Micro.mcWrite
  refine .ite Iff.rfl (fun _ => h.same _) fun _ => ?_
  refine .ite Iff.rfl (fun _ => h.same _) fun _ => ?_
  refine .ite Iff.rfl (fun _ => h.same _) fun _ => ?_
  refine .ite Iff.rfl (fun _ => ?_) fun _ => ?_
  · exact .ite Iff.rfl (fun _ => h.same _) fun _ => ⟨rfl, h.on _, rfl⟩
  -- the ring, after it has lost its oldest if it was full
  · have hq : (if r.txu.count.toNat ≥ mcUnrelTxq then r.txu.pop else r.txu).Ok ∧
        (if r.txu.count.toNat ≥ mcUnrelTxq then r.txu.pop else r.txu).count.toNat < mcUnrelTxq ∧
        (if r.txu.count.toNat ≥ mcUnrelTxq then r.txu.pop else r.txu).toList =
          if r.view.txu.length ≥ mcUnrelTxq then r.view.txu.tail else r.view.txu := by
      rw [show r.view.txu.length = r.txu.count.toNat from Counted.length_toList _]
      have hle := h.txu.count
      split
      · rename_i hfull
        have hc : r.txu.count ≠ 0 := by
          intro he
          rw [he] at hfull
          exact absurd hfull (by decide)
        have hl : r.view.txu = r.txu.front :: r.txu.pop.toList :=
          Counted.toList_pop (by decide) h.txu hc
        have hp := Counted.count_pop hc
        exact ⟨h.txu.pop (by decide) hc, by omega, by rw [hl]; rfl⟩
      · rename_i hroom
        exact ⟨h.txu, Nat.not_le.1 hroom, rfl⟩
    obtain ⟨hok, hlt, hlist⟩ := hq
    refine ⟨rfl, ⟨h.rxq, hok.push (by decide) hlt _, h.evq⟩, ?_⟩
    simp only [view, Counted.toList_push (by decide) hok hlt, hlist]

/-! ## Receive path -/

theorem pushData_shows (i : ChanId) (data : List UInt8) :
    (r.pushData i data).Shows (Micro.pushData r.view i data) := by
  have hq : (rxqPush (r.rxq i) data).Ok ∧
      { r.view.chan i with rxq := (rxqPush (r.rxq i) data).toList } =
        Micro.rxqPush (r.view.chan i) data := by
    unfold rxqPush Micro.rxqPush
    rw [show (r.view.chan i).rxq.length = (r.rxq i).count.toNat from Counted.length_toList _]
    split
    · exact ⟨h.rxq i, rfl⟩
    · rename_i hroom
      have hc : (r.rxq i).count.toNat < mcRecvq := Nat.not_le.1 hroom
      refine ⟨(h.rxq i).push (by decide) hc _, ?_⟩
      rw [Counted.toList_push (by decide) (h.rxq i) hc]
      rfl
  have hs := evPush_shows (h.setRxq (i := i) hq.1) (.data i)
  rw [view_rxq, hq.2] at hs
  exact hs

theorem deliver_shows (chan mt : UInt8) (seq : UInt16) (data : List UInt8) :
    (r.deliver chan mt seq data).Shows (Micro.deliver r.view chan mt seq data) := by
  have hchan : chanById r.view chan = chanById r.conn chan := rfl
  unfold deliver Micro.deliver
  rw [hchan]
  refine .ite Iff.rfl (fun _ => .ite Iff.rfl (fun _ => ?_) fun _ => ⟨h.on _, rfl⟩) fun _ => ?_
  · cases chanById r.conn chan with
    | none => exact ⟨h.on _, rfl⟩
    | some i =>
      have hfull : rxqFull (r.rxq i) = true ↔ Micro.rxqFull (r.view.chan i) = true := by
        rw [rxqFull, Micro.rxqFull, show (r.view.chan i).rxq.length = (r.rxq i).count.toNat from
          Counted.length_toList _]
      refine .ite hfull (fun _ => ⟨h.on _, rfl⟩) fun _ => ?_
      have hp := pushData_shows h i data
      exact ⟨hp.ok.on _, by rw [← hp.view]; rfl⟩
  · cases chanById r.conn chan with
    | none => exact ⟨h, rfl⟩
    | some i => exact pushData_shows h i data

omit h in
theorem feedRecords_shows (fuel : Nat) (r : Raw) (h : r.Ok) (q : List UInt8) :
    (feedRecords fuel r q).Shows (Micro.feedRecords fuel r.view q) := by
  induction fuel generalizing r q with
  | zero => exact ⟨h, rfl⟩
  | succ fuel ih =>
    unfold feedRecords Micro.feedRecords
    refine .ite Iff.rfl (fun _ => ⟨h, rfl⟩) fun _ => .ite Iff.rfl (fun _ => ⟨h, rfl⟩) fun _ => ?_
    have hd := deliver_shows h (byte q 0) (byte q 1) (rd16 q 2)
      ((q.drop mcRec).take (rd16 q 4).toNat)
    rw [← hd.view]
    exact ih _ hd.ok _

theorem become_shows (state : State) (e : Event) :
    (r.become state e).Shows (Micro.evPush { r.view with state } e) :=
  evPush_shows (h.on _) e

omit h in
theorem Shows.sendAck {c : Mc} (hs : r.Shows c) :
    Shows { r with conn := { r.conn with sendAck := true } } { c with sendAck := true } :=
  ⟨hs.ok.on _, by rw [← hs.view]; rfl⟩

theorem feedSynack_returns (pkt : List UInt8) (source : Option Addr) :
    Returns (r.feedSynack pkt source) (Micro.feedSynack r.view pkt source) := by
  unfold feedSynack Micro.feedSynack
  refine .ite Iff.rfl (fun _ => h.same _) fun _ => .ite Iff.rfl (fun _ => h.same _) fun _ => ?_
  refine ⟨rfl, Shows.sendAck (.ite Iff.rfl (fun _ => ?_) fun _ => ⟨h.on _, rfl⟩)⟩
  exact become_shows (h.on _) _ _

theorem feedAck_returns (pkt : List UInt8) :
    Returns (r.feedAck pkt) (Micro.feedAck r.view pkt) := by
  unfold feedAck Micro.feedAck
  refine .ite Iff.rfl (fun _ => h.same _) fun _ => .ite Iff.rfl (fun _ => ?_) fun _ => h.same _
  exact ⟨rfl, become_shows h _ _⟩

theorem dataUp_shows : r.dataUp.Shows (Micro.dataUp r.view) :=
  .ite Iff.rfl (fun _ => become_shows h _ _) fun _ => ⟨h, rfl⟩

omit h in
theorem processAck_view (r : Raw) (ack : UInt16) :
    Raw.view { r with conn := processAck r.conn ack } = processAck r.view ack := by
  have hb : r.view.txBase = r.conn.txBase := rfl
  have hn : r.view.txNext = r.conn.txNext := rfl
  have hu : r.view.txUnsent = r.conn.txUnsent := rfl
  unfold processAck
  rw [hb, hn, hu]
  dsimp only
  split <;> rfl

theorem feedData_returns (pkt : List UInt8) :
    Returns (r.feedData pkt) (Micro.feedData r.view pkt) := by
  unfold feedData Micro.feedData
  refine .ite Iff.rfl (fun _ => h.same _) fun _ => ?_
  have hs := dataUp_shows h
  rw [← hs.view]
  generalize r.dataUp = d at hs
  refine .ite Iff.rfl (fun _ => hs.ok.same _) fun _ => ⟨rfl, ?_⟩
  have hr := feedRecords_shows (pkt.length - mcHdr)
    { d with conn := processAck d.conn (rd16 pkt 6) } (hs.ok.on _) (pkt.drop mcHdr)
  rw [processAck_view] at hr
  exact hr

theorem feedFin_returns (pkt : List UInt8) :
    Returns (r.feedFin pkt) (Micro.feedFin r.view pkt) := by
  unfold feedFin Micro.feedFin
  refine .ite Iff.rfl (fun _ => h.same _) fun _ => .ite Iff.rfl (fun _ => ?_) fun _ => h.same _
  exact ⟨rfl, become_shows h _ _⟩

theorem feedSyn_returns (pkt : List UInt8) (source : Option Addr) :
    Returns (r.feedSyn pkt source) (Micro.feedSyn r.view pkt source) := by
  have hserver : r.view.isServer = r.conn.isServer := rfl
  have hstate : r.view.state = r.conn.state := rfl
  unfold feedSyn Micro.feedSyn
  rw [hserver, hstate]
  split
  · exact h.same _
  split
  · exact h.same _
  dsimp only
  split
  · exact ⟨rfl, h.on _, rfl⟩
  · rw [hstate]
    split
    · exact ⟨rfl, h.on _, rfl⟩
    · exact h.same _

theorem mcFeed_returns (pkt : List UInt8) (source : Option Addr) :
    Returns (r.mcFeed pkt source) (Micro.mcFeed r.view pkt source) := by
  unfold mcFeed Micro.mcFeed
  refine .ite Iff.rfl (fun _ => h.same _) fun _ => ?_
  have hd : Ok { r with conn := { r.conn with lastRecv := r.conn.now } } := h.on _
  have hview : Raw.view { r with conn := { r.conn with lastRecv := r.conn.now } } =
      { r.view with lastRecv := r.view.now } := rfl
  dsimp only at hd hview ⊢
  rw [← hview]
  generalize ({ r with conn := { r.conn with lastRecv := r.conn.now } } : Raw) = d at hd ⊢
  generalize (byte pkt 4).toNat = t
  by_cases h1 : t = 1
  · subst h1
    simp only
    exact feedSyn_returns hd pkt source
  by_cases h2 : t = 2
  · subst h2
    simp only
    exact feedSynack_returns hd pkt source
  by_cases h3 : t = 3
  · subst h3
    simp only
    exact feedAck_returns hd pkt
  by_cases h4 : t = 4
  · subst h4
    simp only
    exact feedData_returns hd pkt
  by_cases h5 : t = 5
  · subst h5
    simp only
    exact feedFin_returns hd pkt
  · simp only
    exact hd.same _

/-! ## Transmit path and timers -/

omit h in
theorem sendUnrel_eq (cap : Nat) (fuel : Nat) (q : Counted (UInt8 × List UInt8) mcUnrelTxq)
    (hq : q.Ok) (hfuel : q.count.toNat ≤ fuel) (pos : Nat) :
    (sendUnrel cap fuel q pos).1.Ok ∧
      Micro.sendUnrel cap q.toList pos =
        ((sendUnrel cap fuel q pos).1.toList, (sendUnrel cap fuel q pos).2) := by
  induction fuel generalizing q pos with
  | zero =>
    have hc : q.count = 0 := UInt8.toNat_inj.1 (Nat.le_zero.1 hfuel)
    have hl : q.toList = [] := (Counted.toList_eq_nil q).2 hc
    exact ⟨hq, by rw [sendUnrel, hl]; rfl⟩
  | succ fuel ih =>
    unfold sendUnrel
    by_cases hc : q.count = 0
    · have hl : q.toList = [] := (Counted.toList_eq_nil q).2 hc
      rw [if_pos (.inl hc), hl]
      exact ⟨hq, rfl⟩
    · have hl := Counted.toList_pop (by decide) hq hc
      have hp := Counted.count_pop hc
      rw [hl, Micro.sendUnrel]
      by_cases hfit : pos + (mcRec + q.front.2.length) > cap
      · rw [if_pos (.inr hfit), if_pos hfit]
        exact ⟨hq, by rw [hl]⟩
      · rw [if_neg (not_or.2 ⟨hc, hfit⟩), if_neg hfit]
        obtain ⟨h1, h2⟩ := ih q.pop (hq.pop (by decide) hc) (by omega)
          (pos + (mcRec + q.front.2.length))
        rw [h2]
        exact ⟨h1, rfl⟩

theorem sendData_shows (cap : Nat) :
    (sendData cap r).1.Ok ∧
      Micro.sendData mcWindow cap r.view = ((sendData cap r).1.view, (sendData cap r).2) := by
  have hw : r.view.txw = r.conn.txw := rfl
  have hn : r.view.txNext = r.conn.txNext := rfl
  have hu : r.view.txUnsent = r.conn.txUnsent := rfl
  have ht : r.view.txu = r.txu.toList := rfl
  unfold Micro.sendData sendData
  rw [hw, hn, hu, ht]
  dsimp only
  generalize sendRel mcWindow cap r.conn.txw r.conn.txNext
    (r.conn.txNext - r.conn.txUnsent).toNat r.conn.txUnsent mcHdr = rel
  obtain ⟨hok, hlist⟩ := sendUnrel_eq cap r.txu.count.toNat r.txu h.txu (Nat.le_refl _)
    (mcHdr + rel.2.length)
  rw [hlist]
  exact ⟨⟨h.rxq, hok, h.evq⟩, rfl⟩

theorem mcSendNext_shows (buflen : Nat) :
    (r.mcSendNext buflen).1.Ok ∧
      Micro.mcSendNext mcWindow r.view buflen =
        ((r.mcSendNext buflen).1.view, (r.mcSendNext buflen).2) := by
  have hnil : r.view.txu = [] ↔ r.txu.count = 0 := Counted.toList_eq_nil _
  have hs := sendData_shows h (min buflen mcMtu)
  unfold Micro.mcSendNext mcSendNext
  by_cases h1 : buflen < mcHdr
  · rw [if_pos h1, if_pos h1]
    exact ⟨h, rfl⟩
  rw [if_neg h1, if_neg h1]
  by_cases h2 : r.conn.sendSynack
  · rw [if_pos h2, if_pos (show r.view.sendSynack = true from h2)]
    exact ⟨h.on _, rfl⟩
  rw [if_neg h2, if_neg (show ¬r.view.sendSynack = true from h2)]
  by_cases h3 : r.conn.sendAck
  · rw [if_pos h3, if_pos (show r.view.sendAck = true from h3)]
    exact ⟨h.on _, rfl⟩
  rw [if_neg h3, if_neg (show ¬r.view.sendAck = true from h3)]
  by_cases h4 : r.conn.sendSyn
  · rw [if_pos h4, if_pos (show r.view.sendSyn = true from h4)]
    exact ⟨h.on _, rfl⟩
  rw [if_neg h4, if_neg (show ¬r.view.sendSyn = true from h4)]
  by_cases h5 : r.conn.state ≠ .connected
  · rw [if_pos h5, if_pos (show r.view.state ≠ .connected from h5)]
    exact ⟨h, rfl⟩
  rw [if_neg h5, if_neg (show ¬r.view.state ≠ .connected from h5)]
  have hidle : (r.view.txUnsent = r.view.txNext ∧ r.view.txu = [] ∧ !r.view.ackPending) ↔
      r.conn.txUnsent = r.conn.txNext ∧ r.txu.count = 0 ∧ !r.conn.ackPending :=
    and_congr Iff.rfl (and_congr hnil Iff.rfl)
  by_cases h6 : r.conn.txUnsent = r.conn.txNext ∧ r.txu.count = 0 ∧ !r.conn.ackPending
  · rw [if_pos h6, if_pos (hidle.2 h6)]
    exact ⟨h, rfl⟩
  rw [if_neg h6, if_neg (mt hidle.1 h6), hs.2]
  exact ⟨hs.1, rfl⟩

theorem serviceConnecting_returns :
    Returns r.serviceConnecting (Micro.serviceConnecting r.view) := by
  unfold serviceConnecting Micro.serviceConnecting
  refine .ite Iff.rfl (fun _ => ?_) fun _ => h.same _
  refine .ite Iff.rfl (fun _ => ⟨rfl, become_shows (h.on _) _ _⟩) fun _ => ⟨rfl, h.on _, ?_⟩
  have hserver : r.view.isServer = r.conn.isServer := rfl
  dsimp only
  rw [hserver]
  split <;> rfl

theorem serviceConnected_returns :
    Returns r.serviceConnected (Micro.serviceConnected r.view) := by
  have hlast : r.view.lastSend = r.conn.lastSend := rfl
  have hnow : r.view.now = r.conn.now := rfl
  unfold serviceConnected Micro.serviceConnected
  refine .ite Iff.rfl (fun _ => ⟨rfl, become_shows (h.on _) _ _⟩) fun _ => ?_
  refine .ite Iff.rfl (fun _ => ?_) fun _ => ⟨rfl, h.on _, ?_⟩
  · refine .ite Iff.rfl (fun _ => ⟨rfl, become_shows (h.on _) _ _⟩) fun _ => ⟨rfl, h.on _, ?_⟩
    dsimp only
    rw [hlast, hnow]
    split <;> rfl
  · dsimp only
    rw [hlast, hnow]
    split <;> rfl

theorem mcService_returns (nowMs : UInt32) :
    Returns (r.mcService nowMs) (Micro.mcService r.view nowMs) := by
  unfold mcService Micro.mcService
  have hd : Ok { r with conn := { r.conn with now := nowMs } } := h.on _
  exact .ite Iff.rfl (fun _ => serviceConnecting_returns hd) fun _ =>
    .ite Iff.rfl (fun _ => serviceConnected_returns hd) fun _ => hd.same _

/-! ## Runs -/

/-- **A call on the arrays is the call on the lists.** -/
theorem exec_returns (st : Step) : Returns (r.exec st) (st.exec r.view) := by
  cases st with
  | connect addr => exact ⟨rfl, h.on _, rfl⟩
  | chanOpen type => exact (mcChanOpen_returns h type).map Out.opened
  | chanClose i => exact ⟨rfl, mcChanClose_shows h i⟩
  | write i data => exact (mcWrite_returns h i data).map Out.wrote
  | read i buflen => exact (mcRead_returns h i buflen).map Out.got
  | poll => exact (mcPoll_returns h).map Out.event
  | feed pkt source => exact (mcFeed_returns h pkt source).map Out.fed
  | sendNext buflen =>
    obtain ⟨hok, he⟩ := mcSendNext_shows h buflen
    have hout := congrArg (fun p : Mc × Option (List UInt8 × Addr) => Out.packet p.2) he
    exact ⟨hout.symm, hok, (congrArg Prod.fst he).symm⟩
  | service nowMs => exact (mcService_returns h nowMs).map Out.wait

end

theorem mcOpen_shows (isServer : Bool) (rand : UInt32) :
    (mcOpen isServer rand).Shows (Micro.mcOpen isServer rand) := by
  refine ⟨⟨fun _ => Counted.ok_blank (by decide) _, Counted.ok_blank (by decide) _,
    Counted.ok_blank (by decide) _⟩, ?_⟩
  simp only [view, mcOpen, Counted.toList_blank]
  rfl

/-- **A run on the arrays shows the run on the lists**, and it stays within the arrays. -/
theorem after_shows (isServer : Bool) (rand : UInt32) (sts : List Step) :
    (after isServer rand sts).Shows (run Step.apply (Micro.mcOpen isServer rand) sts) := by
  refine run_simulates (R := Shows) (fun r c st hs => ?_) (mcOpen_shows isServer rand) sts
  have he := (exec_returns hs.ok st).shows
  rw [hs.view] at he
  exact he

end Raw

end Netchan.Micro
