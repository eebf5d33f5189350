import Netchan.Micro.Slots

/-!
# A new session on a closed connection

A SYN takes a server connection from CLOSED to CONNECTING, whether it was just opened or has had a
session before. It takes over the peer and its id and leaves the reliable numbers, the window and
the ring as they are, so `syn_starts_fresh`: the session starts as that of a new connection exactly
if the connection has nothing left of an earlier one. `second_session_deaf` is a second session that
neither hears its peer's first message nor spares it a message for the peer before.
-/

namespace Netchan.Micro

open Lib

/-- The reliable state, the window and the ring of a new connection. -/
structure FreshSession (c : Mc) : Prop where
  base : c.txBase = 0
  unsent : c.txUnsent = 0
  next : c.txNext = 0
  received : c.rxNext = 0
  attempts : c.txAttempts = 0
  ring : c.txu = []

theorem mcOpen_fresh (isServer : Bool) (r : UInt32) : FreshSession (mcOpen isServer r) :=
  ⟨rfl, rfl, rfl, rfl, rfl, rfl⟩

/-- A SYN moves the connection from CLOSED to CONNECTING. -/
def StartsSession (c : Mc) : Step → Prop
  | .feed pkt source => c.state = .closed ∧ (mcFeed c pkt source).2.state = .connecting
  | _ => False

/-- Nothing is left of an earlier session: the messages written, over all of them, are a multiple of
`2 ^ 16` and were all acknowledged, those received are one too, and no datagram is queued. -/
structure NothingLeft (a : Audit) : Prop where
  written : 2 ^ 16 ∣ a.written.length
  acked : a.conn.txBase = a.conn.txNext
  received : a.conn.rxNext = 0
  ring : a.conn.txu = []

/-! ## The SYN -/

section
variable {c : Mc} (pkt : List UInt8) (source : Option Addr)

/-- **A closed connection** takes no acknowledgement and no record. -/
theorem mcFeed_closed (h : c.state = .closed) :
    (mcFeed c pkt source).2.tx = c.tx ∧ (mcFeed c pkt source).2.rxNext = c.rxNext := by
  unfold mcFeed
  split
  · exact ⟨rfl, rfl⟩
  dsimp only
  have htx : ({ c with lastRecv := c.now } : Mc).tx = c.tx := rfl
  have hrx : ({ c with lastRecv := c.now } : Mc).rxNext = c.rxNext := rfl
  have hd : ({ c with lastRecv := c.now } : Mc).state = .closed := h
  generalize { c with lastRecv := c.now } = d at htx hrx hd
  split
  · exact ⟨(feedSyn_tx d pkt source).trans htx, (feedSyn_same d pkt source).rxNext.trans hrx⟩
  · exact ⟨(feedSynack_tx d pkt source).trans htx, (feedSynack_same d pkt source).rxNext.trans hrx⟩
  · exact ⟨(feedAck_tx d pkt).trans htx, (feedAck_same d pkt).rxNext.trans hrx⟩
  · have hup : dataUp d = d := by simp [dataUp, hd]
    unfold feedData
    split
    · exact ⟨htx, hrx⟩
    · rw [hup, if_pos (by simp [hd])]
      exact ⟨htx, hrx⟩
  · exact ⟨(feedFin_tx d pkt).trans htx, (feedFin_same d pkt).rxNext.trans hrx⟩
  · exact ⟨htx, hrx⟩

end

/-! ## What is left -/

section
variable {a : Audit} {B U : Nat}

/-- A window with nothing in it has made no attempts. -/
def Rested (c : Mc) : Prop := c.txBase = c.txNext → c.txAttempts = 0

theorem Rested.step (hf : Flight mcWindow a.conn.tx a.written.length B U) (h : Rested a.conn)
    (st : Step) : Rested (st.applyIn mcWindow a.conn) := by
  have ht := applyIn_tx mcWindow a.conn st
  generalize he : (st.applyIn mcWindow a.conn).tx = t at ht
  have hbase : (st.applyIn mcWindow a.conn).txBase = t.base := congrArg Tx.base he
  have hnext : (st.applyIn mcWindow a.conn).txNext = t.next := congrArg Tx.next he
  have hatt : (st.applyIn mcWindow a.conn).txAttempts = t.attempts := congrArg Tx.attempts he
  rw [Rested, hbase, hnext, hatt]
  cases ht with
  | same st hw => exact h
  | queued i data txu hw hlen hsuf => exact h
  | sent buflen => exact h
  | wrote i data hw hlen hroom =>
    intro heq
    -- the message itself is in the window
    have hb : a.conn.txBase = UInt16.ofNat B := hf.base
    have hn : a.conn.txNext = UInt16.ofNat a.written.length := hf.next
    have heq' : UInt16.ofNat B = UInt16.ofNat (a.written.length + 1) := by
      rw [← hb, ← ofNat_succ, ← hn]
      exact heq
    have hlo := hf.lo
    have hmid := hf.mid
    have hhi : a.written.length ≤ B + 8 := hf.hi
    have := eq_of_ofNat heq' (by omega) (by omega)
    omega
  | resent nowMs hne => exact fun heq => absurd heq hne
  | gaveUp nowMs hne => exact fun heq => absurd heq hne
  | acked pkt source ack =>
    intro heq
    obtain ⟨B', -, -, hf', -, -, hatt'⟩ := processAck_flight hf (by decide) ack
    show (processAck a.conn ack).txAttempts = 0
    rw [hatt']
    split
    · rename_i hB
      refine h ?_
      have h1 : (processAck a.conn ack).txBase = UInt16.ofNat B' := hf'.base
      have h2 : (processAck a.conn ack).txNext = UInt16.ofNat a.written.length := hf'.next
      have h3 : a.conn.txBase = UInt16.ofNat B := hf.base
      have h4 : a.conn.txNext = UInt16.ofNat a.written.length := hf.next
      rw [h3, h4, ← hB, ← h1, ← h2]
      exact heq
    · rfl

/-- **A connection is like new** exactly if nothing is left of earlier sessions. -/
theorem fresh_iff (hf : Flight mcWindow a.conn.tx a.written.length B U) (hr : Rested a.conn) :
    FreshSession a.conn ↔ NothingLeft a := by
  have hb : a.conn.txBase = UInt16.ofNat B := hf.base
  have hn : a.conn.txNext = UInt16.ofNat a.written.length := hf.next
  have hu : a.conn.txUnsent = UInt16.ofNat U := hf.unsent
  have hlo := hf.lo
  have hmid := hf.mid
  have hhi : a.written.length ≤ B + 8 := hf.hi
  have hzero : ∀ n : Nat, UInt16.ofNat n = 0 ↔ 2 ^ 16 ∣ n := by
    intro n
    rw [← UInt16.toNat_inj, UInt16.toNat_ofNat']
    exact (Nat.dvd_iff_mod_eq_zero ..).symm
  constructor
  · intro h
    exact ⟨(hzero _).1 (hn ▸ h.next), h.base.trans h.next.symm, h.received, h.ring⟩
  · intro h
    have hnext : a.conn.txNext = 0 := by rw [hn, hzero]; exact h.written
    have hBL : B = a.written.length := by
      have := h.acked
      rw [hb, hn] at this
      exact eq_of_ofNat this (by omega) (by omega)
    have hUL : U = a.written.length := by omega
    exact ⟨h.acked.trans hnext, by rw [hu, hUL, ← hn, hnext], hnext, h.received, hr h.acked, h.ring⟩

end

/-! ## Runs -/

/-- What holds of a connection after any calls. -/
def Settled (a : Audit) : Prop :=
  (∃ B U, Flight mcWindow a.conn.tx a.written.length B U) ∧ Rested a.conn

theorem Settled.step {a : Audit} (h : Settled a) (st : Step) : Settled (a.step mcWindow st) := by
  obtain ⟨⟨B, U, hf⟩, hr⟩ := h
  obtain ⟨B', U', -, hf'⟩ := hf.step (by decide) (applyIn_tx mcWindow a.conn st)
  refine ⟨⟨B', U', ?_⟩, hr.step hf st⟩
  rw [Audit.step, List.length_append]
  exact hf'

/-- **A SYN that starts a session** gives a fresh one exactly if nothing is left. -/
theorem starts_fresh_iff {a : Audit} (h : Settled a) {st : Step} (hs : StartsSession a.conn st) :
    FreshSession (st.applyIn mcWindow a.conn) ↔ NothingLeft a := by
  obtain ⟨⟨B, U, hf⟩, hr⟩ := h
  rw [← fresh_iff hf hr]
  cases st with
  | feed pkt source =>
    obtain ⟨htx, hrx⟩ := mcFeed_closed pkt source hs.1
    have hc : (Step.feed pkt source).applyIn mcWindow a.conn = (mcFeed a.conn pkt source).2 := rfl
    rw [hc]
    obtain ⟨-, h2, h3, h4, h5, h6⟩ := Tx.ext_iff.1 htx
    simp only [Mc.tx] at h2 h3 h4 h5 h6
    constructor
    · intro hfresh
      exact ⟨h2 ▸ hfresh.base, h4 ▸ hfresh.unsent, h3 ▸ hfresh.next, hrx ▸ hfresh.received,
        h5 ▸ hfresh.attempts, h6 ▸ hfresh.ring⟩
    · intro hfresh
      exact ⟨h2.trans hfresh.base, h4.trans hfresh.unsent, h3.trans hfresh.next,
        hrx.trans hfresh.received, h5.trans hfresh.attempts, h6.trans hfresh.ring⟩
  | _ => exact hs.elim

theorem FreshSession.silent {c : Mc} (h : FreshSession c) (cap : Nat) :
    (sendData mcWindow cap c).2 = header c.remoteId 4 0 := by
  simp [sendData, h.next, h.unsent, h.received, h.ring, sendRel, sendUnrel]

/-- A fresh session takes the first message of a new client. -/
theorem FreshSession.hears {c : Mc} (h : FreshSession c) {i : ChanId} (hu : (c.chan i).used = true)
    (hroom : rxqFull (c.chan i) = false) (data : List UInt8) :
    ((deliver c (idByte i) mtRel 0 data).chan i).rxq = (c.chan i).rxq ++ [data.take mcMaxmsg] ∧
      (deliver c (idByte i) mtRel 0 data).rxNext = 1 := by
  have hi : chanById c (idByte i) = some i := chanById_idByte (by simp [kind, hu])
  have hd : deliver c (idByte i) mtRel 0 data =
      { pushData c i data with rxNext := (pushData c i data).rxNext + 1, ackPending := true } := by
    rw [deliver, if_pos rfl, if_pos h.received.symm, hi]
    dsimp only
    rw [if_neg (by simp [hroom])]
  rw [hd]
  constructor
  · show ((pushData c i data).chan i).rxq = _
    rw [rxq_pushData, if_pos ⟨rfl, hroom⟩]
  · show (pushData c i data).rxNext + 1 = 1
    rw [pushData, evPush_eq]
    show c.rxNext + 1 = 1
    rw [h.received]
    rfl

/-- **A session starts fresh**, in any run of a server connection, exactly if every SYN that starts
one finds nothing left; and a fresh session sends nothing of an earlier one and takes the first
message of its client. -/
theorem syn_starts_fresh (r : UInt32) (sts : List Step) :
    (Along (Audit.step mcWindow)
        (fun a st => StartsSession a.conn st → FreshSession (st.applyIn mcWindow a.conn))
        ⟨mcOpen true r, []⟩ sts ↔
      Along (Audit.step mcWindow) (fun a st => StartsSession a.conn st → NothingLeft a)
        ⟨mcOpen true r, []⟩ sts) ∧
    ∀ c, FreshSession c →
      (∀ cap, (sendData mcWindow cap c).2 = header c.remoteId 4 0) ∧
      ∀ i data, (c.chan i).used = true → rxqFull (c.chan i) = false →
        ((deliver c (idByte i) mtRel 0 data).chan i).rxq =
            (c.chan i).rxq ++ [data.take mcMaxmsg] ∧
          (deliver c (idByte i) mtRel 0 data).rxNext = 1 := by
  refine ⟨?_, fun c h => ⟨h.silent, fun i data hu hroom => h.hears hu hroom data⟩⟩
  have hstart : Settled ⟨mcOpen true r, []⟩ :=
    ⟨⟨0, 0, rfl, rfl, rfl, Nat.le_refl _, Nat.le_refl _, Nat.zero_le _⟩, fun _ => rfl⟩
  refine along_congr (A := fun _ _ => True) (I := Settled) (fun a st ha _ => ?_)
    (fun a st ha _ _ => ha.step st) hstart (along_true sts)
  constructor
  · intro h hs
    exact (starts_fresh_iff ha hs).1 (h hs)
  · intro h hs
    exact (starts_fresh_iff ha hs).2 (h hs)

/-- A SYN from the client with this id. -/
def synOf (id : UInt32) : List UInt8 := header 0 1 0 ++ wr32 id

/-- A server's first session: the client's first message is read, one for the client waits, and the
client leaves. -/
def firstSession : List Step :=
  [.chanOpen .reliable, .feed (synOf 21) (some [1]), .feed (header 7 3 0) (some [1]),
    .feed (header 7 4 0 ++ record 0 1 0 [9]) (some [1]), .read 0 546, .write 0 [5], .sendNext 546,
    .feed (header 7 5 0) (some [1])]

/-- The second client's first message is taken for an old one, and its first packet has the message
that was written for the client before. -/
theorem second_session_deaf :
    let a := audit mcWindow true 7 firstSession
    let c := (mcFeed a.conn (synOf 22) (some [2])).2
    let d := (mcFeed c (header 7 4 0 ++ record 0 1 0 [9]) (some [2])).2
    a.conn.state = .closed ∧ c.state = .connecting ∧ c.rxNext = 1 ∧ c.txUnsent ≠ c.txNext ∧
      (d.chan 0).rxq = [] ∧
      (mcSendNext mcWindow (mcSendNext mcWindow d 546).1 546).2.map (fun p => (p.1.drop mcHdr, p.2)) =
        some (record 0 1 0 [5], [2]) := by
  decide +kernel

end Netchan.Micro
