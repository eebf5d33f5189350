import Netchan.Micro.Step

/-!
# Rejected datagrams

`mc_feed` notes the time of a datagram before it looks at the type, the id and the length, so seven
of its eight rejecting exits leave `last_recv` moved. `mcFeed_rejected` says that nothing else is
touched; `rejected_no_effect`, over whole runs, that a rejected datagram has no effect exactly when
it is too short for a header or arrives when something was received at this very moment anyway.
`stray_keeps_alive` is a dead session that a datagram of another connection keeps alive.
-/

namespace Netchan.Micro

open Lib

/-! ## One datagram -/

section
variable {c : Mc} {pkt : List UInt8} {source : Option Addr}

/-- A case of `mc_feed` rejects the datagram, and then the connection is what it was, or takes it. -/
def RejectsAs (c : Mc) (r : Except Err Unit × Mc) : Prop := r.1 = .error .proto → r.2 = c

theorem rejectsAs_error (c : Mc) (e : Err) : RejectsAs c (.error e, c) := fun _ => rfl

theorem rejectsAs_ok (c d : Mc) : RejectsAs c (.ok (), d) := fun h => by cases h

theorem feedSyn_rejects : RejectsAs c (feedSyn c pkt source) := by
  unfold feedSyn
  split
  · exact rejectsAs_error c _
  split
  · exact rejectsAs_error c _
  · exact rejectsAs_ok c _

theorem feedSynack_rejects : RejectsAs c (feedSynack c pkt source) := by
  unfold feedSynack
  split
  · exact rejectsAs_error c _
  split
  · exact rejectsAs_error c _
  · exact rejectsAs_ok c _

theorem feedAck_rejects : RejectsAs c (feedAck c pkt) := by
  unfold feedAck
  split
  · exact rejectsAs_error c _
  split
  · exact rejectsAs_ok c _
  · exact rejectsAs_ok c _

theorem feedData_rejects : RejectsAs c (feedData c pkt) := by
  unfold feedData
  split
  · exact rejectsAs_error c _
  dsimp only
  split
  · exact rejectsAs_ok c _
  · exact rejectsAs_ok c _

theorem feedFin_rejects : RejectsAs c (feedFin c pkt) := by
  unfold feedFin
  split
  · exact rejectsAs_error c _
  split
  · exact rejectsAs_ok c _
  · exact rejectsAs_ok c _

/-- **A rejected datagram** leaves everything alone but the time of the last one, and that too if
it has no header. -/
theorem mcFeed_rejected (h : (mcFeed c pkt source).1 = .error .proto) :
    (mcFeed c pkt source).2 = if pkt.length < mcHdr then c else { c with lastRecv := c.now } := by
  revert h
  unfold mcFeed
  split
  · exact fun _ => rfl
  dsimp only
  split
  · exact feedSyn_rejects
  · exact feedSynack_rejects
  · exact feedAck_rejects
  · exact feedData_rejects
  · exact feedFin_rejects
  · exact rejectsAs_error _ _

/-- A datagram that changes nothing when it is rejected: it has no header, or something was
received at this moment already. -/
def Harmless (c : Mc) (pkt : List UInt8) : Prop := pkt.length < mcHdr ∨ c.lastRecv = c.now

theorem rejected_same (h : (mcFeed c pkt source).1 = .error .proto) :
    (mcFeed c pkt source).2 = c ↔ Harmless c pkt := by
  rw [mcFeed_rejected h]
  by_cases hlen : pkt.length < mcHdr
  · rw [if_pos hlen]
    exact ⟨fun _ => .inl hlen, fun _ => rfl⟩
  rw [if_neg hlen]
  constructor
  · intro he
    have hr : c.now = c.lastRecv := congrArg Mc.lastRecv he
    exact .inr hr.symm
  · intro hc
    have hr : c.lastRecv = c.now := hc.resolve_left hlen
    exact congrArg (fun t => { c with lastRecv := t }) hr.symm

end

/-! ## Whole runs -/

/-- The call is a datagram that `mc_feed` rejects. -/
def Rejects (c : Mc) : Step → Prop
  | .feed pkt source => (mcFeed c pkt source).1 = .error .proto
  | _ => False

/-- A rejected datagram is a harmless one. -/
def OnlyHarmless (c : Mc) : Step → Prop
  | .feed pkt source => (mcFeed c pkt source).1 = .error .proto → Harmless c pkt
  | _ => True

theorem rejects_same (c : Mc) (st : Step) :
    (Rejects c st → st.apply c = c) ↔ OnlyHarmless c st := by
  cases st with
  | feed pkt source =>
    constructor
    · intro h hr
      exact (rejected_same hr).1 (h hr)
    · intro h hr
      exact (rejected_same hr).2 (h hr)
  | _ => exact ⟨fun _ => trivial, fun _ hr => hr.elim⟩

/-- **Rejected datagrams have no effect**, in a run of any calls, exactly if each of them is too
short for a header or comes when `last_recv` is the time of the clock already. -/
theorem rejected_no_effect (isServer : Bool) (r : UInt32) (sts : List Step) :
    Along Step.apply (fun c st => Rejects c st → st.apply c = c) (mcOpen isServer r) sts ↔
      Along Step.apply OnlyHarmless (mcOpen isServer r) sts := by
  constructor
  · intro h
    exact h.mono fun c st hs => (rejects_same c st).1 hs
  · intro h
    exact h.mono fun c st hs => (rejects_same c st).2 hs

/-- A client that was connected at time 0 and has heard nothing since. -/
def silentClient : Mc :=
  run Step.apply (mcOpen false 7)
    [.connect [1], .feed (header 7 2 0 ++ wr32 11) (some [1]), .service 10000]

/-- A DATA packet of another connection, rejected after ten seconds of silence, keeps the session
that would have ended a moment later. -/
theorem stray_keeps_alive :
    (mcFeed silentClient (header 8 4 0) none).1 = .error .proto ∧
      (mcFeed silentClient (header 8 4 0) none).2.lastRecv ≠ silentClient.lastRecv ∧
      (mcService silentClient 10001).2.state = .closed ∧
      (mcService (mcFeed silentClient (header 8 4 0) none).2 10001).2.state = .connected := by
  decide +kernel

end Netchan.Micro
