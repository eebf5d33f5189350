import Netchan.Micro.Arrays
import Netchan.Micro.Slots

/-!
# The window pointers of a microchan connection

`tx_base`, `tx_unsent` and `tx_next` are 16-bit numbers that wrap. Writes, packets, acknowledgements
and the retransmit timer move them, and an acknowledgement comes from the wire as it is.
`pointers_ordered`: in every run they stay in this order within a window, the loop of `process_ack`
ends on every number before it passes `tx_next`, and heads and counts stay within their arrays.
-/

namespace Netchan.Micro

open Lib

/-! ## The loop of `process_ack` -/

/-- The loop of `process_ack` starts at `tx_base`, takes `n` rounds and stops there. -/
inductive AckRounds (ack txNext : UInt16) : UInt16 → Nat → UInt16 → Prop
  | stop {b : UInt16} (h : ¬(b ≠ txNext ∧ seqAfter ack b)) : AckRounds ack txNext b 0 b
  | round {b b' : UInt16} {n : Nat} (h : b ≠ txNext ∧ seqAfter ack b)
      (hr : AckRounds ack txNext (b + 1) n b') : AckRounds ack txNext b (n + 1) b'

theorem toNat_sub_succ {b n : UInt16} (h : b ≠ n) : (n - (b + 1)).toNat + 1 = (n - b).toNat := by
  have hne : b.toNat ≠ n.toNat := fun he => h (UInt16.toNat_inj.1 he)
  have hb := b.toNat_lt
  have hn := n.toNat_lt
  have hone : (b + 1).toNat = (b.toNat + 1) % 2 ^ 16 := UInt16.toNat_add b 1
  rw [UInt16.toNat_sub, UInt16.toNat_sub, hone]
  omega

theorem eq_of_toNat_sub {b n : UInt16} (h : (n - b).toNat = 0) : b = n := by
  have h0 : n - b = 0 := UInt16.toNat_inj.1 h
  rw [UInt16.sub_eq_iff_eq_add.1 h0, UInt16.zero_add]

/-- The rounds move `tx_base` on by one each. -/
theorem AckRounds.moves {ack txNext b b' : UInt16} {n : Nat} (h : AckRounds ack txNext b n b') :
    b' = b + UInt16.ofNat n := by
  induction h with
  | stop h => exact (UInt16.add_zero _).symm
  | round h hr ih => rw [ih, ← ofNat_succ, UInt16.add_assoc, UInt16.add_comm 1]

/-- **The loop ends**, and not beyond `tx_next`. -/
theorem ackLoop_rounds (ack txNext : UInt16) : ∀ (fuel : Nat) (b : UInt16),
    (txNext - b).toNat = fuel → ∃ n ≤ fuel, AckRounds ack txNext b n (ackLoop ack txNext fuel b)
  | 0, _, h => ⟨0, Nat.le_refl _, .stop fun hgo => hgo.1 (eq_of_toNat_sub h)⟩
  | fuel + 1, b, h => by
    unfold ackLoop
    split
    · rename_i hgo
      have hs := toNat_sub_succ hgo.1
      obtain ⟨n, hn, hr⟩ := ackLoop_rounds ack txNext fuel (b + 1) (by omega)
      exact ⟨n + 1, Nat.succ_le_succ hn, .round hgo hr⟩
    · rename_i hstop
      exact ⟨0, Nat.zero_le _, .stop hstop⟩

theorem processAck_base (c : Mc) (ack : UInt16) :
    (processAck c ack).txBase = ackLoop ack c.txNext (c.txNext - c.txBase).toNat c.txBase := by
  unfold processAck
  dsimp only
  split
  · rfl
  · rename_i h
    exact (not_not.1 h).symm

/-! ## Runs -/

/-- What `pointers_ordered` says of a state. -/
structure Pointers (r : Raw) : Prop where
  ordered : (r.conn.txUnsent - r.conn.txBase).toNat ≤ (r.conn.txNext - r.conn.txBase).toNat
  window : (r.conn.txNext - r.conn.txBase).toNat ≤ mcWindow
  /-- Whatever number arrives, the loop ends within the messages in flight. -/
  acks : ∀ ack, ∃ n ≤ (r.conn.txNext - r.conn.txBase).toNat,
    AckRounds ack r.conn.txNext r.conn.txBase n (processAck r.conn ack).txBase ∧
    (processAck r.conn ack).txBase = r.conn.txBase + UInt16.ofNat n
  rings : r.Ok

theorem audit_conn (isServer : Bool) (rand : UInt32) (sts : List Step) :
    (audit mcWindow isServer rand sts).conn = run Step.apply (mcOpen isServer rand) sts := by
  refine run_simulates (R := fun (a : Audit) c => a.conn = c) (fun a c st h => ?_) rfl sts
  rw [← h]
  exact applyIn_default a.conn st

/-- **The window pointers stay ordered** in every run, whatever is fed. -/
theorem pointers_ordered (isServer : Bool) (rand : UInt32) (sts : List Step) :
    Pointers (Raw.after isServer rand sts) := by
  have hs := Raw.after_shows isServer rand sts
  generalize Raw.after isServer rand sts = r at hs
  have hwin : mcWindow ≤ 32767 := by decide
  obtain ⟨B, U, hf⟩ := flight_run hwin isServer rand sts
  rw [audit_conn, ← hs.view] at hf
  have hbase : r.conn.txBase = UInt16.ofNat B := hf.base
  have hnext : r.conn.txNext = UInt16.ofNat _ := hf.next
  have hunsent : r.conn.txUnsent = UInt16.ofNat U := hf.unsent
  generalize (audit mcWindow isServer rand sts).written.length = L at hf hnext
  have hlo := hf.lo
  have hmid := hf.mid
  have hhi : L ≤ B + 8 := hf.hi
  have hflight : (r.conn.txNext - r.conn.txBase).toNat = L - B := by
    rw [hbase, hnext, toNat_sub_of_le (hlo.trans hmid) (by omega)]
  have hsent : (r.conn.txUnsent - r.conn.txBase).toNat = U - B := by
    rw [hbase, hunsent, toNat_sub_of_le hlo (by omega)]
  refine ⟨by omega, ?_, fun ack => ?_, hs.ok⟩
  · show _ ≤ 8
    omega
  · obtain ⟨n, hn, hr⟩ := ackLoop_rounds ack r.conn.txNext _ r.conn.txBase rfl
    rw [processAck_base]
    exact ⟨n, hn, hr, hr.moves⟩

end Netchan.Micro
