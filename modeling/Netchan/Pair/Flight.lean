import Mathlib.Algebra.BigOperators.Group.Finset.Piecewise
import Mathlib.Algebra.Order.BigOperators.Group.Finset
import Netchan.Pair.Slots

/-!
# Bytes in flight

The outgoing slots in use lie between `out_head` and `out_tail`, and on a reliable channel
`bytes_in_flight` is the sum of their lengths (`Sender.Flight`). Every step keeps this
(`flight_call`, `flight_frame`, `flight_emit`); a channel whose messages are all acknowledged
therefore has no bytes in flight.
-/

namespace Netchan

open Lib

/-- The bytes of the messages in use. -/
def Sender.held (s : Sender) : Nat :=
  ∑ k, if (s.outgoing k).active then (s.outgoing k).len else 0

structure Sender.Flight (s : Sender) (type : ChanType) : Prop where
  window : ∀ k, (s.outgoing k).active = true → Between s.outHead s.outTail k
  bytes : type = .reliable → s.bytesInFlight.toNat = s.held

theorem Sender.Flight.empty (type : ChanType) : Sender.Flight {} type :=
  ⟨by simp, fun _ => by simp [Sender.held]⟩

section
variable {s : Sender} {type : ChanType}

/-- The messages fit in their buffers, so their lengths do not overflow. -/
theorem held_lt (h : ∀ k, (s.outgoing k).active = true → (s.outgoing k).len ≤ ncMaxMsg) :
    s.held ≤ ncOutgoingSlots * ncMaxMsg := by
  have := Finset.sum_le_card_nsmul Finset.univ
    (fun k => if (s.outgoing k).active then (s.outgoing k).len else 0) ncMaxMsg fun k _ => by
      split
      · exact h k ‹_›
      · exact Nat.zero_le _
  simpa [Sender.held] using this

theorem held_update {o : Outgoing} {k : Fin ncOutgoingSlots} {r : Sender}
    (h : r.outgoing = Function.update s.outgoing k o) :
    r.held + (if (s.outgoing k).active then (s.outgoing k).len else 0) =
      s.held + (if o.active then o.len else 0) := by
  have hs' : (fun i => if (r.outgoing i).active then (r.outgoing i).len else 0) =
      Function.update (fun i => if (s.outgoing i).active then (s.outgoing i).len else 0) k
        (if o.active then o.len else 0) := by
    funext i
    rw [h]
    by_cases hi : i = k
    · subst hi
      simp
    · simp [Function.update_of_ne hi]
  simp only [Sender.held]
  rw [hs', Finset.sum_update_of_mem (Finset.mem_univ k),
    ← Finset.add_sum_erase _ (fun i => if (s.outgoing i).active then (s.outgoing i).len else 0)
      (Finset.mem_univ k), Finset.erase_eq]
  omega

/-- Slots changed, but not which of them are in use and how long their messages are. -/
theorem Sender.Flight.congr {s' : Sender} (h : s.Flight type)
    (hs : ∀ k, (s'.outgoing k).active = (s.outgoing k).active ∧
      (s'.outgoing k).len = (s.outgoing k).len)
    (hh : s'.outHead = s.outHead) (ht : s'.outTail = s.outTail)
    (hb : s'.bytesInFlight = s.bytesInFlight) : s'.Flight type := by
  refine ⟨fun k hk => ?_, fun hr => ?_⟩
  · rw [hh, ht]
    exact h.window k ((hs k).1 ▸ hk)
  · rw [hb, h.bytes hr]
    simp only [Sender.held, hs]

theorem ackScan_fields (acked : UInt16) : ∀ (l : List (Fin ncOutgoingSlots)) (p : Pool) (s : Sender),
    (l.foldl (ackSlot acked) (p, s)).2.sendSeq = s.sendSeq ∧
      (l.foldl (ackSlot acked) (p, s)).2.sendWindow = s.sendWindow ∧
      (l.foldl (ackSlot acked) (p, s)).2.outHead = s.outHead ∧
      (l.foldl (ackSlot acked) (p, s)).2.outTail = s.outTail
  | [], _, _ => ⟨rfl, rfl, rfl, rfl⟩
  | k :: l, p, s => by
    have h := ackScan_fields acked l (ackSlot acked (p, s) k).1 (ackSlot acked (p, s) k).2
    have hk : (ackSlot acked (p, s) k).2.sendSeq = s.sendSeq ∧
        (ackSlot acked (p, s) k).2.sendWindow = s.sendWindow ∧
        (ackSlot acked (p, s) k).2.outHead = s.outHead ∧
        (ackSlot acked (p, s) k).2.outTail = s.outTail := by
      unfold ackSlot
      dsimp only
      split <;> exact ⟨rfl, rfl, rfl, rfl⟩
    exact ⟨h.1.trans hk.1, h.2.1.trans hk.2.1, h.2.2.1.trans hk.2.2.1, h.2.2.2.trans hk.2.2.2⟩

theorem ackedSnd_fields (p : Pool) (s : Sender) (acked : UInt16) :
    (ackedSnd p s acked).sendSeq = s.sendSeq ∧
      (ackedSnd p s acked).sendWindow = s.sendWindow ∧
      (ackedSnd p s acked).outTail = s.outTail := by
  unfold ackedSnd
  obtain ⟨h1, h2, -, h4⟩ := ackScan_fields acked (List.finRange ncOutgoingSlots) p s
  obtain ⟨h1', h2', h4', -⟩ := outAdvance_fields ncOutgoingSlots
    ((List.finRange ncOutgoingSlots).foldl (ackSlot acked) (p, s)).2
  exact ⟨h1'.trans h1, h2'.trans h2, h4'.trans h4⟩

theorem flight_advance (h : s.Flight type) (fuel : Nat) : (outAdvance fuel s).Flight type := by
  rw [outAdvance_eq]
  exact ⟨outAdvance_window fuel s h.window, h.bytes⟩

theorem flight_release {s' : Sender} {k : Fin ncOutgoingSlots} {o : Outgoing} (h : s.Flight type)
    (ha : (s.outgoing k).active = true) (hn : o.active = false)
    (hs : s'.outgoing = Function.update s.outgoing k o) (hh : s'.outHead = s.outHead)
    (ht : s'.outTail = s.outTail)
    (hb : type = .reliable → s'.bytesInFlight = s.bytesInFlight - UInt32.ofNat (s.outgoing k).len) :
    s'.Flight type := by
  refine ⟨fun i hi => ?_, fun hr => ?_⟩
  · rw [hh, ht]
    rw [hs] at hi
    by_cases he : i = k
    · subst he
      simp [hn] at hi
    · rw [Function.update_of_ne he] at hi
      exact h.window i hi
  · have hheld := held_update hs
    rw [if_pos ha, hn, if_neg (by simp), Nat.add_zero] at hheld
    have hbytes := h.bytes hr
    have hlt := s.bytesInFlight.toNat_lt
    rw [hb hr, UInt32.toNat_sub_of_le]
    · rw [UInt32.toNat_ofNat_of_lt' (by simp only [UInt32.size]; omega)]
      omega
    · rw [UInt32.le_iff_toNat_le, UInt32.toNat_ofNat_of_lt' (by simp only [UInt32.size]; omega)]
      omega

theorem flight_ackScan (acked : UInt16) : ∀ (l : List (Fin ncOutgoingSlots)) (p : Pool) (s : Sender),
    s.Flight type → (l.foldl (ackSlot acked) (p, s)).2.Flight type
  | [], _, _, h => h
  | k :: l, p, s, h => by
    refine flight_ackScan acked l (ackSlot acked (p, s) k).1 (ackSlot acked (p, s) k).2 ?_
    unfold ackSlot
    dsimp only
    split
    · rename_i hg
      exact flight_release h hg.1 rfl rfl rfl rfl fun _ => rfl
    · exact h

theorem flight_acked {p : Pool} (h : s.Flight type) (acked : UInt16) :
    (ackedSnd p s acked).Flight type := by
  unfold ackedSnd
  exact flight_advance (flight_ackScan acked _ p s h) _

/-- **What a sent fragment leaves in flight.** -/
theorem flight_sent {now : UInt32} {p : Pool} {ch : Chan} {k : Fin ncOutgoingSlots}
    (h : ch.snd.Flight ch.type) (ha : (ch.snd.outgoing k).active = true) :
    (chanSent now p ch k).2.snd.Flight ch.type := by
  unfold chanSent
  dsimp only
  split
  · rename_i hg
    refine flight_advance ?_ _
    refine flight_release h ha rfl rfl rfl rfl fun hr => ?_
    rw [hr] at hg
    cases hg.2
  · refine h.congr (fun i => ?_) rfl rfl rfl
    by_cases hi : i = k
    · subst hi
      simp [Outgoing.sent]
    · simp [Function.update_of_ne hi]

theorem flight_timed {cfg : Cfg} {now : UInt32} {ch : Chan} (h : ch.snd.Flight ch.type) :
    (chanTimed cfg now ch).snd.Flight ch.type := by
  have hslots := fun k => chanTimed_slots cfg now ch k
  have hrest : (chanTimed cfg now ch).snd.outHead = ch.snd.outHead ∧
      (chanTimed cfg now ch).snd.outTail = ch.snd.outTail ∧
      (chanTimed cfg now ch).snd.bytesInFlight = ch.snd.bytesInFlight := by
    unfold chanTimed
    split
    · exact ⟨rfl, rfl, rfl⟩
    · obtain ⟨-, ⟨m, he⟩, -⟩ := serviceSlots_cases cfg now _ ch.snd 0
        (List.nodup_finRange ncOutgoingSlots)
      dsimp only
      rw [he]
      exact ⟨rfl, rfl, rfl⟩
  refine h.congr (fun k => ?_) hrest.1 hrest.2.1 hrest.2.2
  rcases hslots k with he | ⟨-, -, -, he⟩ <;> rw [he] <;> exact ⟨rfl, rfl⟩

theorem tail_inactive (h : s.Flight type) : (s.outgoing s.outTail).active = false := by
  by_contra hc
  exact not_between_end (h.window _ (by simpa using hc))

theorem flight_written {c : Conn} {id : ChanId} {ch : Chan} {data : List UInt8} {b : BufIdx}
    {p : Pool} (h : ch.snd.Flight ch.type)
    (hlen : ∀ k, (ch.snd.outgoing k).active = true → (ch.snd.outgoing k).len ≤ ncMaxMsg)
    (hw : CanWrite c id data ch b p) : (writtenChan c ch b data).snd.Flight ch.type := by
  have hta := tail_inactive h
  refine ⟨fun k hk => ?_, fun hr => ?_⟩
  · refine (between_push (by decide) hw.room).2 ?_
    by_cases he : k = ch.snd.outTail
    · exact .inr he
    · simp only [writtenChan, Function.update_of_ne he] at hk
      exact .inl (h.window k hk)
  · have hheld := held_update (s := ch.snd) (r := (writtenChan c ch b data).snd)
      (k := ch.snd.outTail) rfl
    rw [hta, if_neg (by simp), if_pos rfl, Nat.add_zero] at hheld
    have hb := h.bytes hr
    have hmax := held_lt hlen
    have hsmall := hw.small
    simp only [ncOutgoingSlots, ncMaxMsg] at hmax hsmall
    rw [hheld, ← hb]
    simp only [writtenChan, if_pos hr]
    rw [UInt32.toNat_add, UInt32.toNat_ofNat_of_lt' (by simp only [UInt32.size]; omega),
      Nat.mod_eq_of_lt (by omega)]

theorem flight_skipped {ch : Chan} (h : ch.snd.Flight ch.type) :
    (skippedChan ch).snd.Flight ch.type := by
  have hta := tail_inactive h
  refine ⟨fun k hk => ?_, fun hr => ?_⟩
  · by_cases he : k = ch.snd.outTail
    · subst he
      simp [skippedChan] at hk
    · simp only [skippedChan, Function.update_of_ne he] at hk
      exact h.window k hk
  · have hheld := held_update (s := ch.snd) (r := (skippedChan ch).snd) (k := ch.snd.outTail)
      (o := {}) rfl
    rw [hta, if_neg (by simp), if_neg (by simp)] at hheld
    rw [show (skippedChan ch).snd.held = ch.snd.held by omega]
    exact h.bytes hr

end

/-! ## Every step -/

/-- The bytes in flight of every channel are right. -/
def FlightOk (c : Conn) : Prop := ∀ id ch, c.channels id = some ch → ch.snd.Flight ch.type

section
variable {c c' : Conn}

theorem FlightOk.kept {Q : ChanId → Chan → Chan → Prop} (h : FlightOk c)
    (hk : ∀ id, ChanKept c c' id (Q id))
    (hQ : ∀ id ch ch', c.channels id = some ch → Q id ch ch' → ch.snd.Flight ch.type →
      ch'.snd.Flight ch'.type) : FlightOk c' := by
  intro id ch' hc'
  rcases (hk id).2 ch' hc' with ⟨-, hnew⟩ | ⟨ch, hc, hq⟩
  · rw [hnew.snd]
    exact .empty _
  · exact hQ id ch ch' hc hq (h id ch hc)

theorem flight_call {server : Bool} (hs : Sound server c) (h : FlightOk c) (k : Call) :
    FlightOk (k.apply c) := by
  refine h.kept (fun id => call_effect c k id) fun id ch ch' hc hq hf => ?_
  cases hq with
  | timed hg =>
    rw [(chanTimed_rcv c.cfg _ ch).1.type]
    exact flight_timed hf
  | written hw hfr ha => exact flight_written hf (fun i hi => (hs.cut id ch hc i hi).small) hw
  | skipped hw hfr ha => exact flight_skipped hf
  | _ => exact hf

theorem flight_frame (h : FlightOk c) (env : Env) (f : Frame) : FlightOk (stepFrame env c f) := by
  refine h.kept (fun id => frame_effect env c f id) fun id ch ch' hc hq hf => ?_
  cases hq with
  | ack hr => exact flight_acked (p := c.pool) hf _
  | window hr => exact hf.congr (fun _ => ⟨rfl, rfl⟩) rfl rfl rfl
  | _ => exact hf

theorem flight_emit {server : Bool} {now : UInt32} {f : Frame} (hs : Sound server c)
    (h : FlightOk c) (he : Emit now c f c') : FlightOk c' := by
  refine h.kept (fun id => emit_effect he hs.ids id) fun id ch ch' hc hq hf => ?_
  cases hq with
  | data hsl =>
    obtain ⟨-, hact, -⟩ := chanNextSendable_spec (chanSendSlot_spec hsl).2.2
    rw [(chanSent_rcv now c.pool ch _).1.type]
    exact flight_sent hf hact
  | _ => exact hf

end

end Netchan
