import Netchan.Pair.Channels
import Netchan.Pair.Flight

/-!
# The in-flight counter

`netchan_chan_write` adds a message to `bytes_in_flight` only on a RELIABLE channel, `process_ack`
takes every message off that it frees. `flight_exact`: in every run of two ends in which no
acknowledgement frees a message of a STREAM channel, the counter of each sending channel is the sum
of the messages that were added and are still in use, and no subtraction takes it below 0.
An UNRELIABLE channel is never acknowledged: the ends agree on its type, and its receiver asks for
no acknowledgement. `stream_ack_underflows`: the first message of a STREAM channel that is
acknowledged wraps the counter.
-/

namespace Netchan

open Lib

/-! ## Acknowledgements -/

/-- The message in a slot is freed by the acknowledgement. -/
def Outgoing.Covered (o : Outgoing) (acked : UInt16) : Prop :=
  o.active = true ∧ int16 (o.seq - acked) ≤ 0

instance (o : Outgoing) (acked : UInt16) : Decidable (o.Covered acked) :=
  inferInstanceAs (Decidable (_ ∧ _))

/-- The acknowledgement frees no message. -/
def Sender.Spared (s : Sender) (acked : UInt16) : Prop := ∀ k, ¬ (s.outgoing k).Covered acked

instance (s : Sender) (acked : UInt16) : Decidable (s.Spared acked) :=
  inferInstanceAs (Decidable (∀ _, _))

/-- No step of the scan takes more off the counter than it holds. -/
def Sender.NoUnderflow (s : Sender) (acked : UInt16) : Prop :=
  ∀ (p : Pool) (l r : List (Fin ncOutgoingSlots)) (k : Fin ncOutgoingSlots),
    List.finRange ncOutgoingSlots = l ++ k :: r →
    ((l.foldl (ackSlot acked) (p, s)).2.outgoing k).Covered acked →
      ((l.foldl (ackSlot acked) (p, s)).2.outgoing k).len ≤
        (l.foldl (ackSlot acked) (p, s)).2.bytesInFlight.toNat

section
variable {s : Sender} {acked : UInt16}

theorem ackScan_spared (h : s.Spared acked) (p : Pool) : ∀ l : List (Fin ncOutgoingSlots),
    l.foldl (ackSlot acked) (p, s) = (p, s)
  | [] => rfl
  | k :: l => by
    have hk : ackSlot acked (p, s) k = (p, s) := if_neg (h k)
    rw [List.foldl_cons, hk]
    exact ackScan_spared h p l

theorem ackedSnd_spared (h : s.Spared acked) (p : Pool) :
    (ackedSnd p s acked).bytesInFlight = s.bytesInFlight := by
  unfold ackedSnd
  rw [ackScan_spared h, outAdvance_eq]

theorem noUnderflow_spared (h : s.Spared acked) : s.NoUnderflow acked := by
  intro p l r k _ hk
  rw [ackScan_spared h] at hk
  exact absurd hk (h k)

/-- What is in flight is at least as much as each message. -/
theorem noUnderflow_reliable (h : s.Flight .reliable) : s.NoUnderflow acked := by
  intro p l r k _ hk
  have hl := flight_ackScan acked l p s h
  generalize (l.foldl (ackSlot acked) (p, s)).2 = t at hl hk
  rw [hl.bytes rfl, Sender.held]
  have hsingle := Finset.single_le_sum
    (f := fun i => if (t.outgoing i).active then (t.outgoing i).len else 0)
    (fun i _ => Nat.zero_le _) (Finset.mem_univ k)
  rwa [if_pos hk.1] at hsingle

end

/-! ## One end -/

/-- A channel whose messages are not counted. -/
def ChanType.Free (t : ChanType) : Prop := t = .unreliable ∨ t = .stream

theorem ChanType.Free.ne {t : ChanType} (h : t.Free) : t ≠ .reliable := by
  rintro rfl
  rcases h with h | h
  · cases h
  · cases h

/-- The counters of an end, and the acknowledgements it owes. -/
structure CountOk (c : Conn) : Prop where
  flight : FlightOk c
  free : ∀ id ch, c.channels id = some ch → ch.type.Free → ch.snd.bytesInFlight = 0
  acks : ∀ id ch, c.channels id = some ch → ch.type = .unreliable → ch.rcv.needAck = false

theorem dataRcv_unreliable {c : Conn} {id : ChanId} {ch : Chan} (seq : UInt16) (idx total : Nat)
    (payload : List UInt8) (h : ch.type = .unreliable) :
    (dataRcv c id ch seq idx total payload).needAck = ch.rcv.needAck := by
  have hdel : ∀ (x : Rx) (data : List UInt8), (x.deliver id data).rcv.needAck = x.rcv.needAck := by
    intro x data
    unfold Rx.deliver chanRecvEnqueue
    dsimp only
    repeat' split
    all_goals rfl
  have hfrag : (fragStore (maxFragPayload c) (c.rx ch) seq idx total payload).1.rcv.needAck =
      ch.rcv.needAck := by
    rcases fragStore_cases (maxFragPayload c) (c.rx ch) seq idx total payload with
      ⟨-, he⟩ | ⟨i, x', hs, h'⟩
    · rw [he]
      rfl
    have hx : x'.rcv.needAck = ch.rcv.needAck := by
      rcases fragSlot_cases hs with ⟨rfl, -, -⟩ | ⟨b, p, -, -, -, -, rfl⟩
      · rfl
      · rfl
    rcases h' with ⟨-, he⟩ | ⟨-, ⟨-, he⟩ | ⟨-, he⟩⟩ <;> rw [he] <;> exact hx
  unfold dataRcv dataUnreliable
  rw [if_pos h]
  split
  · exact hdel (c.rx ch) payload
  split
  · rename_i x' he
    rwa [he] at hfrag
  · rename_i x' i pos he
    rw [he] at hfrag
    exact (hdel x' _).trans hfrag

section
variable {c c' : Conn}

/-- A step of the end: what it does to a channel is related by `Q`. -/
theorem CountOk.kept {Q : ChanId → Chan → Chan → Prop} (h : CountOk c) (hf : FlightOk c')
    (hk : ∀ id, ChanKept c c' id (Q id)) (hkind : ∀ id ch ch', Q id ch ch' → SameKind ch ch')
    (hbytes : ∀ id ch ch', c.channels id = some ch → Q id ch ch' → ch.type.Free →
      ch'.snd.bytesInFlight = ch.snd.bytesInFlight)
    (hack : ∀ id ch ch', c.channels id = some ch → Q id ch ch' → ch.type = .unreliable →
      ch'.rcv.needAck = true → ch.rcv.needAck = true) : CountOk c' := by
  refine ⟨hf, fun id ch' hc' ht => ?_, fun id ch' hc' ht => ?_⟩
  · rcases (hk id).2 ch' hc' with ⟨-, hnew⟩ | ⟨ch, hc, hq⟩
    · rw [hnew.snd]
    · rw [(hkind id ch ch' hq).type] at ht
      rw [hbytes id ch ch' hc hq ht]
      exact h.free id ch hc ht
  · rcases (hk id).2 ch' hc' with ⟨-, hnew⟩ | ⟨ch, hc, hq⟩
    · rw [hnew.rcv]
    · rw [(hkind id ch ch' hq).type] at ht
      have hno := h.acks id ch hc ht
      by_contra hn
      rw [hack id ch ch' hc hq ht (by simpa using hn)] at hno
      cases hno

theorem count_call {server : Bool} (hs : Sound server c) (h : CountOk c) (k : Call) :
    CountOk (k.apply c) := by
  refine h.kept (flight_call hs h.flight k) (fun id => call_effect c k id) (fun _ _ _ hq => hq.kind)
    (fun id ch ch' hc hq ht => ?_) fun id ch ch' hc hq ht hn => ?_
  · cases hq with
    | timed hg =>
      unfold chanTimed
      rw [if_pos (.inr ht.ne)]
    | written hw hf ha => exact if_neg ht.ne
    | skipped hw hf ha => rfl
    | _ => rfl
  · cases hq with
    | timed hg =>
      rw [(chanTimed_rcv c.cfg _ ch).2] at hn
      exact hn
    | _ => exact hn

theorem count_frame (h : CountOk c) (env : Env) {f : Frame}
    (hf : ∀ id acked, f = .ack id acked → ∀ ch, c.channels id = some ch → ch.role = .sender →
      ch.type.Free → ch.snd.Spared acked) : CountOk (stepFrame env c f) := by
  refine h.kept (flight_frame h.flight env f) (fun id => frame_effect env c f id)
    (fun _ _ _ hq => hq.kind) (fun id ch ch' hc hq ht => ?_) fun id ch ch' hc hq ht hn => ?_
  · cases hq with
    | ack hr => exact ackedSnd_spared (hf id _ rfl ch hc hr ht) c.pool
    | window hr => rfl
    | _ => rfl
  · cases hq with
    | data hr =>
      rw [← dataRcv_unreliable _ _ _ _ ht]
      exact hn
    | _ => exact hn

theorem count_emit {server : Bool} {now : UInt32} {f : Frame} (hs : Sound server c) (h : CountOk c)
    (he : Emit now c f c') : CountOk c' := by
  refine h.kept (flight_emit hs h.flight he) (fun id => emit_effect he hs.ids id)
    (fun _ _ _ hq => hq.kind) (fun id ch ch' hc hq ht => ?_) fun id ch ch' hc hq ht hn => ?_
  · cases hq with
    | data hsl =>
      unfold chanSent
      dsimp only
      split
      · rw [outAdvance_eq]
      · rfl
    | _ => rfl
  · cases hq with
    | data hsl =>
      rw [(chanSent_rcv now c.pool ch _).2] at hn
      exact hn
    | ack hn' => exact hn'
    | _ => exact hn

end

/-! ## The two ends -/

section
variable (lab : Side → ChanId → Option Label) (calls : Side → Call → Prop)

/-- An acknowledgement comes from a channel that is not UNRELIABLE. -/
def Frame.Acknowledges (s : Side) (log : Log) : Frame → Prop
  | .ack id _ => ∃ l : Label, l.type ≠ .unreliable ∧
    (OpenedBy lab calls log s id l ∨ OpenedBy lab calls log s.other id l.flip)
  | _ => True

/-- The counters are right, and only channels that are not UNRELIABLE are acknowledged. -/
def Accounted : Promise where
  inv x := ChansOk lab calls x ∧ ∀ s, CountOk (x.conn s)
  queued s log f := f.Announces lab calls s log ∧ ∀ id acked, f ≠ .ack id acked
  carried s log f := f.Announces lab calls s log ∧ f.Acknowledges lab calls s log

variable {lab calls} {x : Ends} {s : Side}

theorem acknowledged_type {stamp : Log} {id : ChanId} {acked : UInt16} {ch : Chan}
    (h : ChansOk lab calls x) (hf : (Frame.ack id acked).Acknowledges lab calls s.other stamp)
    (hc : (x.conn s).channels id = some ch) : ch.type ≠ .unreliable := by
  obtain ⟨l, hl, ho⟩ := hf
  rcases h.chans s id ch hc with hm | hm
  · rcases ho with ho | ho
    · exact absurd (ho.owns.unique hm.owns) s.other_ne
    · rw [Side.other_other] at ho
      have he : l.flip = ch.label := Option.some.inj (ho.label.symm.trans hm.label)
      have ht : l.type = ch.type := congrArg Label.type he
      rwa [← ht]
  · rcases ho with ho | ho
    · have he : l = ch.label.flip := Option.some.inj (ho.label.symm.trans hm.label)
      have ht : l.type = ch.type := congrArg Label.type he
      rwa [← ht]
    · rw [Side.other_other] at ho
      exact absurd (hm.owns.unique ho.owns) s.other_ne

theorem count_update (h : ∀ t, CountOk (x.conn t)) {c : Conn} (hc : CountOk c) (t : Side) :
    CountOk (Function.update x.conn s c t) := by
  by_cases ht : t = s
  · subst ht
    rwa [Function.update_self]
  · rw [Function.update_of_ne ht]
    exact h t

end

/-- The acknowledgement frees no message of a STREAM channel. -/
def SparesStream (c : Conn) : Frame → Prop
  | .ack id acked => ∀ ch ∈ c.channels id, ch.role = .sender → ch.type = .stream →
    ch.snd.Spared acked
  | _ => True

instance (c : Conn) : ∀ f : Frame, Decidable (SparesStream c f)
  | .ack id acked => inferInstanceAs (Decidable (∀ ch ∈ c.channels id, ch.role = .sender →
      ch.type = .stream → ch.snd.Spared acked))
  | .connectInit _ | .connectAccept _ _ _ | .connectRedirect _ _ | .disconnect _ | .ping _ | .pong _
  | .channelOpen _ _ _ _ | .channelClose _ _ | .data _ _ _ _ _ | .windowUpdate _ _ => .isTrue trivial

theorem accounted_kept (lab : Side → ChanId → Option Label) (calls : Side → Call → Prop) :
    (Accounted lab calls).Kept (Foreseen lab calls) (fun x s _ f => SparesStream (x.conn s) f) where
  grow hl h := ⟨h.1.mono hl, h.2⟩
  alike := by
    intro x y h hl ha
    refine ⟨announces_kept.alike h.1 hl ha, fun s => ?_⟩
    obtain ⟨h1, h2, h3⟩ := h.2 s
    exact ⟨fun id ch hc => h1 id ch ((ha s).channels ▸ hc),
      fun id ch hc => h2 id ch ((ha s).channels ▸ hc),
      fun id ch hc => h3 id ch ((ha s).channels ▸ hc)⟩
  called := by
    intro x s k hs h hok
    obtain ⟨h1, h2⟩ := announces_called h.1 hok
    refine ⟨⟨h1, count_update h.2 (count_call (hs s) (h.2 s) k)⟩, fun f hq => ⟨h2 f hq, ?_⟩⟩
    rintro id acked rfl
    cases hq
  heard := by
    intro x s env stamp f hs h hle hf hok
    refine ⟨⟨announces_heard h.1 hle hf.1, count_update h.2 (count_frame (h.2 s) env ?_)⟩,
      fun g hq => ⟨by cases hq <;> trivial, ?_⟩⟩
    · rintro id acked rfl ch hc hr (ht | ht)
      · exact absurd ht (acknowledged_type h.1 hf.2 hc)
      · exact hok ch hc hr ht
    · rintro id acked rfl
      cases hq
  flushed := by
    intro x s f h hq
    refine ⟨⟨announces_sent h.1 rfl fun _ => rfl, count_update h.2 (h.2 s)⟩,
      hq.1.mono (Log.le_frameSent ..), ?_⟩
    cases f with
    | ack id acked => exact absurd rfl (hq.2 id acked)
    | _ => trivial
  emitted := by
    intro x s now f c' hs h he
    refine ⟨⟨announces_sent h.1 (emit_cfg he).2.2 (emit_labels he),
      count_update h.2 (count_emit (hs s) (h.2 s) he)⟩, by cases he <;> trivial, ?_⟩
    cases he with
    | @ack id ch hc hn =>
      refine ⟨ch.label, fun ht => ?_, ?_⟩
      · rw [(h.2 s).acks id ch hc ht] at hn
        cases hn
      · rw [(hs s).ids id ch hc]
        exact (h.1.chans s id ch hc).imp (·.mono (Log.le_frameSent ..)) (·.mono (Log.le_frameSent ..))
    | window hc hn => trivial
    | data hc hsl => trivial
  transmitted h := ⟨h.1.congr (Log.le_transmitted ..) rfl h.1.next fun _ _ => rfl, h.2⟩

/-! ## Runs -/

/-- The bytes of a channel's messages in use that `netchan_chan_write` added to the counter. -/
def Chan.counted (ch : Chan) : Nat :=
  ∑ k, if (ch.snd.outgoing k).active = true ∧ ch.type = .reliable then (ch.snd.outgoing k).len else 0

/-- The counter of a sending channel is exact, and stays so whatever acknowledgement comes next. -/
structure Exact (w : World) (s : Side) (id : ChanId) (ch : Chan) : Prop where
  bytes : ch.snd.bytesInFlight.toNat = ch.counted
  unacked : ch.type = .unreliable → ∀ pkt ∈ w.net s, ∀ acked,
    Frame.ack id acked ∉ packetFrames pkt.bytes
  acked : ∀ acked, ch.type = .reliable ∨ ch.snd.Spared acked → ch.snd.NoUnderflow acked
  drained : (∀ k, (ch.snd.outgoing k).active = false) → ch.snd.bytesInFlight = 0

theorem Promise.carries_mem {P : Promise} {s : Side} {f : Frame} : ∀ {fs : List Frame} {l : Log},
    P.Carries s l fs → f ∈ fs → ∃ l', P.carried s l' f
  | g :: fs, l, h, hm => by
    rcases List.mem_cons.1 hm with rfl | hm
    · exact ⟨_, h.1⟩
    · exact carries_mem h.2 hm

/-- Arguments in range, control frames that are sent whole, and no acknowledgement of a message of
a STREAM channel. -/
def Op.Spares (w : World) (op : Op) : Prop :=
  op.Declares ∧ op.Meets (fun _ _ _ => True) (fun x s _ f => SparesStream (x.conn s) f) w

instance (w : World) (op : Op) : Decidable (op.Spares w) := inferInstanceAs (Decidable (_ ∧ _))

/-- **The in-flight counter is exact** in every run in which no acknowledgement frees a message of a
STREAM channel. -/
theorem flight_exact (cfg : Side → Cfg) (ops : List Op)
    (h : Along World.step (fun w op => op.Spares w) (.init cfg) ops) (s : Side) (id : ChanId)
    {ch : Chan} (hc : ((World.run cfg ops).conn s).channels id = some ch)
    (ht : ch.type = .reliable ∨ ch.type = .unreliable ∨ ch.type = .stream) :
    Exact (World.run cfg ops) s id ch := by
  have hrun : (Accounted (World.run cfg ops).labels fun s k => Op.call s k ∈ ops).Holds
      (World.run cfg ops) := by
    have hinit : (Accounted (World.run cfg ops).labels fun s k => Op.call s k ∈ ops).Holds
        (World.init cfg) := by
      refine Promise.init cfg ⟨chansOk_init _ _ cfg, fun t => ⟨?_, ?_, ?_⟩⟩
      · rintro id ch ⟨⟩
      · rintro id ch ⟨⟩
      · rintro id ch ⟨⟩
    exact run_invariant (fun _ _ hv hop => Promise.step (accounted_kept _ _) hv hop) hinit
      (foreseen_run ops _ rfl h fun _ _ hk => hk)
  generalize (World.run cfg ops).labels = lab at hrun
  generalize World.run cfg ops = w at hrun hc
  obtain ⟨hchans, hcount⟩ := hrun.ends.inv
  obtain ⟨hflight, hfree, -⟩ := hcount s
  have hbytes : ch.snd.bytesInFlight.toNat = ch.counted := by
    unfold Chan.counted
    by_cases hrel : ch.type = .reliable
    · simp only [hrel, and_true]
      exact (hflight id ch hc).bytes hrel
    · have hzero := hfree id ch hc (ht.resolve_left hrel)
      simp [hrel, hzero]
  refine ⟨hbytes, fun hun pkt hpkt acked hmem => ?_, fun acked hor => ?_, fun hidle => ?_⟩
  · obtain ⟨hdr, fs, hb, hlen, hfits, hcar, -⟩ := hrun.net s pkt hpkt
    rw [Promise.packetFrames_encode hb hlen fun f hf => (hfits f hf).1] at hmem
    obtain ⟨l', -, hack⟩ := Promise.carries_mem hcar hmem
    exact acknowledged_type hchans hack hc hun
  · rcases hor with hrel | hsp
    · exact noUnderflow_reliable (hrel ▸ hflight id ch hc)
    · exact noUnderflow_spared hsp
  · have hsum : ch.counted = 0 := by
      unfold Chan.counted
      simp [hidle]
    rw [hsum] at hbytes
    exact UInt32.toNat_inj.1 hbytes

/-- A message is delivered and acknowledged. -/
def ackedOps (type : ChanType) : List Op :=
  openOpsOf type ++ [.call .client (.write 0 [1, 2, 3]), .send .client { now := 10 } 1200,
    .deliver .server 0 { now := 11 } (some [2]), .send .server { now := 12 } 1200,
    .deliver .client 0 { now := 13 } (some [1])]

theorem flight_exact_acked :
    ∃ ch, ((World.run defaults (ackedOps .reliable)).conn .client).channels 0 = some ch ∧
      (∀ k, (ch.snd.outgoing k).active = false) ∧ ch.snd.msgsAcked = 1 ∧
      ch.snd.bytesInFlight = 0 := by
  have hall : ∀ ch ∈ ((World.run defaults (ackedOps .reliable)).conn .client).channels 0,
      ch.type = .reliable ∧ (∀ k, (ch.snd.outgoing k).active = false) ∧ ch.snd.msgsAcked = 1 := by
    decide +kernel
  have hsome : (((World.run defaults (ackedOps .reliable)).conn .client).channels 0).isSome := by
    decide +kernel
  obtain ⟨ch, hc⟩ := Option.isSome_iff_exists.1 hsome
  obtain ⟨ht, hidle, hone⟩ := hall ch hc
  have hex := flight_exact defaults (ackedOps .reliable) (by decide +kernel) .client 0 hc (.inl ht)
  exact ⟨ch, hc, hidle, hone, hex.drained hidle⟩

/-- **An acknowledgement on a STREAM channel wraps the counter**: three bytes that were never added
are taken off. -/
theorem stream_ack_underflows :
    (((World.run defaults (ackedOps .stream)).conn .client).channels 0).isSome ∧
    ∀ ch ∈ ((World.run defaults (ackedOps .stream)).conn .client).channels 0,
      ch.role = .sender ∧ ch.type = .stream ∧ (∀ k, (ch.snd.outgoing k).active = false) ∧
        ch.snd.bytesInFlight.toNat = 2 ^ 32 - 3 := by
  decide +kernel

end Netchan
