import Netchan.Proof.Effect
import Netchan.Proof.Owners

/-!
# The outgoing slots of a channel

What a call, a frame and a sent frame leave in an outgoing slot that is in use, and the invariant
that follows: a message in a slot is cut into fragments that fit (`Outgoing.Cut`).
-/

namespace Netchan

open Lib

/-! ## Slots in use -/

theorem chanTimed_slots (cfg : Cfg) (now : UInt32) (ch : Chan) (k : Fin ncOutgoingSlots) :
    (chanTimed cfg now ch).snd.outgoing k = ch.snd.outgoing k ∨
      ch.role = .sender ∧ ch.type = .reliable ∧
        ((ch.snd.outgoing k).Due cfg now ∧ (ch.snd.outgoing k).attempts < ncMaxRtAttempts) ∧
        (chanTimed cfg now ch).snd.outgoing k = (ch.snd.outgoing k).requeued now := by
  unfold chanTimed
  split
  · exact .inl rfl
  · rename_i hg
    rw [not_or, not_not, not_not] at hg
    obtain ⟨h1, -⟩ := serviceSlots_cases cfg now _ ch.snd 0 (List.nodup_finRange ncOutgoingSlots)
    rcases h1 k with h | ⟨-, hd, ha, h⟩
    · exact .inl h
    · exact .inr ⟨hg.1, hg.2, ⟨hd, ha⟩, h⟩

theorem chanTimed_ring (cfg : Cfg) (now : UInt32) (ch : Chan) :
    (chanTimed cfg now ch).snd.sendSeq = ch.snd.sendSeq ∧
      (chanTimed cfg now ch).snd.outHead = ch.snd.outHead ∧
      (chanTimed cfg now ch).snd.outTail = ch.snd.outTail := by
  unfold chanTimed
  split
  · exact ⟨rfl, rfl, rfl⟩
  · obtain ⟨-, ⟨m, he⟩, -⟩ := serviceSlots_cases cfg now _ ch.snd 0
      (List.nodup_finRange ncOutgoingSlots)
    dsimp only
    rw [he]
    exact ⟨rfl, rfl, rfl⟩

theorem ackScan_active (acked : UInt16) {k : Fin ncOutgoingSlots} :
    ∀ (l : List (Fin ncOutgoingSlots)) (p : Pool) (s : Sender),
      ((l.foldl (ackSlot acked) (p, s)).2.outgoing k).active = true →
        (l.foldl (ackSlot acked) (p, s)).2.outgoing k = s.outgoing k
  | [], _, _, _ => rfl
  | i :: l, p, s, h => by
    have h1 := ackScan_active acked l (ackSlot acked (p, s) i).1 (ackSlot acked (p, s) i).2 h
    exact h1.trans (ackSlot_outgoing (h1 ▸ h))

/-- A slot that is in use after an acknowledgement was not touched. -/
theorem ackedSnd_active {p : Pool} {s : Sender} {acked : UInt16} {k : Fin ncOutgoingSlots}
    (h : ((ackedSnd p s acked).outgoing k).active = true) :
    (ackedSnd p s acked).outgoing k = s.outgoing k := by
  unfold ackedSnd at h ⊢
  rw [outAdvance_outgoing] at h ⊢
  exact ackScan_active acked _ _ _ h

/-- A slot that is in use after a fragment was sent from slot `i`. -/
theorem chanSent_slots {now : UInt32} {p : Pool} {ch : Chan} {i k : Fin ncOutgoingSlots}
    (h : ((chanSent now p ch i).2.snd.outgoing k).active = true) :
    (chanSent now p ch i).2.snd.outgoing k =
      if k = i then (ch.snd.outgoing k).sent now else ch.snd.outgoing k := by
  unfold chanSent at h ⊢
  dsimp only at h ⊢
  by_cases hki : k = i
  · subst hki
    split at h
    · rw [outAdvance_outgoing] at h
      simp at h
    · rename_i hg
      rw [if_neg hg, if_pos rfl]
      exact Function.update_self ..
  · rw [if_neg hki]
    split
    · rw [outAdvance_outgoing]
      exact Function.update_of_ne hki ..
    · exact Function.update_of_ne hki ..

/-- A channel that is not UNRELIABLE keeps the message it sends a fragment of. -/
theorem chanSent_kept {ch : Chan} (h : ch.type ≠ .unreliable) (now : UInt32) (p : Pool)
    (k : Fin ncOutgoingSlots) :
    (chanSent now p ch k).2 = { ch with snd := { ch.snd with
      outgoing := Function.update ch.snd.outgoing k ((ch.snd.outgoing k).sent now) } } := by
  unfold chanSent
  dsimp only
  rw [if_neg]
  exact fun hg => h hg.2

/-! ## Fragments that fit -/

/-- The message in a slot is cut into fragments as `netchan_chan_write` does it. -/
structure Outgoing.Cut (fp : Nat) (o : Outgoing) : Prop where
  pos : o.len ≠ 0
  small : o.len ≤ ncMaxMsg
  total : o.fragTotal = fragTotalOf fp o.len
  few : o.fragTotal ≤ ncMaxFrags
  sent : o.fragSent ≤ o.fragTotal

theorem fragTotalOf_pos (fp len : Nat) : 0 < fragTotalOf fp len := by
  unfold fragTotalOf
  dsimp only
  split <;> omega

theorem Outgoing.Cut.offset {fp : Nat} {o : Outgoing} (h : o.Cut fp) (hs : o.fragSent < o.fragTotal) :
    o.fragSent * fp < o.len := by
  have hpos := h.pos
  have ht := h.total ▸ hs
  unfold fragTotalOf at ht
  dsimp only at ht
  split at ht
  · have : o.fragSent = 0 := by omega
    rw [this]
    omega
  · have hle : o.fragSent < (o.len + fp - 1) / fp := Nat.lt_of_lt_of_le ht (Nat.mod_le _ _)
    have hfp : 0 < fp := by
      by_contra h0
      have : fp = 0 := by omega
      simp [this] at hle
    have := (Nat.le_div_iff_mul_le hfp).1 hle
    rw [Nat.succ_mul] at this
    omega

theorem Outgoing.Cut.fragLen {fp : Nat} {o : Outgoing} (h : o.Cut fp) (hs : o.fragSent < o.fragTotal) :
    Netchan.fragLen fp o = min (o.len - o.fragSent * fp) fp := by
  have h1 := h.offset hs
  have h2 := h.small
  simp only [ncMaxMsg] at h2
  unfold Netchan.fragLen sizeSub
  congr 1
  omega

/-! ## What holds of every slot in use -/

/-- `R` holds of every message in an outgoing slot. -/
def SlotsHold (R : Outgoing → Prop) (c : Conn) : Prop :=
  ∀ id ch, c.channels id = some ch → ∀ k, (ch.snd.outgoing k).active = true → R (ch.snd.outgoing k)

/-- `R` holds of a message when it is written, and it keeps to it until it is gone. -/
structure SlotRule (fp : Nat) (R : Outgoing → Prop) : Prop where
  written : ∀ {seq : UInt16} {b : BufIdx} {len : Nat}, len ≠ 0 → len ≤ ncMaxMsg →
    fragTotalOf fp len ≤ ncMaxFrags →
    R { seq, buf := some b, len, fragTotal := fragTotalOf fp len, active := true }
  requeued : ∀ {o : Outgoing} (now : UInt32), o.attempts < ncMaxRtAttempts → R o → R (o.requeued now)
  sent : ∀ {o : Outgoing} (now : UInt32), R o → o.fragSent < o.fragTotal → R (o.sent now)

section
variable {R : Outgoing → Prop} {c : Conn}

theorem SlotsHold.kept {c' : Conn} {Q : ChanId → Chan → Chan → Prop} (h : SlotsHold R c)
    (hk : ∀ id, ChanKept c c' id (Q id))
    (hQ : ∀ id ch ch', c.channels id = some ch → Q id ch ch' →
      (∀ k, (ch.snd.outgoing k).active = true → R (ch.snd.outgoing k)) →
      ∀ k, (ch'.snd.outgoing k).active = true → R (ch'.snd.outgoing k)) : SlotsHold R c' := by
  intro id ch' hc' k hak
  rcases (hk id).2 ch' hc' with ⟨-, hnew⟩ | ⟨ch, hc, hq⟩
  · simp [hnew.snd] at hak
  · exact hQ id ch ch' hc hq (h id ch hc) k hak

theorem slots_call (hR : SlotRule (maxFragPayload c) R) (h : SlotsHold R c) (k : Call) :
    SlotsHold R (k.apply c) := by
  refine h.kept (fun id => call_effect c k id) fun id ch ch' hc hq hold i ha => ?_
  cases hq with
  | timed hg =>
    rcases chanTimed_slots c.cfg _ ch i with he | ⟨-, -, hd, he⟩
    · rw [he] at ha ⊢
      exact hold i ha
    · rw [he]
      exact hR.requeued _ hd.2 (hold i hd.1.1)
  | written hw hf hac =>
    by_cases hi : i = ch.snd.outTail
    · subst hi
      simp only [writtenChan, Function.update_self]
      exact hR.written hw.pos hw.small hf
    · simp only [writtenChan, Function.update_of_ne hi] at ha ⊢
      exact hold i ha
  | skipped hw hf hac =>
    by_cases hi : i = ch.snd.outTail
    · subst hi
      simp [skippedChan] at ha
    · simp only [skippedChan, Function.update_of_ne hi] at ha ⊢
      exact hold i ha
  | _ => exact hold i ha

theorem slots_frame (h : SlotsHold R c) (env : Env) (f : Frame) :
    SlotsHold R (stepFrame env c f) := by
  refine h.kept (fun id => frame_effect env c f id) fun id ch ch' hc hq hold i ha => ?_
  cases hq with
  | ack hr =>
    dsimp only at ha ⊢
    rw [ackedSnd_active ha]
    rw [ackedSnd_active ha] at ha
    exact hold i ha
  | _ => exact hold i ha

theorem slots_emit (hR : SlotRule (maxFragPayload c) R) (h : SlotsHold R c)
    (hids : ∀ id ch, c.channels id = some ch → ch.id = id) {now : UInt32} {c' : Conn} {f : Frame}
    (he : Emit now c f c') : SlotsHold R c' := by
  refine h.kept (fun id => emit_effect he hids id) fun id ch ch' hc hq hold i ha => ?_
  cases hq with
  | @data k hs =>
    obtain ⟨-, hact, hlt⟩ := chanNextSendable_spec (chanSendSlot_spec hs).2.2
    rw [chanSent_slots ha]
    split
    · rename_i hik
      subst hik
      exact hR.sent now (hold i hact) hlt
    · rename_i hik
      rw [chanSent_slots ha, if_neg hik] at ha
      exact hold i ha
  | _ => exact hold i ha

end

theorem cut_rule (fp : Nat) : SlotRule fp (Outgoing.Cut fp) where
  written h1 h2 h3 := ⟨h1, h2, rfl, h3, Nat.zero_le _⟩
  requeued _ _ h := ⟨h.pos, h.small, h.total, h.few, Nat.zero_le _⟩
  sent _ h hlt := ⟨h.pos, h.small, h.total, h.few, hlt⟩

/-- The invariant of a connection that the exchange of frames rests on. -/
structure Sound (server : Bool) (c : Conn) : Prop where
  server : c.server = server
  ids : ∀ id ch, c.channels id = some ch → ch.id = id
  cut : ∀ id ch, c.channels id = some ch → ∀ k, (ch.snd.outgoing k).active = true →
    (ch.snd.outgoing k).Cut (maxFragPayload c)

section
variable {server : Bool} {c : Conn}

theorem ids_kept {c' : Conn} {Q : ChanId → Chan → Chan → Prop}
    (h : ∀ id ch, c.channels id = some ch → ch.id = id) (hk : ∀ id, ChanKept c c' id (Q id))
    (hkind : ∀ id ch ch', Q id ch ch' → SameKind ch ch') (id : ChanId) (ch' : Chan)
    (hc' : c'.channels id = some ch') : ch'.id = id := by
  rcases (hk id).2 ch' hc' with ⟨-, hnew⟩ | ⟨ch, hc, hq⟩
  · exact hnew.id
  · exact (hkind id ch ch' hq).id.trans (h id ch hc)

theorem ids_call (h : ∀ id ch, c.channels id = some ch → ch.id = id) (k : Call) :
    ∀ id ch, (k.apply c).channels id = some ch → ch.id = id :=
  ids_kept h (fun id => call_effect c k id) fun _ _ _ hq => hq.kind

theorem ids_frame (h : ∀ id ch, c.channels id = some ch → ch.id = id) (env : Env) (f : Frame) :
    ∀ id ch, (stepFrame env c f).channels id = some ch → ch.id = id :=
  ids_kept h (fun id => frame_effect env c f id) fun _ _ _ hq => hq.kind

theorem ids_emit (h : ∀ id ch, c.channels id = some ch → ch.id = id) {now : UInt32} {c' : Conn}
    {f : Frame} (he : Emit now c f c') : ∀ id ch, c'.channels id = some ch → ch.id = id :=
  ids_kept h (fun id => emit_effect he h id) fun _ _ _ hq => hq.kind

theorem maxFragPayload_congr {c' : Conn} (h : c'.cfg = c.cfg) :
    maxFragPayload c' = maxFragPayload c := by
  simp only [maxFragPayload, h]

theorem sound_call (h : Sound server c) (k : Call) : Sound server (k.apply c) := by
  refine ⟨(call_cfg c k).2.trans h.server, ids_call h.ids k, ?_⟩
  rw [maxFragPayload_congr (call_cfg c k).1]
  exact slots_call (cut_rule _) h.cut k

theorem sound_frame (h : Sound server c) (env : Env) (f : Frame) :
    Sound server (stepFrame env c f) := by
  refine ⟨(stepFrame_fixed env c f).1.trans h.server, ids_frame h.ids env f, ?_⟩
  rw [maxFragPayload_congr (stepFrame_fixed env c f).2.1]
  exact slots_frame h.cut env f

theorem sound_emit {now : UInt32} {c' : Conn} {f : Frame} (h : Sound server c)
    (he : Emit now c f c') : Sound server c' := by
  refine ⟨(emit_cfg he).2.1.trans h.server, ids_emit h.ids he, ?_⟩
  rw [maxFragPayload_congr (emit_cfg he).1]
  exact slots_emit (cut_rule _) h.cut h.ids he

/-- Only fields that no slot depends on were written. -/
theorem Sound.congr {c' : Conn} (h : Sound server c) (hs : c'.server = c.server)
    (hcfg : c'.cfg = c.cfg) (ht : c'.channels = c.channels) : Sound server c' := by
  exact ⟨hs.trans h.server, ht ▸ h.ids, by rw [maxFragPayload_congr hcfg, ht]; exact h.cut⟩

theorem emit_fits {now : UInt32} {c' : Conn} {f : Frame} (h : Sound server c)
    (he : Emit now c f c') : f.Fits ∧ ∀ b, f.AcceptedBy b := by
  cases he with
  | ack hc hn => exact ⟨trivial, fun _ => trivial⟩
  | window hc hn => exact ⟨trivial, fun _ => trivial⟩
  | @data id ch k hc hs =>
    obtain ⟨-, ha, hlt⟩ := chanNextSendable_spec (chanSendSlot_spec hs).2.2
    have hcut := h.cut id ch hc k ha
    have hlen := hcut.fragLen hlt
    have h1 := hcut.few
    have h2 := hcut.small
    refine ⟨⟨?_, ?_, ?_⟩, fun _ => trivial⟩
    · simp only [ncMaxFrags] at h1
      omega
    · simp only [ncMaxFrags] at h1
      omega
    · simp only [ncMaxMsg] at h2
      simp only [Pool.read, Mem.length_read]
      omega

end

/-! ## Runs -/

/-- The channels have their ids, and `R` holds of every message in a slot. -/
structure Kept (R : Outgoing → Prop) (c : Conn) : Prop where
  ids : ∀ id ch, c.channels id = some ch → ch.id = id
  slots : SlotsHold R c

section
variable {R : Outgoing → Prop} {c : Conn}

theorem kept_emit (hR : SlotRule (maxFragPayload c) R) (h : Kept R c) {now : UInt32} {c' : Conn}
    {f : Frame} (he : Emit now c f c') : Kept R c' :=
  ⟨ids_emit h.ids he, slots_emit hR h.slots h.ids he⟩

/-- **A rule for slots holds after every step**, whatever `mtu` is set to. -/
theorem kept_step (hR : ∀ fp, SlotRule fp R) (h : Kept R c) (st : Step) : Kept R (st.apply c) := by
  cases st with
  | config cfg => exact ⟨h.ids, h.slots⟩
  | call k => exact ⟨ids_call h.ids k, slots_call (hR _) h.slots k⟩
  | frame env f => exact ⟨ids_frame h.ids env f, slots_frame h.slots env f⟩
  | header env pkt source =>
    have ht : (fedConn env c pkt source).channels = c.channels := updatePeer_channels c _ source
    simp only [Step.apply]
    refine ⟨by rw [ht]; exact h.ids, ?_⟩
    unfold SlotsHold
    rw [ht]
    exact h.slots
  | sendNext env buflen =>
    simp only [Step.apply]
    rcases netchanSendNext_cases env c buflen with he | ⟨-, fs, c', hem, he⟩
    · rwa [he]
    · rw [he]
      have hc' : Kept R c' := hem.invariant (I := Kept R) (fun _ _ _ hd hf => kept_emit (hR _) hd hf)
        ⟨h.ids, h.slots⟩
      exact ⟨hc'.ids, hc'.slots⟩

theorem kept_run (hR : ∀ fp, SlotRule fp R) (server : Bool) (steps : List Step) :
    Kept R (runConn server steps) :=
  run_invariant (I := Kept R) (A := fun _ _ => True) (fun _ st h _ => kept_step hR h st)
    ⟨by rintro id ch ⟨⟩, by rintro id ch ⟨⟩⟩ (along_true _)

end

end Netchan
