import Netchan.Pair.Measure
import Netchan.Pair.Order
import Netchan.Pair.Window

/-!
# Writing no more than was granted

`netchan_chan_write` compares `send_window` with the bytes that are not acknowledged. The receiver
acknowledges a message when it arrives, before it is read, so a grant that is older than the ACK lets
the sender write more than the receiver has left. `receiver_bounded`: in every run in which no write
is made against such a stale grant (`GrantFresh`), `recv_buffered` does not exceed `recv_window`.
`acked_grant_exceeded`: a second message of the size of the window, written when the first one is
acknowledged, fills it twice.
-/

namespace Netchan

open Lib

/-! ## The end that sends -/

/-- The slots hold the last messages of `ms`, by their numbers and lengths. -/
structure Writing (c : Conn) (id : ChanId) (ms : List (List UInt8)) (passed : Nat) : Prop where
  sends : ∀ ch, c.channels id = some ch → ch.snd.Numbered ms.length passed
    (fun o n => ∃ data, ms[n]? = some data ∧ o.len = data.length)
  mute : c.channels id = none → ms = []

section
variable {c c' : Conn} {id : ChanId} {ch : Chan} {ms ms' : List (List UInt8)} {passed passed' : Nat}

theorem Writing.near (h : Writing c id ms passed) : ms.length ≤ passed + ncOutgoingSlots := by
  cases hc : c.channels id with
  | none =>
    rw [h.mute hc]
    exact Nat.zero_le _
  | some ch => exact (h.sends ch hc).near_le

theorem Writing.mono (h : Writing c id ms passed) (hp : passed ≤ passed') :
    Writing c id ms passed' :=
  ⟨fun ch hc => (h.sends ch hc).mono hp, h.mute⟩

/-- A step of the end: what it does to the channel is related by `Q`. -/
theorem Writing.kept {Q : Chan → Chan → Prop} (h : Writing c id ms passed)
    (hk : ChanKept c c' id Q) (hnone : c.channels id = none → ms' = ms)
    (hq : ∀ ch ch', c.channels id = some ch → Q ch ch' → ch'.snd.Numbered ms'.length passed'
      (fun o n => ∃ data, ms'[n]? = some data ∧ o.len = data.length)) :
    Writing c' id ms' passed' := by
  refine ⟨fun ch' hc' => ?_, fun hn => ?_⟩
  · rcases hk.2 ch' hc' with ⟨hn, hnew⟩ | ⟨ch, hc, hr⟩
    · rw [hnone hn, h.mute hn, hnew.snd]
      exact .empty _ _
    · exact hq ch ch' hc hr
  · rw [hnone (hk.1 hn), h.mute (hk.1 hn)]

/-- **A call of the end that sends.** -/
theorem writing_call (h : Writing c id ms passed) {k : Call}
    (hfew : ∀ data, k = .write id data → data.length ≤ ncMaxMsg →
      fragTotalOf (maxFragPayload c) data.length ≤ ncMaxFrags)
    (hwrite : ∀ data, k = .write id data → writeAccepted c id data = true → ms' = ms ++ [data])
    (hidle : (∀ data, k = .write id data → writeAccepted c id data = false) → ms' = ms) :
    Writing (k.apply c) id ms' passed := by
  refine h.kept (call_effect c k id)
    (fun hn => hidle fun data _ => writeAccepted_idle (by simp [hn]) data) fun ch ch' hc hq => ?_
  have hs := h.sends ch hc
  rcases call_writes c id k with ⟨data, rfl, ha⟩ | hn
  · obtain ⟨b, p, hcan, -, rfl, -⟩ := call_written hc hq ha
    rw [hwrite data rfl ha, List.length_append, List.length_singleton]
    refine hs.written hcan.room (fun i n _ hold => ?_) ⟨data, by simp, ?_⟩
    · obtain ⟨d, hd, hlen⟩ := hold
      exact ⟨d, getElem?_of_prefix (List.prefix_append ..) hd, hlen⟩
    · simp [writtenChan]
  · rw [hidle hn]
    cases hq with
    | timed hg =>
      obtain ⟨h1, h2, h3⟩ := chanTimed_ring c.cfg _ ch
      refine hs.same h1 h2 h3 (fun i => ?_) fun i n hi hcount hold => ?_
      · rcases chanTimed_slots c.cfg _ ch i with he | ⟨-, -, -, he⟩
        · rw [he]
          exact ⟨rfl, rfl⟩
        · rw [he]
          exact ⟨rfl, rfl⟩
      · rcases chanTimed_slots c.cfg _ ch i with he | ⟨-, -, -, he⟩
        · rw [he]
          exact hold
        · rw [he]
          exact hold
    | written hcan hf ha =>
      rw [hn _ rfl] at ha
      cases ha
    | skipped hcan hf ha => exact absurd (hfew _ rfl hcan.small) hf
    | _ => exact hs

/-- **A frame reaches the end that sends.** -/
theorem writing_frame (h : Writing c id ms passed) (env : Env) {f : Frame}
    (hack : ∀ acked, f = .ack id acked → ∀ n < ms.length,
      int16 (UInt16.ofNat n - acked) ≤ 0 → n ≤ passed) :
    Writing (stepFrame env c f) id ms passed := by
  refine h.kept (frame_effect env c f id) (fun _ => rfl) fun ch ch' hc hq => ?_
  have hs := h.sends ch hc
  cases hq with
  | ack hr => exact hs.acked (hack _ rfl) c.pool fun _ _ _ hold => hold
  | window hr => exact hs.same rfl rfl rfl (fun _ => ⟨rfl, rfl⟩) fun _ _ _ _ hold => hold
  | _ => exact hs

/-- **A frame leaves the end that sends.** -/
theorem writing_emit (h : Writing c id ms passed)
    (htype : ∀ ch, c.channels id = some ch → ch.type ≠ .unreliable)
    (hids : ∀ j d, c.channels j = some d → d.id = j) {now : UInt32} {f : Frame}
    (he : Emit now c f c') : Writing c' id ms passed := by
  refine h.kept (emit_effect he hids id) (fun _ => rfl) fun ch ch' hc hq => ?_
  have hs := h.sends ch hc
  cases hq with
  | @data k hsl =>
    rw [chanSent_kept (htype ch hc)]
    have hslot (i : Fin ncOutgoingSlots) :
        let o := Function.update ch.snd.outgoing k ((ch.snd.outgoing k).sent now) i
        (o.active = (ch.snd.outgoing i).active ∧ o.seq = (ch.snd.outgoing i).seq) ∧
          o.len = (ch.snd.outgoing i).len := by
      by_cases hi : i = k
      · subst hi
        simp [Outgoing.sent]
      · simp [Function.update_of_ne hi]
    refine hs.same rfl rfl rfl (fun i => (hslot i).1) fun i n _ _ hold => ?_
    obtain ⟨data, hd, hlen⟩ := hold
    exact ⟨data, hd, (hslot i).2.trans hlen⟩
  | _ => exact hs

/-- A DATA frame that leaves has a part of a message that was written. -/
theorem Writing.slice {server : Bool} {fp : Nat} (h : Writing c id ms passed)
    (hsound : Sound server c) (hfp : maxFragPayload c = fp) (hc : c.channels id = some ch)
    {k : Fin ncOutgoingSlots} (hslot : chanSendSlot ch = some k) :
    let o := ch.snd.outgoing k
    ∃ n data, SliceOf fp ms n data o.seq o.fragSent o.fragTotal
        (c.pool.read o.buf (o.fragSent * fp) (fragLen fp o)).length ∧
      ms.length ≤ n + ncOutgoingSlots := by
  obtain ⟨-, -, hnext⟩ := chanSendSlot_spec hslot
  obtain ⟨-, hact, hlt⟩ := chanNextSendable_spec hnext
  obtain ⟨n, hn, hseq, data, hd, hlen⟩ := (h.sends ch hc).slots k hact
  have hcut := hsound.cut id ch hc k hact
  rw [hfp] at hcut
  have hpart := hcut.fragLen hlt
  have hback := (ch.snd.outTail - k).isLt
  refine ⟨n, data, ⟨hseq, hd, ?_, ?_⟩, by omega⟩
  · rw [hcut.total, hlen]
  · rw [Pool.read, Mem.length_read, hpart, partLen, hlen]

end

/-! ## The end that receives -/

/-- The end has passed the first messages of `ms` and has read `taken` bytes. -/
structure Taking (c : Conn) (id : ChanId) (fp : Nat) (ms : List (List UInt8)) (passed taken : Nat) :
    Prop where
  hears : ∀ ch, c.channels id = some ch → ch.rcv.Measured fp ms passed taken
  deaf : c.channels id = none → passed = 0 ∧ taken = 0

/-- The number of bytes that a call reads from the channel. -/
def Call.readLen (c : Conn) (id : ChanId) : Call → Nat
  | .read j buflen => if j = id then Netchan.readLen c id buflen else 0
  | _ => 0

theorem readLen_of_ok {c : Conn} {id : ChanId} {buflen : Nat} {d : List UInt8}
    (h : (netchanChanRead c id buflen).1 = .ok d) : Netchan.readLen c id buflen = d.length := by
  rw [Netchan.readLen, h]

theorem readLen_of_nil {c : Conn} {id : ChanId} {buflen : Nat}
    (h : ∀ d, (netchanChanRead c id buflen).1 = .ok d → d = []) :
    Netchan.readLen c id buflen = 0 := by
  unfold Netchan.readLen
  split
  · rename_i d hd
    rw [h d hd]
    rfl
  · rfl

section
variable {c c' : Conn} {id : ChanId} {fp passed passed' taken taken' : Nat}
  {ms ms' : List (List UInt8)}

/-- A step of the end: what it does to the channel is related by `Q`. -/
theorem Taking.kept {Q : Chan → Chan → Prop} (h : Taking c id fp ms passed taken)
    (hk : ChanKept c c' id Q) (hnone : c.channels id = none → passed' = passed ∧ taken' = taken)
    (hq : ∀ ch ch', c.channels id = some ch → Q ch ch' → c'.channels id = some ch' →
      ch.rcv.Measured fp ms passed taken → ch'.rcv.Measured fp ms passed' taken') :
    Taking c' id fp ms passed' taken' := by
  have habs (hn : c.channels id = none) : passed' = 0 ∧ taken' = 0 := by
    obtain ⟨rfl, rfl⟩ := hnone hn
    exact h.deaf hn
  refine ⟨fun ch' hc' => ?_, fun hn => habs (hk.1 hn)⟩
  rcases hk.2 ch' hc' with ⟨hn, hnew⟩ | ⟨ch, hc, hr⟩
  · obtain ⟨rfl, rfl⟩ := habs hn
    rw [hnew.rcv]
    exact .empty fp ms _
  · exact hq ch ch' hc hr hc' (h.hears ch hc)

theorem Taking.grow (h : Taking c id fp ms passed taken) (hm : ms <+: ms') :
    Taking c id fp ms' passed taken :=
  ⟨fun ch hc => (h.hears ch hc).grow hm, h.deaf⟩

theorem Taking.le (h : Taking c id fp ms passed taken) : passed ≤ ms.length := by
  cases hc : c.channels id with
  | none =>
    rw [(h.deaf hc).1]
    exact Nat.zero_le _
  | some ch => exact (h.hears ch hc).line.le

/-- **A call of the end that receives.** -/
theorem taking_call (h : Taking c id fp ms passed taken)
    (hrole : ∀ ch, c.channels id = some ch → ch.role = .receiver) (k : Call) :
    Taking (k.apply c) id fp ms passed (taken + k.readLen c id) := by
  refine h.kept (call_effect c k id) (fun hn => ⟨rfl, ?_⟩) fun ch ch' hc hq _ hm => ?_
  · cases k with
    | read j buflen => simp [Call.readLen, Netchan.readLen, netchanChanRead, hn]
    | _ => rfl
  · cases hq with
    | @read buflen hr hne =>
      have hlen : Netchan.readLen c id buflen = min ch.rcv.recvQueue.front.len buflen := by
        rcases netchanChanRead_cases c id buflen with ⟨-, -, hempty⟩ | ⟨d, hd, -, -, he⟩
        · exact absurd (hempty ch hc hr) hne
        · obtain rfl := Option.some.inj (hd.symm.trans hc)
          rw [readLen_of_ok (congrArg Prod.fst he), Pool.read, Mem.length_read]
      rw [Call.readLen, if_pos rfl, hlen]
      exact hm.read hne buflen
    | @unread buflen hempty =>
      have hnone : Netchan.readLen c id buflen = 0 := by
        rcases netchanChanRead_cases c id buflen with ⟨-, hnil, -⟩ | ⟨d, hd, hr, hne, -⟩
        · exact readLen_of_nil hnil
        · obtain rfl := Option.some.inj (hd.symm.trans hc)
          exact absurd (hempty hr) hne
      rw [Call.readLen, if_pos rfl, hnone]
      exact hm
    | timed hg =>
      rw [(chanTimed_rcv c.cfg _ ch).2]
      exact hm
    | written hcan hf ha => exact absurd (hcan.role.symm.trans (hrole _ hcan.chan)) (by decide)
    | skipped hcan hf ha => exact absurd (hcan.role.symm.trans (hrole _ hcan.chan)) (by decide)
    | other hne hs =>
      have hnone : k.readLen c id = 0 := by
        cases k with
        | read j buflen =>
          refine if_neg ?_
          rintro rfl
          exact hne rfl
        | _ => rfl
      rw [hnone]
      exact hm
    | _ => exact hm

/-- **A frame reaches the end that receives.** -/
theorem taking_frame {t : Side} {l stamp : Log} (h : Taking c id fp ms (l.passed t id) taken)
    (hkind : ∀ ch, c.channels id = some ch → ch.role = .receiver ∧ ch.type ≠ .unreliable)
    (hnear : ms.length ≤ l.passed t id + ncOutgoingSlots) (env : Env) {f : Frame}
    (hf : ∀ seq idx total payload, f = .data id seq idx total payload →
      (∃ n data, SliceOf fp ms n data seq idx total payload.length ∧
        l.passed t id + ncReorderSlots < n + 2 ^ 15) ∧
      ∀ ch ∈ c.channels id, ch.rcv.FragsRecent) :
    Taking (stepFrame env c f) id fp ms
      ((l.frameHeard t stamp c (stepFrame env c f) f).passed t id) taken := by
  have hidle := (Log.frameHeard_messages l t stamp c (stepFrame env c f) f).2.2 id
  refine h.kept (frame_effect env c f id) (fun hn => ⟨(hidle ?_).1, rfl⟩) fun ch ch' hc hq hc' hm => ?_
  · rintro seq idx total payload rfl
    refine data_unheard env fun ch hc => ?_
    rw [hn] at hc
    cases hc
  · by_cases hdata : ∃ seq idx total payload, f = .data id seq idx total payload
    · obtain ⟨seq, idx, total, payload, rfl⟩ := hdata
      obtain ⟨hr, ht⟩ := hkind ch hc
      cases hq with
      | other hne => exact absurd rfl hne
      | ignored hne => exact absurd hr hne
      | data hr' =>
        obtain ⟨⟨n, data, hs, hlate⟩, hrecent⟩ := hf seq idx total payload rfl
        obtain ⟨passed', h1, h2, h3⟩ := hm.heard (c := c) ht hs hnear hlate (hrecent ch hc)
        have hcount : (l.frameHeard t stamp c (stepFrame env c (.data id seq idx total payload))
            (.data id seq idx total payload)).passed t id = passed' := by
          simp only [Log.frameHeard, onChan_same]
          rw [recvSeqOf, hc', recvSeqOf, hc]
          dsimp only
          rw [h3.line.seq, hm.line.seq, toNat_ofNat_sub]
          simp only [ncReorderSlots] at h2
          omega
        rw [hcount]
        exact h3
    · push Not at hdata
      rw [(hidle fun seq idx total payload he => absurd he (hdata seq idx total payload)).1]
      cases hq with
      | data hr => exact absurd rfl (hdata _ _ _ _)
      | _ => exact hm

/-- **A frame leaves the end that receives.** -/
theorem taking_emit (h : Taking c id fp ms passed taken)
    (hids : ∀ j d, c.channels j = some d → d.id = j) {now : UInt32} {f : Frame}
    (he : Emit now c f c') : Taking c' id fp ms passed taken := by
  refine h.kept (emit_effect he hids id) (fun _ => ⟨rfl, rfl⟩) fun ch ch' hc hq _ hm => hm.flags ?_
  cases hq with
  | @data k hs =>
    rw [(chanSent_rcv now c.pool ch k).2]
    exact .refl _
  | ack hn => exact ⟨false, _, rfl, fun hf => (by cases hf), fun hw => hw⟩
  | window hn => exact ⟨_, false, rfl, fun ha => ha, fun hf => (by cases hf)⟩
  | other hne => exact .refl _

end

/-! ## The two ends -/

theorem Log.called_read (l : Log) (s : Side) (c : Conn) (k : Call) (t : Side) (id : ChanId) :
    (l.called s c k).readBytes t id = l.readBytes t id + if t = s then k.readLen c id else 0 := by
  cases k with
  | read j buflen =>
    simp only [Log.called, Call.readLen]
    by_cases ht : t = s
    · subst ht
      by_cases hj : j = id
      · subst hj
        simp
      · rw [onChan_of_id _ _ _ _ _ (Ne.symm hj), if_pos rfl, if_neg hj, Nat.add_zero]
    · rw [onChan_of_side _ _ _ _ ht, if_neg ht, Nat.add_zero]
  | _ =>
    unfold Log.called
    dsimp only
    repeat' split
    all_goals simp [Call.readLen]

theorem Log.frameHeard_read (l : Log) (s : Side) (stamp : Log) (c c' : Conn) (f : Frame) :
    (l.frameHeard s stamp c c' f).readBytes = l.readBytes := by
  cases f <;> simp only [Log.frameHeard] <;> repeat' split
  all_goals rfl

theorem Log.frameSent_read (l : Log) (s : Side) (f : Frame) :
    (l.frameSent s f).readBytes = l.readBytes := by
  cases f <;> rfl

/-- The bytes of the messages written on the channel that are acknowledged. -/
def Ends.acked (x : Ends) (s : Side) (id : ChanId) (ch : Chan) : Nat :=
  (x.log.written s id).flatten.length - ch.snd.held

/-- The grant that the sender has is not stale: together with the bytes that are acknowledged and not
read, it is no more than the window of the receiver. -/
def GrantFresh (s : Side) (id : ChanId) (window : Nat) (x : Ends) (ch : Chan) : Prop :=
  ch.snd.sendWindow.toNat + x.acked s id ch ≤ x.log.readBytes s.other id + window

/-- A channel from end `s`, on which no more than `window` bytes are written and not read. -/
structure WithinGrant (s : Side) (id : ChanId) (fp window : Nat) (x : Ends) : Prop where
  payload : maxFragPayload (x.conn s) = fp
  flight : FlightOk (x.conn s)
  writes : Writing (x.conn s) id (x.log.written s id) (x.log.passed s.other id)
  takes : Taking (x.conn s.other) id fp (x.log.written s id) (x.log.passed s.other id)
    (x.log.readBytes s.other id)
  within : (x.log.written s id).flatten.length ≤ x.log.readBytes s.other id + window

/-- What is known of a frame that end `t` sent when the log was `l`: the channel goes from end `s` to
the other one. -/
def Frame.Measured (s : Side) (id : ChanId) (fp : Nat) (t : Side) (l : Log) : Frame → Prop
  | .data j seq idx total payload => t = s → j = id →
    ∃ n data, SliceOf fp (l.written s id) n data seq idx total payload.length ∧
      (l.written s id).length ≤ n + ncOutgoingSlots
  | .ack j acked => t = s.other → j = id → acked = ackFor (UInt16.ofNat (l.passed s.other id)) ∧
    (l.written s id).length ≤ l.passed s.other id + ncOutgoingSlots
  | _ => True

/-- A write on the channel is accepted only while the channel is open and the grant is not stale, and
none is refused for the number of its fragments. -/
def GrantCall (s : Side) (id : ChanId) (window : Nat) (x : Ends) (t : Side) : Call → Prop
  | .write j data => t = s → j = id →
    (writeAccepted (x.conn s) id data = true →
      ∀ ch ∈ (x.conn s).channels id, ch.state = .opened ∧ GrantFresh s id window x ch) ∧
    (data.length ≤ ncMaxMsg → fragTotalOf (maxFragPayload (x.conn s)) data.length ≤ ncMaxFrags)
  | _ => True

/-- A frame of the channel is not too old when it arrives, and neither are the messages that the
receiver puts together. -/
def GrantFrame (s : Side) (id : ChanId) (x : Ends) (stamp : Log) : Frame → Prop
  | .data j _ _ _ _ => j = id →
    (x.log.written s id).length ≤ (stamp.written s id).length + maxAge ∧
      ∀ ch ∈ (x.conn s.other).channels id, ch.rcv.FragsRecent
  | .ack j _ => j = id → (x.log.written s id).length ≤ (stamp.written s id).length + maxAge
  | _ => True

section
variable {s : Side} {id : ChanId} {fp window : Nat} {x : Ends}

/-- **What the window check is for**: a write that it lets through, against a grant that is not stale,
leaves no more than the receiver's window written and not read. -/
theorem WithinGrant.checked (h : WithinGrant s id fp window x) {data : List UInt8}
    (ha : writeAccepted (x.conn s) id data = true)
    (hk : ∀ ch ∈ (x.conn s).channels id,
      (ch.type = .reliable ∧ ch.state = .opened) ∧ GrantFresh s id window x ch) :
    (x.log.written s id).flatten.length + data.length ≤ x.log.readBytes s.other id + window := by
  rcases netchanChanWrite_cases (x.conn s) id data with ⟨-, hn⟩ | ⟨ch, b, p, hcan, -⟩
  · rw [hn] at ha
    cases ha
  · obtain ⟨⟨ht, ho⟩, hfresh⟩ := hk ch hcan.chan
    have hflight := (h.flight id ch hcan.chan).bytes ht
    have hchecked : ch.snd.held + data.length ≤ ch.snd.sendWindow.toNat := by
      rw [← hflight]
      exact Nat.le_of_not_lt fun hlt => hcan.window ⟨ht, ho, hlt⟩
    unfold GrantFresh Ends.acked at hfresh
    omega

theorem WithinGrant.wrote (h : WithinGrant s id fp window x) {server : Bool}
    (hs : Sound server (x.conn s)) (htype : ∀ ch ∈ (x.conn s).channels id, ch.type = .reliable)
    {k : Call} (hk : GrantCall s id window x s k) : WithinGrant s id fp window (x.called s k) := by
  obtain ⟨hpassed, -, hwrite, -⟩ := Log.called_messages x.log s (x.conn s) k
  have hread : (x.log.called s (x.conn s) k).readBytes s.other id = x.log.readBytes s.other id := by
    rw [Log.called_read, if_neg s.other_ne, Nat.add_zero]
  have hidle := Log.called_written x.log s s (x.conn s) k id
  refine ⟨?_, ?_, ?_, ?_, ?_⟩
  · simp only [Ends.called, Function.update_self]
    exact (maxFragPayload_congr (call_cfg (x.conn s) k).1).trans h.payload
  · simp only [Ends.called, Function.update_self]
    exact flight_call hs h.flight k
  · simp only [Ends.called, Function.update_self, hpassed]
    refine writing_call h.writes (fun data he => ?_) (fun data he ha => ?_) fun hn => hidle fun _ => hn
    · subst he
      exact (hk rfl rfl).2
    · rw [hwrite id data he ha, onChan_same]
  · simp only [Ends.called, Function.update_of_ne s.other_ne, hpassed, hread]
    exact h.takes.grow ((Log.le_called ..).written s id)
  · simp only [Ends.called, hread]
    rcases call_writes (x.conn s) id k with ⟨data, rfl, ha⟩ | hn
    · rw [hwrite id data rfl ha, onChan_same, List.flatten_append, List.length_append]
      have hroom := h.checked ha fun ch hc => ⟨⟨htype ch hc, ((hk rfl rfl).1 ha ch hc).1⟩,
        ((hk rfl rfl).1 ha ch hc).2⟩
      simpa using hroom
    · rw [hidle fun _ => hn]
      exact h.within

theorem WithinGrant.read (h : WithinGrant s id fp window x)
    (hrole : ∀ ch, (x.conn s.other).channels id = some ch → ch.role = .receiver) (k : Call) :
    WithinGrant s id fp window (x.called s.other k) := by
  obtain ⟨hpassed, -⟩ := Log.called_messages x.log s.other (x.conn s.other) k
  have hread : (x.log.called s.other (x.conn s.other) k).readBytes s.other id =
      x.log.readBytes s.other id + k.readLen (x.conn s.other) id := by
    rw [Log.called_read, if_pos rfl]
  have hwritten : (x.log.called s.other (x.conn s.other) k).written s id = x.log.written s id :=
    Log.called_written _ _ _ _ _ _ fun he => absurd he s.other_ne.symm
  refine ⟨?_, ?_, ?_, ?_, ?_⟩
  · simp only [Ends.called, Function.update_of_ne s.other_ne.symm]
    exact h.payload
  · simp only [Ends.called, Function.update_of_ne s.other_ne.symm]
    exact h.flight
  · simp only [Ends.called, Function.update_of_ne s.other_ne.symm, hpassed, hwritten]
    exact h.writes
  · simp only [Ends.called, Function.update_self, hpassed, hread, hwritten]
    exact taking_call h.takes hrole k
  · simp only [Ends.called, hread, hwritten]
    have := h.within
    omega

theorem WithinGrant.acked (h : WithinGrant s id fp window x) {env : Env} {stamp : Log} {f : Frame}
    (hle : stamp.Le x.log) (hf : f.Measured s id fp s.other stamp) (hok : GrantFrame s id x stamp f) :
    WithinGrant s id fp window (x.heard s env stamp f) := by
  obtain ⟨hwritten, hothers, -⟩ :=
    Log.frameHeard_messages x.log s stamp (x.conn s) (stepFrame env (x.conn s) f) f
  obtain ⟨hpassed, -⟩ := hothers s.other s.other_ne
  have hread := Log.frameHeard_read x.log s stamp (x.conn s) (stepFrame env (x.conn s) f) f
  refine ⟨?_, ?_, ?_, ?_, ?_⟩
  · simp only [Ends.heard, Function.update_self]
    exact (maxFragPayload_congr (stepFrame_fixed env (x.conn s) f).2.1).trans h.payload
  · simp only [Ends.heard, Function.update_self]
    exact flight_frame h.flight env f
  · simp only [Ends.heard, Function.update_self, hpassed, hwritten]
    refine writing_frame h.writes env ?_
    rintro acked rfl n hn hi
    obtain ⟨rfl, hnear⟩ := hf rfl rfl
    have hage := hok rfl
    refine (acked_passed ?_ hi).trans (hle.passed s.other id)
    simp only [ncOutgoingSlots, maxAge] at hnear hage
    omega
  · simp only [Ends.heard, Function.update_of_ne s.other_ne, hpassed, hread, hwritten]
    exact h.takes
  · simp only [Ends.heard, hread, hwritten]
    exact h.within

theorem WithinGrant.heard (h : WithinGrant s id fp window x) {env : Env} {stamp : Log} {f : Frame}
    (hkind : ∀ ch, (x.conn s.other).channels id = some ch →
      ch.role = .receiver ∧ ch.type ≠ .unreliable)
    (hle : stamp.Le x.log) (hf : f.Measured s id fp s stamp) (hok : GrantFrame s id x stamp f) :
    WithinGrant s id fp window (x.heard s.other env stamp f) := by
  have hwritten := (Log.frameHeard_messages x.log s.other stamp (x.conn s.other)
    (stepFrame env (x.conn s.other) f) f).1
  have hread := Log.frameHeard_read x.log s.other stamp (x.conn s.other)
    (stepFrame env (x.conn s.other) f) f
  refine ⟨?_, ?_, ?_, ?_, ?_⟩
  · simp only [Ends.heard, Function.update_of_ne s.other_ne.symm]
    exact h.payload
  · simp only [Ends.heard, Function.update_of_ne s.other_ne.symm]
    exact h.flight
  · simp only [Ends.heard, Function.update_of_ne s.other_ne.symm, hwritten]
    exact h.writes.mono ((Log.le_frameHeard ..).passed s.other id)
  · simp only [Ends.heard, Function.update_self, hread, hwritten]
    refine taking_frame h.takes hkind h.writes.near env ?_
    rintro seq idx total payload rfl
    obtain ⟨n, data, hs, hnear⟩ := hf rfl rfl
    obtain ⟨hage, hrecent⟩ := hok rfl
    have hpassed := h.takes.le
    refine ⟨⟨n, data, { hs with msg := getElem?_of_prefix (hle.written s id) hs.msg }, ?_⟩, hrecent⟩
    simp only [ncOutgoingSlots, ncReorderSlots, maxAge] at hnear hage ⊢
    omega
  · simp only [Ends.heard, hread, hwritten]
    exact h.within

theorem WithinGrant.sent (h : WithinGrant s id fp window x) {t : Side} {c : Conn} {f : Frame}
    (hcfg : c.cfg = (x.conn t).cfg)
    (hw : t = s → FlightOk c ∧ Writing c id (x.log.written s id) (x.log.passed s.other id))
    (ht : t = s.other → Taking c id fp (x.log.written s id) (x.log.passed s.other id)
      (x.log.readBytes s.other id)) : WithinGrant s id fp window (x.sent t c f) := by
  obtain ⟨hwritten, hpassed, -⟩ := Log.frameSent_messages x.log t f
  refine ⟨?_, ?_, ?_, ?_, ?_⟩
  all_goals simp only [Ends.sent, hwritten, hpassed, Log.frameSent_read]
  · by_cases hs : s = t
    · subst hs
      rw [Function.update_self]
      exact (maxFragPayload_congr hcfg).trans h.payload
    · rw [Function.update_of_ne hs]
      exact h.payload
  · by_cases hs : s = t
    · subst hs
      rw [Function.update_self]
      exact (hw rfl).1
    · rw [Function.update_of_ne hs]
      exact h.flight
  · by_cases hs : s = t
    · subst hs
      rw [Function.update_self]
      exact (hw rfl).2
    · rw [Function.update_of_ne hs]
      exact h.writes
  · by_cases hs : s.other = t
    · subst hs
      rw [Function.update_self]
      exact ht rfl
    · rw [Function.update_of_ne hs]
      exact h.takes
  · exact h.within

end

section
variable (lab : Side → ChanId → Option Label) (calls : Side → Call → Prop)

/-- No more than a window of bytes is written and not read on the channel, and its frames are of the
messages that were written. -/
def Granting (s : Side) (id : ChanId) (fp window : Nat) : Promise where
  inv x := ChansOk lab calls x ∧ WithinGrant s id fp window x
  queued t log f := f.Announces lab calls t log ∧
    match f with
    | .data _ _ _ _ _ | .ack _ _ => False
    | _ => True
  carried t log f := f.Announces lab calls t log ∧ f.Measured s id fp t log

variable {lab calls} {s : Side} {id : ChanId} {fp window : Nat}

theorem granting_called {x : Ends} {t : Side} {k : Call} (hlab : ChanFrom lab .reliable s id)
    (hsound : x.Sound) (h : (Granting lab calls s id fp window).inv x) (hok : Foreseen lab calls x t k)
    (hk : GrantCall s id window x t k) :
    (Granting lab calls s id fp window).inv (x.called t k) ∧
      ∀ f, Queues (x.conn t) (.call k) f →
        (Granting lab calls s id fp window).queued t (x.called t k).log f := by
  obtain ⟨h1, h2⟩ := announces_called h.1 hok
  refine ⟨⟨h1, ?_⟩, fun f hq => ⟨h2 f hq, by cases hq <;> trivial⟩⟩
  rcases Side.eq_or_eq_other s t with rfl | rfl
  · exact h.2.wrote (hsound t) (fun ch hc => ((hlab.kinds h.1).1 ch hc).2) hk
  · exact h.2.read (fun ch hc => ((hlab.kinds h.1).2 ch hc).1) k

theorem granting_heard {x : Ends} {t : Side} {env : Env} {stamp : Log} {f : Frame}
    (hlab : ChanFrom lab .reliable s id) (h : (Granting lab calls s id fp window).inv x)
    (hle : stamp.Le x.log) (hf : (Granting lab calls s id fp window).carried t.other stamp f)
    (hok : GrantFrame s id x stamp f) :
    (Granting lab calls s id fp window).inv (x.heard t env stamp f) := by
  refine ⟨announces_heard h.1 hle hf.1, ?_⟩
  rcases Side.eq_or_eq_other s t with rfl | rfl
  · exact h.2.acked hle hf.2 hok
  · have hf' := hf.2
    rw [Side.other_other] at hf'
    refine h.2.heard (fun ch hc => ?_) hle hf' hok
    obtain ⟨hr, ht⟩ := (hlab.kinds h.1).2 ch hc
    exact ⟨hr, by simp [ht]⟩

theorem granting_emitted {x : Ends} {t : Side} {now : UInt32} {f : Frame} {c' : Conn}
    (hlab : ChanFrom lab .reliable s id) (hsound : x.Sound)
    (h : (Granting lab calls s id fp window).inv x) (he : Emit now (x.conn t) f c') :
    (Granting lab calls s id fp window).inv (x.sent t c' f) ∧
      (Granting lab calls s id fp window).carried t (x.log.frameSent t f) f := by
  obtain ⟨hwritten, hpassed, -⟩ := Log.frameSent_messages x.log t f
  refine ⟨⟨announces_sent h.1 (emit_cfg he).2.2 (emit_labels he), h.2.sent (emit_cfg he).1 ?_ ?_⟩,
    by cases he <;> trivial, ?_⟩
  · rintro rfl
    refine ⟨flight_emit (hsound t) h.2.flight he,
      writing_emit h.2.writes (fun ch hc => ?_) (hsound t).ids he⟩
    simp [((hlab.kinds h.1).1 ch hc).2]
  · rintro rfl
    exact taking_emit h.2.takes (hsound s.other).ids he
  · cases he with
    | @ack j ch hc hn =>
      rintro rfl hj
      rw [hwritten, hpassed]
      rw [(hsound s.other).ids j ch hc] at hj
      subst hj
      exact ⟨(h.2.takes.hears ch hc).ack hn, h.2.writes.near⟩
    | window hc hn => trivial
    | @data j ch k hc hslot =>
      rintro rfl hj
      rw [hwritten]
      rw [(hsound t).ids j ch hc] at hj
      subst hj
      rw [h.2.payload]
      exact h.2.writes.slice (hsound t) h.2.payload hc hslot

theorem granting_kept (hlab : ChanFrom lab .reliable s id) :
    (Granting lab calls s id fp window).Kept
      (fun x t k => Foreseen lab calls x t k ∧ GrantCall s id window x t k)
      (fun x _ stamp f => GrantFrame s id x stamp f) where
  grow hl h := ⟨h.1.mono hl, h.2⟩
  alike := by
    intro x y h hl ha
    refine ⟨announces_kept.alike h.1 hl ha, ?_⟩
    obtain ⟨h1, h0, ⟨h2, h3⟩, ⟨h4, h5⟩, h6⟩ := h.2
    rw [← (ha s).channels] at h2 h3
    rw [← (ha s.other).channels] at h4 h5
    rw [← hl] at h2 h3 h4 h5 h6
    exact ⟨(maxFragPayload_congr (ha s).cfg).trans h1,
      fun id ch hc => h0 id ch ((ha s).channels ▸ hc), ⟨h2, h3⟩, ⟨h4, h5⟩, h6⟩
  called hs h hok := granting_called hlab hs h hok.1 hok.2
  heard _ h hle hf hok :=
    ⟨granting_heard hlab h hle hf hok, fun g hq => by cases hq <;> exact ⟨trivial, trivial⟩⟩
  flushed := by
    intro x t f h hq
    refine ⟨⟨announces_sent h.1 rfl fun _ => rfl, h.2.sent rfl ?_ ?_⟩,
      hq.1.mono (Log.le_frameSent ..), ?_⟩
    · rintro rfl
      exact ⟨h.2.flight, h.2.writes⟩
    · rintro rfl
      exact h.2.takes
    · cases f with
      | data j seq idx total payload => exact hq.2.elim
      | ack j acked => exact hq.2.elim
      | _ => trivial
  emitted hs h he := granting_emitted hlab hs h he
  transmitted h := ⟨announces_kept.transmitted h.1, h.2.payload, h.2.flight, h.2.writes, h.2.takes,
    h.2.within⟩

end

/-! ## Runs -/

instance (s : Side) (id : ChanId) (window : Nat) (x : Ends) (ch : Chan) :
    Decidable (GrantFresh s id window x ch) := inferInstanceAs (Decidable (_ ≤ _))

instance (s : Side) (id : ChanId) (window : Nat) (x : Ends) (t : Side) :
    ∀ k : Call, Decidable (GrantCall s id window x t k)
  | .write _ _ => inferInstanceAs (Decidable (t = s → _ →
      (_ → ∀ ch ∈ (x.conn s).channels id, _ ∧ GrantFresh s id window x ch) ∧ _))
  | .connect .. | .accept | .disconnect | .service .. | .chanOpen .. | .chanClose .. | .read .. | .poll =>
    .isTrue trivial

instance (s : Side) (id : ChanId) (x : Ends) (stamp : Log) :
    ∀ f : Frame, Decidable (GrantFrame s id x stamp f)
  | .data j _ _ _ _ => inferInstanceAs (Decidable (j = id → _ ∧
      ∀ ch ∈ (x.conn s.other).channels id, ch.rcv.FragsRecent))
  | .ack j _ => inferInstanceAs (Decidable (j = id → _))
  | .connectInit _ | .connectAccept _ _ _ | .connectRedirect _ _ | .disconnect _ | .ping _ | .pong _
  | .channelOpen _ _ _ _ | .channelClose _ _ | .windowUpdate _ _ => .isTrue trivial

/-- Arguments in range, control frames that are sent whole, and writes and frames as `GrantCall` and
`GrantFrame` say. -/
def Op.Granted (s : Side) (id : ChanId) (window : UInt32) (w : World) (op : Op) : Prop :=
  op.Declares ∧
    op.Meets (GrantCall s id window.toNat) (fun x _ stamp f => GrantFrame s id x stamp f) w

instance (s : Side) (id : ChanId) (window : UInt32) (w : World) (op : Op) :
    Decidable (op.Granted s id window w) := inferInstanceAs (Decidable (_ ∧ _))

theorem withinGrant_init (cfg : Side → Cfg) (s : Side) (id : ChanId) (window : Nat) :
    WithinGrant s id (maxFragPayload ((World.init cfg).conn s)) window (World.init cfg).toEnds := by
  refine ⟨rfl, ?_, ⟨?_, fun _ => rfl⟩, ⟨?_, fun _ => ⟨rfl, rfl⟩⟩, Nat.zero_le _⟩
  · rintro id ch ⟨⟩
  · rintro ch ⟨⟩
  · rintro ch ⟨⟩

/-- **Flow control bounds the receiver** in every run in which no message is written against a stale
grant, over a network that drops, duplicates and reorders but does not keep datagrams for long. -/
theorem receiver_bounded (cfg : Side → Cfg) (s : Side) (id : ChanId) (ops : List Op)
    (h : Along World.step (fun w op => op.Granted s id (cfg s.other).chanWindow w) (.init cfg) ops)
    {ch : Chan} (hc : ((World.run cfg ops).conn s.other).channels id = some ch)
    (hr : ch.role = .receiver) (ht : ch.type = .reliable) :
    ch.rcv.recvBuffered ≤ ch.rcv.recvWindow := by
  let lab := (World.run cfg ops).labels
  let calls : Side → Call → Prop := fun t k => Op.call t k ∈ ops
  have hmeets : Along World.step (fun w op =>
      op.Meets (Foreseen lab calls) (fun x _ stamp f => GrantFrame s id x stamp f) w) (.init cfg) ops :=
    foreseen_run ops _ rfl (h.mono fun w op hop => ⟨hop.1, Op.Meets.anyCall hop.2⟩) fun _ _ hk => hk
  have hchans : ChansOk lab calls (World.run cfg ops).toEnds :=
    (run_invariant (fun _ _ hw hop => Promise.step announces_kept hw (Op.Meets.anyFrame hop))
      (Promise.init (P := Announces lab calls) cfg (chansOk_init lab calls cfg)) hmeets).ends.inv
  have hlab : ChanFrom lab .reliable s id := by
    refine ⟨ch.label.flip, ht, ?_, ?_⟩
    · simp [Label.flip, Chan.label, hr, Role.flip]
    · rw [Label.flip_flip]
      refine (hchans.chans s.other id ch hc).symm.imp (fun ho => ?_) fun ho => ⟨ho.owns, ho.label⟩
      rw [Side.other_other] at ho
      exact ⟨ho.owns, ho.label⟩
  have hrun := run_invariant (I := (Granting lab calls s id
      (maxFragPayload ((World.init cfg).conn s)) (cfg s.other).chanWindow.toNat).Holds)
    (fun _ _ hw hop => Promise.step (granting_kept hlab) hw (hop.1.bothCalls hop.2.2))
    (Promise.init cfg ⟨chansOk_init lab calls cfg, withinGrant_init cfg s id _⟩) (hmeets.and h)
  have hwindow : ch.rcv.recvWindow = (cfg s.other).chanWindow :=
    (((windows_run (h.mono fun _ _ hop => hop.2.sendsWhole)).ends.inv s.other).chans id ch hc).window
  obtain ⟨-, -, -, -, htakes, hwithin⟩ := hrun.ends.inv
  rw [hwindow]
  exact (htakes.hears ch hc).buffered hwithin

/-- A message that fills the window is written, delivered and acknowledged. -/
def filledOps : List Op :=
  openOps ++ [.call .client (.write 0 (List.replicate 10 1)), .send .client { now := 10 } 1200,
    .deliver .server 0 { now := 11 } (some [2]), .send .server { now := 12 } 1200,
    .deliver .client 0 { now := 13 } (some [1])]

/-- Another one is written and delivered. -/
def refilledOps : List Op :=
  [.call .client (.write 0 (List.replicate 10 2)), .send .client { now := 14 } 1200,
    .deliver .server 0 { now := 15 } (some [2])]

/-- The first message is read before the second one is written. -/
def readBetweenOps : List Op := filledOps ++ .call .server (.read 0 2048) :: refilledOps

theorem receiver_bounded_read :
    ∃ ch, ((World.run smallCfg readBetweenOps).conn .server).channels 0 = some ch ∧
      ch.rcv.recvBuffered = 10 ∧ ch.rcv.recvBuffered ≤ ch.rcv.recvWindow := by
  have hall : ∀ ch ∈ ((World.run smallCfg readBetweenOps).conn .server).channels 0,
      ch.role = .receiver ∧ ch.type = .reliable ∧ ch.rcv.recvBuffered = 10 := by decide +kernel
  have hsome : (((World.run smallCfg readBetweenOps).conn .server).channels 0).isSome := by
    decide +kernel
  have hbounded := @receiver_bounded smallCfg .client 0 readBetweenOps (by decide +kernel)
  generalize World.run smallCfg readBetweenOps = w at hall hsome hbounded
  obtain ⟨ch, hc⟩ := Option.isSome_iff_exists.1 hsome
  obtain ⟨hr, ht, hb⟩ := hall ch hc
  exact ⟨ch, hc, hb, hbounded hc hr ht⟩

/-- Every write is accepted, on a channel that is open. -/
def Op.WritesOpen (w : World) : Op → Prop
  | .call s (.write id data) => writeAccepted (w.conn s) id data = true ∧
    ∀ ch ∈ (w.conn s).channels id, ch.state = .opened
  | _ => True

instance (w : World) (op : Op) : Decidable (op.WritesOpen w) := by
  unfold Op.WritesOpen
  split <;> infer_instance

/-- **What is acknowledged and not read is not counted**: every write is accepted while the channel is
open, every datagram is delivered once and in order, and the receiver holds two windows of bytes. -/
theorem acked_grant_exceeded :
    let w := World.run smallCfg (filledOps ++ refilledOps)
    Along World.step (fun w op => op.Declares ∧ op.SendsWhole w ∧ op.WritesOpen w) (.init smallCfg)
        (filledOps ++ refilledOps) ∧
      ((w.conn .server).channels 0).isSome ∧
      ∀ ch ∈ (w.conn .server).channels 0, ch.role = .receiver ∧ ch.type = .reliable ∧
        ch.rcv.recvWindow = 10 ∧ ch.rcv.recvBuffered = 20 ∧
        ¬ ch.rcv.recvBuffered ≤ ch.rcv.recvWindow := by
  decide +kernel

end Netchan
