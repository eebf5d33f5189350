import Netchan.Pair.Flight
import Netchan.Pair.Promise
import Netchan.Proof.Credit

/-!
# Windows

The sender's `send_window` is the window of the WINDOW_UPDATE it processed last, and a receiver
with an empty queue and no update pending advertised what it has now. `no_flow_deadlock`: once
everything is read and acknowledged, a message within the window is not refused, provided the
update the sender processed last is the one the receiver sent last. `lost_update_deadlocks`: when
that one was lost, it is refused for good.
-/

namespace Netchan

open Lib

/-! ## The receiving side -/

/-- The queue is as it was, and so are the bytes in it; or it holds something. -/
structure Receiver.Filled (r r' : Receiver) : Prop where
  pending : r'.needWindowUpdate = r.needWindowUpdate
  window : r'.recvWindow = r.recvWindow
  queue : (r'.recvQueue = r.recvQueue ∧ r'.recvBuffered = r.recvBuffered) ∨ ¬ r'.recvQueue.Empty

namespace Receiver.Filled

variable {r r' r'' : Receiver}

theorem refl (r : Receiver) : r.Filled r := ⟨rfl, rfl, .inl ⟨rfl, rfl⟩⟩

theorem trans (h1 : r.Filled r') (h2 : r'.Filled r'') : r.Filled r'' := by
  refine ⟨h2.pending.trans h1.pending, h2.window.trans h1.window, ?_⟩
  rcases h2.queue with ⟨hq, hb⟩ | h
  · rw [hq, hb]
    exact h1.queue
  · exact .inr h

theorem deliver (x : Rx) (id : ChanId) (data : List UInt8) : x.rcv.Filled (x.deliver id data).rcv := by
  rcases deliver_cases x id data with ⟨hr, b, fs, hf, he⟩ | ⟨-, he⟩
  · rw [he]
    refine ⟨rfl, rfl, .inr fun hempty => ?_⟩
    have := (Ring.toList_eq_nil _).2 hempty
    rw [Rx.enqueued, Ring.toList_push (by decide) hr.queue] at this
    simp at this
  · rw [he]
    exact .refl _

theorem rule : DeliveryRule Receiver.Filled where
  trans := trans
  aside h := ⟨h.pending, h.window, .inl ⟨h.queue, h.buffered⟩⟩
  deliver := deliver

/-- **A DATA frame** fills the queue or leaves it alone. -/
theorem data (c : Conn) (id : ChanId) (ch : Chan) (seq : UInt16) (idx total : Nat)
    (payload : List UInt8) : ch.rcv.Filled (dataRcv c id ch seq idx total payload) :=
  rule.data c id ch seq idx total payload

end Receiver.Filled

/-! ## The promise -/

/-- The windows a frame advertises for a channel. -/
def Frame.grants (id : ChanId) : Frame → List UInt32
  | .windowUpdate j w => if id = j then [w] else []
  | _ => []

/-- What holds of a channel, of the updates its end has sent for it and of those the peer has. -/
structure ChanWindow (cfg : Cfg) (ch : Chan) (heard : Nat) (mine theirs : List UInt32) : Prop where
  heard : ch.role = .sender → heard = 0 ∨ theirs[heard - 1]? = some ch.snd.sendWindow
  window : ch.rcv.recvWindow = cfg.chanWindow
  granted : ch.rcv.needWindowUpdate = false → ch.rcv.recvQueue.Empty →
    ∀ w, mine.getLast? = some w → w = Netchan.advertised ch.rcv ∨ w = cfg.chanWindow

structure EndWindow (cfg : Cfg) (c : Conn) (heard : ChanId → Nat) (mine theirs : ChanId → List UInt32) :
    Prop where
  config : c.cfg = cfg
  flight : FlightOk c
  absent : ∀ id, c.channels id = none →
    heard id = 0 ∧ ∀ w, (mine id).getLast? = some w → w = cfg.chanWindow
  chans : ∀ id ch, c.channels id = some ch → ChanWindow cfg ch (heard id) (mine id) (theirs id)

section
variable {cfg : Cfg} {c c' : Conn} {heard heard' : ChanId → Nat}
  {mine mine' theirs theirs' : ChanId → List UInt32}

theorem ChanWindow.theirs_mono {ch : Chan} {n : Nat} {ms ts ts' : List UInt32}
    (h : ChanWindow cfg ch n ms ts) (ht : ts <+: ts') : ChanWindow cfg ch n ms ts' := by
  refine ⟨fun hr => (h.heard hr).imp_right fun hw => ?_, h.window, h.granted⟩
  obtain ⟨us, rfl⟩ := ht
  rw [List.getElem?_append_left (List.getElem?_eq_some_iff.1 hw).1]
  exact hw

theorem EndWindow.theirs_mono (h : EndWindow cfg c heard mine theirs)
    (ht : ∀ id, theirs id <+: theirs' id) : EndWindow cfg c heard mine theirs' :=
  ⟨h.config, h.flight, h.absent, fun id ch hc => (h.chans id ch hc).theirs_mono (ht id)⟩

/-- A step of an end: what it does to a channel is related by `Q`. -/
theorem EndWindow.kept {Q : ChanId → Chan → Chan → Prop} (h : EndWindow cfg c heard mine theirs)
    (hcfg : c'.cfg = c.cfg) (hf : FlightOk c') (hk : ∀ id, ChanKept c c' id (Q id))
    (habs : ∀ id, c.channels id = none → heard' id = heard id ∧
      ∀ w, (mine' id).getLast? = some w → (mine id).getLast? = some w ∨ w = cfg.chanWindow)
    (hQ : ∀ id ch ch', c.channels id = some ch → Q id ch ch' →
      ChanWindow cfg ch (heard id) (mine id) (theirs id) →
      ChanWindow cfg ch' (heard' id) (mine' id) (theirs' id)) :
    EndWindow cfg c' heard' mine' theirs' := by
  have hnone : ∀ id, c.channels id = none →
      heard' id = 0 ∧ ∀ w, (mine' id).getLast? = some w → w = cfg.chanWindow := by
    intro id hn
    obtain ⟨h0, hlast⟩ := h.absent id hn
    obtain ⟨h1, h2⟩ := habs id hn
    exact ⟨h1.trans h0, fun w hw => (h2 w hw).elim (hlast w) fun he => he⟩
  refine ⟨hcfg.trans h.config, hf, fun id hn => hnone id ((hk id).1 hn), fun id ch' hc' => ?_⟩
  rcases (hk id).2 ch' hc' with ⟨hn, hnew⟩ | ⟨ch, hc, hq⟩
  · refine ⟨fun _ => .inl (hnone id hn).1, ?_, fun _ _ w hw => .inr ((hnone id hn).2 w hw)⟩
    rw [hnew.rcv, ← h.config]
  · exact hQ id ch ch' hc hq (h.chans id ch hc)

theorem endWindow_call {server : Bool} (hs : Sound server c) (h : EndWindow cfg c heard mine theirs)
    (k : Call) : EndWindow cfg (k.apply c) heard mine theirs := by
  refine h.kept (call_cfg c k).1 (flight_call hs h.flight k) (fun id => call_effect c k id)
    (fun _ _ => ⟨rfl, fun _ hw => .inl hw⟩) fun id ch ch' hc hq hch => ?_
  cases hq with
  | @timed _ now hg =>
    obtain ⟨hkind, hrcv⟩ := chanTimed_rcv c.cfg now ch
    refine ⟨fun hr => ?_, by rw [hrcv]; exact hch.window, by rw [hrcv]; exact hch.granted⟩
    have hsw : (chanTimed c.cfg now ch).snd.sendWindow = ch.snd.sendWindow := by
      unfold chanTimed
      split
      · rfl
      · obtain ⟨-, ⟨m, he⟩, -⟩ := serviceSlots_cases c.cfg now _ ch.snd 0
          (List.nodup_finRange ncOutgoingSlots)
        dsimp only
        rw [he]
    rw [hsw]
    exact hch.heard (hkind.role.symm.trans hr)
  | read hr hq => exact ⟨hch.heard, hch.window, fun hn => by cases hn⟩
  | _ => exact ⟨hch.heard, hch.window, hch.granted⟩

theorem endWindow_frame (h : EndWindow cfg c heard mine theirs) (env : Env) (f : Frame)
    (hheard : ∀ id w, f = .windowUpdate id w → sendsOn c id = true →
      (theirs id)[heard' id - 1]? = some w)
    (hsame : ∀ id, (∀ w, f = .windowUpdate id w → sendsOn c id = false) → heard' id = heard id) :
    EndWindow cfg (stepFrame env c f) heard' mine theirs := by
  refine h.kept (stepFrame_fixed env c f).2.1 (flight_frame h.flight env f)
    (fun id => frame_effect env c f id) (fun id hn => ⟨?_, fun _ hw => .inl hw⟩)
    fun id ch ch' hc hq hch => ?_
  · exact hsame id fun _ _ => by simp [sendsOn, hn]
  · have hrole : sendsOn c id = decide (ch.role = .sender) := by simp [sendsOn, hc]
    cases hq with
    | @window w hr =>
      have hw := hheard id w rfl (by simp [hrole, hr])
      exact ⟨fun _ => .inr hw, hch.window, hch.granted⟩
    | @data seq idx total payload hr =>
      rw [hsame id fun _ he => by cases he]
      have hfill := Receiver.Filled.data c id ch seq idx total payload
      refine ⟨hch.heard, hfill.window.trans hch.window, fun hp hq w hw => ?_⟩
      rcases hfill.queue with ⟨h1, h2⟩ | hne
      · dsimp only at hp hq ⊢
        rw [hfill.pending] at hp
        rw [h1] at hq
        have := hch.granted hp hq w hw
        unfold Netchan.advertised at this ⊢
        rwa [h2, hfill.window]
      · exact absurd hq hne
    | ignored hf =>
      rw [hsame id fun w he => by subst he; simpa [hrole] using hf]
      exact hch
    | other hf =>
      rw [hsame id fun w he => absurd (by rw [he]; rfl) hf]
      exact hch
    | @ack seq hr =>
      rw [hsame id fun _ he => by cases he]
      have hsw := (ackedSnd_fields c.pool ch.snd seq).2.1
      exact ⟨fun hr' => by rw [hsw]; exact hch.heard hr', hch.window, hch.granted⟩
    | closed =>
      rw [hsame id fun _ he => by cases he]
      exact ⟨hch.heard, hch.window, hch.granted⟩
    | refused =>
      rw [hsame id fun _ he => by cases he]
      exact hch

theorem EndWindow.granted (h : EndWindow cfg c heard mine theirs)
    (hm : ∀ id w, (mine' id).getLast? = some w → (mine id).getLast? = some w ∨ w = cfg.chanWindow) :
    EndWindow cfg c heard mine' theirs := by
  refine ⟨h.config, h.flight, fun id hn => ?_, fun id ch hc => ?_⟩
  · obtain ⟨h0, hlast⟩ := h.absent id hn
    exact ⟨h0, fun w hw => (hm id w hw).elim (hlast w) fun he => he⟩
  · have hch := h.chans id ch hc
    exact ⟨hch.heard, hch.window,
      fun hp hq w hw => (hm id w hw).elim (hch.granted hp hq w) .inr⟩

theorem endWindow_emit {server : Bool} {now : UInt32} {f : Frame} (hs : Sound server c)
    (h : EndWindow cfg c heard mine theirs) (he : Emit now c f c')
    (hm : ∀ id, mine' id = mine id ++ f.grants id) : EndWindow cfg c' heard mine' theirs := by
  refine h.kept (emit_cfg he).1 (flight_emit hs h.flight he)
    (fun id => emit_effect he hs.ids id) (fun id hn => ⟨rfl, fun w hw => ?_⟩)
    fun id ch ch' hc hq hch => ?_
  · suffices f.grants id = [] by
      rw [hm id, this, List.append_nil] at hw
      exact .inl hw
    cases he with
    | @window j d hd hp =>
      refine if_neg ?_
      rw [hs.ids j d hd]
      rintro rfl
      rw [hn] at hd
      cases hd
    | _ => rfl
  · cases hq with
    | window hp =>
      refine ⟨hch.heard, hch.window, fun _ _ w hw => .inl ?_⟩
      rw [hm id, Frame.grants, if_pos rfl, List.getLast?_append] at hw
      exact (Option.some.inj hw).symm
    | ack hp =>
      rw [(hm id).trans (List.append_nil _)]
      exact ⟨hch.heard, hch.window, hch.granted⟩
    | @data k hsl =>
      rw [(hm id).trans (List.append_nil _)]
      obtain ⟨hkind, hrcv⟩ := chanSent_rcv now c.pool ch k
      have hsw : (chanSent now c.pool ch k).2.snd.sendWindow = ch.snd.sendWindow := by
        unfold chanSent
        dsimp only
        split
        · exact (outAdvance_fields _ _).2.1
        · rfl
      refine ⟨fun hr => ?_, by rw [hrcv]; exact hch.window, by rw [hrcv]; exact hch.granted⟩
      rw [hsw]
      exact hch.heard (hkind.role.symm.trans hr)
    | other hf =>
      have hnone : f.grants id = [] := by
        cases f with
        | windowUpdate j w => exact if_neg fun hj => hf (by rw [hj]; rfl)
        | _ => rfl
      rw [hm id, hnone, List.append_nil]
      exact hch

end

theorem Log.called_window (l : Log) (s : Side) (c : Conn) (k : Call) :
    (l.called s c k).grants = l.grants ∧ (l.called s c k).heard = l.heard := by
  unfold Log.called
  repeat' split
  all_goals exact ⟨rfl, rfl⟩

theorem Log.frameHeard_grants (l : Log) (s : Side) (stamp : Log) (c c' : Conn) (f : Frame) :
    (l.frameHeard s stamp c c' f).grants = l.grants := by
  cases f <;> simp only [Log.frameHeard] <;> repeat' split
  all_goals rfl

theorem Log.frameHeard_heard (l : Log) (s : Side) (stamp : Log) (c c' : Conn) (f : Frame) :
    (∀ t ≠ s, (l.frameHeard s stamp c c' f).heard t = l.heard t) ∧
    (∀ id w, f = .windowUpdate id w → sendsOn c id = true →
      (l.frameHeard s stamp c c' f).heard s id = (stamp.grants s.other id).length) ∧
    ∀ id, (∀ w, f = .windowUpdate id w → sendsOn c id = false) →
      (l.frameHeard s stamp c c' f).heard s id = l.heard s id := by
  cases f with
  | windowUpdate id w =>
    simp only [Log.frameHeard]
    split
    · rename_i hs
      refine ⟨fun t ht => funext fun j => onChan_of_side _ _ _ _ ht j, ?_, fun j hj => ?_⟩
      · rintro j v ⟨⟩ -
        exact onChan_same ..
      · refine onChan_of_id _ _ _ _ _ ?_
        rintro rfl
        rw [hj w rfl] at hs
        cases hs
    · rename_i hs
      refine ⟨fun _ _ => rfl, ?_, fun _ _ => rfl⟩
      rintro j v ⟨⟩ hv
      exact absurd hv hs
  | connectInit id =>
    simp only [Log.frameHeard]
    split <;> exact ⟨fun _ _ => rfl, fun _ _ h => (by cases h), fun _ _ => rfl⟩
  | _ => exact ⟨fun _ _ => rfl, fun _ _ h => (by cases h), fun _ _ => rfl⟩

theorem Log.frameSent_grants (l : Log) (s : Side) (f : Frame) :
    (∀ t ≠ s, (l.frameSent s f).grants t = l.grants t) ∧
    ∀ id, (l.frameSent s f).grants s id = l.grants s id ++ f.grants id := by
  cases f with
  | windowUpdate j w =>
    refine ⟨fun t ht => funext fun i => onChan_of_side _ _ _ _ ht i, fun id => ?_⟩
    simp only [Log.frameSent, Frame.grants]
    split
    · rename_i h
      rw [h, onChan_same]
    · rename_i h
      rw [onChan_of_id _ _ _ _ _ h, List.append_nil]
  | _ => exact ⟨fun _ _ => rfl, fun _ => (List.append_nil _).symm⟩

theorem Log.frameSent_heard (l : Log) (s : Side) (f : Frame) : (l.frameSent s f).heard = l.heard := by
  cases f <;> rfl

/-- The windows of the two ends fit together. -/
def Windows (cfg : Side → Cfg) : Promise where
  inv x := ∀ s, EndWindow (cfg s) (x.conn s) (x.log.heard s) (x.log.grants s)
    (x.log.grants s.other)
  queued s _ f := ∀ id w, f = .windowUpdate id w → w = (cfg s).chanWindow
  carried s l f := ∀ id w, f = .windowUpdate id w → (l.grants s id).getLast? = some w

section
variable {cfg : Side → Cfg}

/-- A frame was sent by end `s`, which is in state `c` now. -/
theorem windows_sent {x : Ends} {s : Side} {c : Conn} {f : Frame} (h : (Windows cfg).inv x)
    (hs : EndWindow (cfg s) c (x.log.heard s) ((x.log.frameSent s f).grants s)
      (x.log.grants s.other)) :
    (Windows cfg).inv (x.sent s c f) ∧ (Windows cfg).carried s (x.log.frameSent s f) f := by
  obtain ⟨hne, hsame⟩ := Log.frameSent_grants x.log s f
  refine ⟨fun t => ?_, ?_⟩
  · simp only [Ends.sent, Log.frameSent_heard]
    rcases Side.eq_or_eq_other s t with rfl | rfl
    · rw [Function.update_self, hne _ t.other_ne]
      exact hs
    · rw [Function.update_of_ne s.other_ne, hne _ s.other_ne, Side.other_other]
      refine (h s.other).theirs_mono fun id => ?_
      rw [Side.other_other]
      exact (Log.le_frameSent x.log s f).grants s id
  · rintro id w rfl
    rw [hsame id, Frame.grants, if_pos rfl, List.getLast?_append]
    rfl

theorem windows_kept : (Windows cfg).Kept (fun _ _ _ => True) (fun _ _ _ _ => True) where
  grow _ h := h
  alike := by
    intro x x' h hl ha s
    rw [hl]
    refine ⟨(ha s).cfg.trans (h s).config, fun id ch hc => ?_, fun id hn => ?_, fun id ch hc => ?_⟩
    · exact (h s).flight id ch ((ha s).channels ▸ hc)
    · exact (h s).absent id ((ha s).channels ▸ hn)
    · exact (h s).chans id ch ((ha s).channels ▸ hc)
  called := by
    intro x s k hsound h _
    obtain ⟨hg, hh⟩ := Log.called_window x.log s (x.conn s) k
    refine ⟨fun t => ?_, ?_⟩
    · simp only [Ends.called, hg, hh]
      rcases Side.eq_or_eq_other s t with rfl | rfl
      · rw [Function.update_self]
        exact endWindow_call (hsound t) (h t) k
      · rw [Function.update_of_ne s.other_ne]
        exact h s.other
    · rintro f hq id w rfl
      cases hq
      rw [(h s).config]
  heard := by
    intro x s env stamp f hsound h hle hcar _
    obtain ⟨hne, hnew, hsame⟩ := Log.frameHeard_heard x.log s stamp (x.conn s)
      (stepFrame env (x.conn s) f) f
    refine ⟨fun t => ?_, ?_⟩
    · simp only [Ends.heard, Log.frameHeard_grants]
      rcases Side.eq_or_eq_other s t with rfl | rfl
      · rw [Function.update_self]
        refine endWindow_frame (h t) env f (fun id w hf hs => ?_) hsame
        rw [hnew id w hf hs]
        have hlast := hcar id w hf
        rw [List.getLast?_eq_getElem?] at hlast
        obtain ⟨us, hus⟩ := hle.grants t.other id
        rw [← hus, List.getElem?_append_left (List.getElem?_eq_some_iff.1 hlast).1]
        exact hlast
      · rw [Function.update_of_ne s.other_ne, hne _ s.other_ne]
        exact h s.other
    · rintro g hq id w rfl
      cases hq
      rw [(h s).config]
  flushed := by
    intro x s f h hq
    refine windows_sent h ((h s).granted fun id w hw => ?_)
    rw [(Log.frameSent_grants x.log s f).2 id] at hw
    cases f with
    | windowUpdate j v =>
      simp only [Frame.grants] at hw
      split at hw
      · rw [List.getLast?_append] at hw
        exact .inr (Option.some.inj hw ▸ hq j v rfl)
      · rw [List.append_nil] at hw
        exact .inl hw
    | _ => exact .inl (by simpa [Frame.grants] using hw)
  emitted := by
    intro x s now f c' hsound h he
    exact windows_sent h (endWindow_emit (hsound s) (h s) he (Log.frameSent_grants x.log s f).2)
  transmitted h := h

end

/-! ## No deadlock -/

/-- Everything written on channel `id`, sent by end `s`, is acknowledged and read, nothing is on
its way and nothing waits to be sent. -/
structure Idle (w : World) (s : Side) (id : ChanId) : Prop where
  sender : ∃ ch ∈ (w.conn s).channels id, ch.role = .sender ∧ ch.type = .reliable ∧
    ch.state = .opened ∧ ∀ k, (ch.snd.outgoing k).active = false
  receiver : ∃ ch ∈ (w.conn s.other).channels id, ch.role = .receiver ∧ ch.type = .reliable ∧
    ch.rcv.recvQueue.Empty ∧ ch.rcv.recvBuffered = 0
  quiet : ∀ t, w.net t = [] ∧ (w.conn t).ctrlBuf = [] ∧
    ∀ ch ∈ (w.conn t).channels id, ch.rcv.needAck = false ∧ ch.rcv.needWindowUpdate = false

/-- The WINDOW_UPDATE that end `s` processed last advertises as much, up to the longest message,
as the last one its peer sent. -/
def UpToDate (l : Log) (s : Side) (id : ChanId) : Prop :=
  l.heard s id ≠ 0 ∧ ∃ v ∈ (l.grants s.other id)[l.heard s id - 1]?,
    ∃ w ∈ (l.grants s.other id).getLast?, min w.toNat ncMaxMsg ≤ v.toNat

instance (l : Log) (s : Side) (id : ChanId) : Decidable (UpToDate l s id) :=
  inferInstanceAs (Decidable (_ ∧ _))

theorem windows_run {cfg : Side → Cfg} {ops : List Op}
    (h : Along World.step (fun w op => op.SendsWhole w) (.init cfg) ops) :
    (Windows cfg).Holds (World.run cfg ops) := by
  refine run_invariant (I := (Windows cfg).Holds) (fun w op hw hop => ?_)
    (Promise.init cfg fun s => ?_) h
  · exact Promise.step windows_kept hw (Promise.meets_of_whole hop (fun _ _ _ => trivial)
      fun _ _ _ _ => trivial)
  · exact ⟨rfl, fun _ _ hc => (by cases hc), fun _ _ => ⟨rfl, fun _ hw => (by cases hw)⟩,
      fun _ _ hc => (by cases hc)⟩

/-- **No flow-control deadlock**: once everything is read and acknowledged and nothing is on its
way, a message within the window is not refused, if the update the sender processed last is up to
date. -/
theorem no_flow_deadlock {cfg : Side → Cfg} {ops : List Op}
    (h : Along World.step (fun w op => op.SendsWhole w) (.init cfg) ops) {s : Side} {id : ChanId}
    (hidle : Idle (World.run cfg ops) s id) (hup : UpToDate (World.run cfg ops).log s id)
    {data : List UInt8} (hlen : data.length ≤ min (cfg s.other).chanWindow.toNat ncMaxMsg) :
    (netchanChanWrite ((World.run cfg ops).conn s) id data).1 ≠ .error .flow := by
  have hinv := (windows_run h).ends.inv
  obtain ⟨ch, hc, hrole, htype, hstate, hacked⟩ := hidle.sender
  obtain ⟨rch, hrc, hrrole, hrtype, hread, hbuf⟩ := hidle.receiver
  obtain ⟨-, -, hpend⟩ := hidle.quiet s.other
  obtain ⟨hne, v, hv, w, hw, hle⟩ := hup
  have hsnd := (hinv s).chans id ch hc
  have hrcv := (hinv s.other).chans id rch hrc
  have hwindow : ch.snd.sendWindow = v := by
    rcases hsnd.heard hrole with h0 | hs
    · exact absurd h0 hne
    · exact Option.some.inj (hs.symm.trans hv)
  have hlast : w = (cfg s.other).chanWindow := by
    rcases hrcv.granted (hpend rch hrc).2 hread w hw with he | he
    · rw [he, Netchan.advertised, hbuf, hrcv.window]
      simp [eq_comm]
    · exact he
  have hflight : ch.snd.bytesInFlight.toNat = 0 := by
    rw [((hinv s).flight id ch hc).bytes htype]
    simp [Sender.held, hacked]
  have hroom : ¬ (ch.snd.bytesInFlight.toNat + data.length > ch.snd.sendWindow.toNat) := by
    rw [hflight, hwindow]
    rw [hlast] at hle
    omega
  unfold netchanChanWrite
  rw [show ((World.run cfg ops).conn s).channels id = some ch from hc]
  simp only [hroom, and_false, if_false]
  repeat' split
  all_goals simp

/-- A window of ten bytes at both ends. -/
def smallCfg : Side → Cfg := fun _ => { netchanCfgDefault with chanWindow := 10 }

/-- Two messages of five bytes are written, delivered and acknowledged. -/
def twoAckedOps : List Op :=
  openOps ++ [.call .client (.write 0 [1, 2, 3, 4, 5]), .send .client { now := 10 } 1200,
    .deliver .server 0 { now := 11 } (some [2]), .call .client (.write 0 [6, 7, 8, 9, 10]),
    .send .client { now := 10 } 1200, .deliver .server 0 { now := 11 } (some [2]),
    .send .server { now := 12 } 1200, .deliver .client 0 { now := 13 } (some [1])]

/-- The receiver reads the first message and its update arrives; the update after the second
message is on its way. -/
def twoReadOps : List Op :=
  twoAckedOps ++ [.call .server (.read 0 2048), .send .server { now := 14 } 1200,
    .deliver .client 0 { now := 15 } (some [1]), .call .server (.read 0 2048),
    .send .server { now := 16 } 1200]

/-- The update arrives. -/
def updatedOps : List Op := twoReadOps ++ [.deliver .client 0 { now := 17 } (some [1])]

theorem idle_iff {w : World} {s : Side} {id : ChanId} : Idle w s id ↔
    (∃ ch ∈ (w.conn s).channels id, ch.role = .sender ∧ ch.type = .reliable ∧
      ch.state = .opened ∧ ∀ k, (ch.snd.outgoing k).active = false) ∧
    (∃ ch ∈ (w.conn s.other).channels id, ch.role = .receiver ∧ ch.type = .reliable ∧
      ch.rcv.recvQueue.Empty ∧ ch.rcv.recvBuffered = 0) ∧
    ∀ t, w.net t = [] ∧ (w.conn t).ctrlBuf = [] ∧
      ∀ ch ∈ (w.conn t).channels id, ch.rcv.needAck = false ∧ ch.rcv.needWindowUpdate = false :=
  ⟨fun h => ⟨h.sender, h.receiver, h.quiet⟩, fun h => ⟨h.1, h.2.1, h.2.2⟩⟩

instance (w : World) (s : Side) (id : ChanId) : Decidable (Idle w s id) :=
  decidable_of_iff _ idle_iff.symm

theorem idle_updated : Idle (World.run smallCfg updatedOps) .client 0 := by decide +kernel

theorem no_flow_deadlock_updated :
    (netchanChanWrite ((World.run smallCfg updatedOps).conn .client) 0
      (List.replicate 10 0)).1 ≠ .error .flow := by
  have h : Along World.step (fun w op => op.SendsWhole w) (.init smallCfg) updatedOps ∧
      UpToDate (World.run smallCfg updatedOps).log .client 0 := by
    decide +kernel
  exact @no_flow_deadlock smallCfg updatedOps h.1 _ _ idle_updated h.2 _ (by decide)

/-- The update is lost. -/
def lostUpdateOps : List Op := twoReadOps ++ [.drop .client 0]

/-- **A lost WINDOW_UPDATE shrinks the window for good**: everything is read and acknowledged and
nothing is pending, but a message of the size of the window is refused. -/
theorem lost_update_deadlocks :
    let w := World.run smallCfg lostUpdateOps
    Along World.step (fun w op => op.SendsWhole w) (.init smallCfg) lostUpdateOps ∧
      Idle w .client 0 ∧ 10 ≤ min (smallCfg .server).chanWindow.toNat ncMaxMsg ∧
      (netchanChanWrite (w.conn .client) 0 (List.replicate 10 0)).1 = .error .flow := by
  decide +kernel

end Netchan
