import Netchan.Pair.Handshake

/-!
# What the two ends agree on

With the default configuration and send buffers of `NC_DEFAULT_MTU` bytes the queue of control
frames always fits a datagram, so control frames are never cut (`roomy_whole`).

`handshake_agrees`: the client knows the server by the id the server chose and the server the
client, and no id changes once it is set.
-/

namespace Netchan

open Lib

/-! ## Buffers that hold the control queue -/

/-- The buffer handed to `netchan_send_next` has room for a datagram of the default size. -/
def Op.Roomy : Op → Prop
  | .send _ _ buflen => ncDefaultMtu.toNat ≤ buflen
  | _ => True

instance : ∀ op : Op, Decidable op.Roomy
  | .send _ _ buflen => inferInstanceAs (Decidable (ncDefaultMtu.toNat ≤ buflen))
  | .call .. | .deliver .. | .dup .. | .drop .. => inferInstanceAs (Decidable True)

/-- Both ends run with the default configuration. -/
def defaults : Side → Cfg := fun _ => netchanCfgDefault

/-- The configuration is the default one and the control queue is within its buffer. -/
def Conn.Plain (c : Conn) : Prop :=
  c.cfg = netchanCfgDefault ∧ c.ctrlBuf.length ≤ ncCtrlBufSize

theorem plain_step (c : Conn) (st : Step) (hst : ∀ cfg, st ≠ .config cfg) (h : c.Plain) :
    (st.apply c).Plain :=
  ⟨(step_cfg c st hst).trans h.1, ctrl_step c st h.2⟩

theorem plain_whole {c : Conn} (h : c.Plain) {buflen : Nat} (hb : ncDefaultMtu.toNat ≤ buflen) :
    Whole c buflen := by
  have hhdr : sendHdrSize c ≤ 7 := by
    unfold sendHdrSize
    split <;> decide
  have hmtu : ncDefaultMtu.toNat = 1200 := rfl
  have hlen := h.2
  simp only [ncCtrlBufSize] at hlen
  refine .inr ?_
  rw [sendRoom, h.1]
  show _ ≤ min ncDefaultMtu.toNat buflen
  omega

/-- With the default configuration control frames are sent whole. -/
theorem roomy_whole {w : World} (h : ∀ s, (w.conn s).Plain) {o : Op} (hop : o.Roomy) :
    o.SendsWhole w := by
  cases o with
  | send s env buflen => exact plain_whole (h s) hop
  | _ => trivial

/-- **A promise that is kept always holds in every run** with the default configuration and roomy
buffers. -/
theorem Promise.roomy_run {P : Promise} (hP : P.Kept (fun _ _ _ => True) (fun _ _ _ _ => True))
    {w : World} (hplain : ∀ s, (w.conn s).Plain) (h : P.Holds w) {ops : List Op}
    (hops : ∀ op ∈ ops, op.Roomy) :
    P.Holds (Lib.run World.step w ops) ∧ ∀ s, ((Lib.run World.step w ops).conn s).Plain := by
  refine run_invariant (I := fun w => P.Holds w ∧ ∀ s, (w.conn s).Plain) (A := fun _ op => op.Roomy)
    (fun w op hw hop => ⟨?_, World.conn_step (fun _ => plain_step) hw.2 op⟩) ⟨h, hplain⟩ (along_of_forall hops)
  exact step hP hw.1 (meets_of_whole (roomy_whole hw.2 hop) (fun _ _ _ => trivial)
    fun _ _ _ _ => trivial)

theorem plain_init (s : Side) : ((World.init defaults).conn s).Plain := by
  cases s <;> exact ⟨rfl, by decide⟩

/-! ## Ids -/

theorem call_remoteId (c : Conn) (k : Call) : (k.apply c).remoteId = c.remoteId := by
  have hk := sessionCall c k
  generalize hc' : k.apply c = c' at hk
  cases hk with
  | same h _ => exact h.remoteId
  | accept _ _ _ _ hr => exact hr
  | connect hs hn =>
    rw [← hc']
    simp [Call.apply, netchanConnect, hs, hn, ctrlConnectInit, ctrlReserve]
  | disconnect hc =>
    rw [← hc']
    simp [Call.apply, netchanDisconnect, hc, ctrlDisconnect, ctrlReserve]
  | @gaveUp env now =>
    rw [← hc']
    simp only [Call.apply]
    rcases netchanService_cases env c now with ⟨-, he⟩ | ⟨-, n, he⟩
    · rw [he]
      rfl
    · rw [he]
      unfold serviced
      repeat' split
      all_goals rfl

theorem disconnect_remoteId (env : Env) (c : Conn) (reason : UInt16) :
    (stepFrame env c (.disconnect reason)).remoteId = c.remoteId := by
  simp only [stepFrame, applyFrame, disconnectReceived, Option.getD_some]
  split <;> rfl

theorem service_new (env : Env) {c : Conn} (now : UInt32) (h : c.state = .new) :
    (netchanService env c now).2.state = .new := by
  rcases netchanService_cases env c now with ⟨hg, -⟩ | ⟨-, n, he⟩
  · rcases hg with hg | hg <;>
    · rw [h] at hg
      cases hg.1
  · rw [he]
    unfold serviced
    repeat' split
    all_goals exact h

theorem disconnect_new {env : Env} {c : Conn} {reason : UInt16} (h : c.state = .new) :
    (stepFrame env c (.disconnect reason)).state = .new := by
  simp only [stepFrame, applyFrame, disconnectReceived, h, Option.getD_some]

/-- The client's ids are the ones that were chosen. `known` is the server's id if the client had
heard it at some earlier moment, and 0 if it had not. -/
structure ClientIds (known : UInt32) (c : Conn) (l : Log) : Prop where
  localId : c.localId = (l.chosen .client).getD 0
  nonzero : l.chosen .client ≠ some 0
  remoteId : c.remoteId = 0 ∨ l.chosen .server = some c.remoteId
  connected : c.state = .connected ∨ c.state = .closing → l.chosen .server = some c.remoteId
  known : known ≠ 0 → c.remoteId = known

/-- The server's ids are the ones that were chosen, and it chooses when it leaves NEW. -/
structure ServerIds (c : Conn) (l : Log) : Prop where
  localId : c.localId = (l.chosen .server).getD 0
  nonzero : l.chosen .server ≠ some 0
  new : c.state = .new → l.chosen .server = none ∧ c.remoteId = 0
  started : c.state ≠ .new → (l.chosen .server).isSome ∧ l.chosen .client = some c.remoteId

/-- The promise behind the agreement on the ids. -/
def Agrees (known : UInt32) : Promise where
  inv x := Greets.inv x ∧ ClientIds known (x.conn .client) x.log ∧
    ServerIds (x.conn .server) x.log
  queued := Frame.Genuine
  carried := Frame.Genuine

section
variable {known : UInt32} {c c' : Conn} {l l' : Log}

theorem ClientIds.congr (h : ClientIds known c l) (hc : c.SameSession c') (hl : l.Le l')
    (hch : l'.chosen .client = l.chosen .client) : ClientIds known c' l' where
  localId := by rw [hc.localId, hch, h.localId]
  nonzero := hch ▸ h.nonzero
  remoteId := by
    rw [hc.remoteId]
    exact h.remoteId.imp_right (hl.chosen _ _)
  connected := by
    rw [hc.state, hc.remoteId]
    exact fun hs => hl.chosen _ _ (h.connected hs)
  known := hc.remoteId ▸ h.known

theorem ServerIds.congr (h : ServerIds c l) (hc : c.SameSession c') (hl : l.Le l')
    (hch : l'.chosen .server = l.chosen .server) : ServerIds c' l' where
  localId := by rw [hc.localId, hch, h.localId]
  nonzero := hch ▸ h.nonzero
  new := by
    rw [hc.state, hc.remoteId, hch]
    exact h.new
  started := by
    rw [hc.state, hc.remoteId, hch]
    exact fun hs => ⟨(h.started hs).1, hl.chosen _ _ (h.started hs).2⟩

theorem clientIds_call (hserver : c.server = false) (hg : ClientOk c l) (h : ClientIds known c l)
    (k : Call) : ClientIds known (k.apply c) (l.called .client c k) := by
  have hr := call_remoteId c k
  have hle := Log.le_called l .client c k
  have hk := sessionCall c k
  generalize k.apply c = c' at hk hr
  have hremote : c'.remoteId = 0 ∨
      (l.called .client c k).chosen .server = some c'.remoteId := by
    rw [hr]
    exact h.remoteId.imp_right (hle.chosen _ _)
  have hknown : known ≠ 0 → c'.remoteId = known := hr ▸ h.known
  cases hk with
  | same hs hlog => exact h.congr hs hle (by rw [(hlog l .client).1])
  | @connect env addr hs hn hstate hid =>
    have hchosen : (l.called .client c (.connect env addr)).chosen .client = some (ncRandomId env) := by
      simp [Log.called, netchanConnect, hs, hn, hg.new hn]
    refine ⟨by rw [hid, hchosen]; rfl, ?_, hremote, fun h' => ?_, hknown⟩
    · rw [hchosen]
      exact fun h' => ncRandomId_ne_zero env (Option.some.inj h')
    · rw [hstate] at h'
      rcases h' with h' | h' <;> cases h'
  | accept hs _ _ _ _ =>
    rw [hserver] at hs
    cases hs
  | disconnect hc hstate hl =>
    have hch : (l.called .client c .disconnect).chosen = l.chosen := by
      simp only [Log.called]
      split <;> rfl
    refine ⟨by rw [hl, hch, h.localId], by rw [hch]; exact h.nonzero, hremote, fun _ => ?_, hknown⟩
    rw [hr, hch]
    exact h.connected (.inl hc)
  | gaveUp hstate hl =>
    refine ⟨hl.trans h.localId, h.nonzero, hremote, fun h' => ?_, hknown⟩
    rw [hstate] at h'
    rcases h' with h' | h' <;> cases h'

theorem clientIds_frame {env : Env} {stamp : Log} {f : Frame} (hserver : c.server = false)
    (h : ClientIds known c l) (hle : stamp.Le l) (hf : f.Genuine .server stamp) :
    ClientIds known (stepFrame env c f)
      (l.frameHeard .client stamp c (stepFrame env c f) f) := by
  have hch : (l.frameHeard .client stamp c (stepFrame env c f) f).chosen = l.chosen := by
    unfold Log.frameHeard
    repeat' split
    all_goals first | rfl | (rename_i hs; rw [hserver] at hs; cases hs.1)
  have hle' := Log.le_frameHeard l .client stamp c (stepFrame env c f) f
  have hstep := sessionFrame env c f
  cases hstep with
  | same hs hi ha => exact h.congr hs hle' (by rw [hch])
  | init hs _ _ _ _ =>
    rw [hserver] at hs
    cases hs
  | again hs _ _ _ _ =>
    rw [hserver] at hs
    cases hs
  | accept hs hstate hl hr =>
    have hid := hle.chosen _ _ hf
    refine ⟨by rw [hl, hch, h.localId], by rw [hch]; exact h.nonzero, ?_, fun _ => ?_, fun hk => ?_⟩
    · rw [hr, hch]
      exact .inr hid
    · rw [hr, hch]
      exact hid
    · -- the id it already knew is the one the server chose
      have hknown := h.known hk
      rcases h.remoteId with h0 | h0
      · exact absurd (hknown.symm.trans h0) hk
      · rw [hr, ← hknown]
        exact Option.some.inj (hid.symm.trans h0)
  | disconnect hstate hl =>
    have hr := disconnect_remoteId env c
    refine ⟨by rw [hl, hch, h.localId], by rw [hch]; exact h.nonzero, ?_, fun h' => ?_, ?_⟩
    · rw [hr, hch]
      exact h.remoteId
    · rw [hstate] at h'
      rcases h' with h' | h' <;> cases h'
    · rw [hr]
      exact h.known

theorem serverIds_call (hserver : c.server = true) (h : ServerIds c l) (k : Call) :
    ServerIds (k.apply c) (l.called .server c k) := by
  have hr := call_remoteId c k
  have hle := Log.le_called l .server c k
  have hk := sessionCall c k
  generalize hc' : k.apply c = c' at hk hr
  -- a call that is made outside NEW, and leaves the id alone
  have past : c.state ≠ .new → c'.state ≠ .new → c'.localId = c.localId →
      (l.called .server c k).chosen = l.chosen → ServerIds c' (l.called .server c k) := by
    intro hn hn' hid hch
    refine ⟨by rw [hid, hch, h.localId], by rw [hch]; exact h.nonzero, fun h' => absurd h' hn',
      fun _ => ?_⟩
    rw [hch, hr]
    exact h.started hn
  cases hk with
  | same hs hlog => exact h.congr hs hle (by rw [(hlog l .server).1])
  | connect hs _ _ _ =>
    rw [hserver] at hs
    cases hs
  | accept hs hc hstate hl _ => exact past (by simp [hc]) (by simp [hstate]) hl rfl
  | disconnect hc hstate hl =>
    refine past (by simp [hc]) (by simp [hstate]) hl ?_
    simp only [Log.called]
    split <;> rfl
  | @gaveUp env now hstate hl =>
    refine past (fun hn => ?_) (by simp [hstate]) hl rfl
    have := service_new env now hn
    rw [← hc', Call.apply, this] at hstate
    cases hstate

theorem serverIds_frame {env : Env} {stamp : Log} {f : Frame} (hserver : c.server = true)
    (h : ServerIds c l) (hle : stamp.Le l) (hf : f.Genuine .client stamp) :
    ServerIds (stepFrame env c f) (l.frameHeard .server stamp c (stepFrame env c f) f) := by
  have hle' := Log.le_frameHeard l .server stamp c (stepFrame env c f) f
  have hsame : (∀ id, f ≠ .connectInit id) ∨ c.state ≠ .new →
      (l.frameHeard .server stamp c (stepFrame env c f) f).chosen = l.chosen := by
    intro hne
    unfold Log.frameHeard
    repeat' split
    all_goals first | rfl | skip
    rename_i id hs
    exact absurd hs.2 (hne.resolve_left fun hi => hi id rfl)
  have hstep := sessionFrame env c f
  cases hstep with
  | same hs hi ha =>
    have hch := hsame (.inl fun id he => by
      have := hi id he
      rw [hserver] at this
      cases this)
    exact h.congr hs hle' (by rw [hch])
  | @init id hs hn hstate hl hr =>
    have hch : (l.frameHeard .server stamp c (stepFrame env c (.connectInit id))
        (.connectInit id)).chosen .server = some (ncRandomId env) := by
      simp [Log.frameHeard, hs, hn, (h.new hn).1, hl]
    refine ⟨by rw [hl, hch]; rfl, ?_, fun h' => ?_, fun _ => ⟨by rw [hch]; rfl, ?_⟩⟩
    · rw [hch]
      exact fun h' => ncRandomId_ne_zero env (Option.some.inj h')
    · rw [hstate] at h'
      cases h'
    · rw [hr]
      exact hle'.chosen _ _ (hle.chosen _ _ hf)
  | @again id hs hn hstate hl hr =>
    have hch := hsame (.inr hn)
    refine ⟨by rw [hl, hch, h.localId], by rw [hch]; exact h.nonzero,
      fun h' => absurd (hstate ▸ h') hn, fun _ => ?_⟩
    rw [hch, hr]
    exact ⟨(h.started hn).1, hle.chosen _ _ hf⟩
  | accept hs _ _ _ =>
    rw [hserver] at hs
    cases hs
  | disconnect hstate hl =>
    have hch := hsame (.inl (by simp))
    have hn : c.state ≠ .new := by
      intro hn
      rw [disconnect_new hn] at hstate
      cases hstate
    refine ⟨by rw [hl, hch, h.localId], by rw [hch]; exact h.nonzero, fun h' => ?_, fun _ => ?_⟩
    · rw [hstate] at h'
      cases h'
    · rw [hch, disconnect_remoteId]
      exact h.started hn

end

theorem agrees_sent {known : UInt32} {x : Ends} {s : Side} {c : Conn} {f : Frame}
    (h : (Agrees known).inv x) (hc : (x.conn s).SameSession c) :
    (Agrees known).inv (x.sent s c f) := by
  have hch := (frameSent_session x.log s f).1
  have hall : ∀ t, (x.conn t).SameSession (Function.update x.conn s c t) := by
    intro t
    by_cases ht : t = s
    · subst ht
      rwa [Function.update_self]
    · rw [Function.update_of_ne ht]
      exact .refl _
  have hle := Log.le_frameSent x.log s f
  exact ⟨greets_sent h.1 hc, h.2.1.congr (hall .client) hle (congrFun hch _),
    h.2.2.congr (hall .server) hle (congrFun hch _)⟩

theorem agrees_kept (known : UInt32) :
    (Agrees known).Kept (fun _ _ _ => True) (fun _ _ _ _ => True) where
  grow hl h := h.mono hl
  alike := by
    intro x x' h hl ha
    have hs := fun s => (⟨(ha s).state, (ha s).localId, (ha s).remoteId⟩ :
      (x.conn s).SameSession (x'.conn s))
    have hle : x.log.Le x'.log := by
      rw [hl]
      exact .refl _
    exact ⟨greets_kept.alike h.1 hl ha, h.2.1.congr (hs _) hle (by rw [hl]),
      h.2.2.congr (hs _) hle (by rw [hl])⟩
  called := by
    intro x s k hsound h hok
    obtain ⟨hg, hq⟩ := greets_kept.called hsound h.1 hok
    have hle := Log.le_called x.log s (x.conn s) k
    refine ⟨⟨hg, ?_⟩, hq⟩
    cases s with
    | client =>
      obtain ⟨h1, -⟩ := called_session_other x.log (s := .client) (t := .server) (by simp)
        (x.conn .client) k
      exact ⟨clientIds_call (hsound .client).server h.1.1 h.2.1 k, h.2.2.congr (.refl _) hle h1⟩
    | server =>
      obtain ⟨h1, -⟩ := called_session_other x.log (s := .server) (t := .client) (by simp)
        (x.conn .server) k
      exact ⟨h.2.1.congr (.refl _) hle h1, serverIds_call (hsound .server).server h.2.2 k⟩
  heard := by
    intro x s env stamp f hsound h hst hcar hok
    obtain ⟨hg, hq⟩ := greets_kept.heard (e := env) hsound h.1 hst hcar hok
    have hle := Log.le_frameHeard x.log s stamp (x.conn s) (stepFrame env (x.conn s) f) f
    refine ⟨⟨hg, ?_⟩, hq⟩
    cases s with
    | client =>
      obtain ⟨h1, -⟩ := frameHeard_session_other x.log (t := .server) (s := .client) (by simp) stamp
        (x.conn .client) (stepFrame env (x.conn .client) f) f
      exact ⟨clientIds_frame (hsound .client).server h.2.1 hst hcar, h.2.2.congr (.refl _) hle h1⟩
    | server =>
      obtain ⟨h1, -⟩ := frameHeard_session_other x.log (t := .client) (s := .server) (by simp) stamp
        (x.conn .server) (stepFrame env (x.conn .server) f) f
      exact ⟨h.2.1.congr (.refl _) hle h1, serverIds_frame (hsound .server).server h.2.2 hst hcar⟩
  flushed h hq := ⟨agrees_sent h (.refl _), hq.mono (Log.le_frameSent ..)⟩
  emitted _ h he := ⟨agrees_sent h (emit_same he), by cases he <;> trivial⟩
  transmitted h :=
    ⟨greets_kept.transmitted h.1, h.2.1.congr (.refl _) (Log.le_transmitted ..) rfl,
      h.2.2.congr (.refl _) (Log.le_transmitted ..) rfl⟩

theorem agrees_init : (Agrees 0).Holds (World.init defaults) := by
  refine Promise.init defaults ⟨⟨⟨?_, ?_, ?_, ?_⟩, ⟨?_, ?_, ?_⟩⟩, ⟨?_, ?_, ?_, ?_, ?_⟩, ⟨?_, ?_, ?_, ?_⟩⟩ <;>
    simp [World.init, netchanConfig, netchanOpen]

/-- What the client has heard by now, it knows from now on. -/
theorem agrees_known {w : World} (h : (Agrees 0).Holds w) :
    (Agrees (w.conn .client).remoteId).Holds w := by
  refine ⟨⟨h.ends.sound, ⟨h.ends.inv.1, { h.ends.inv.2.1 with known := fun _ => rfl },
    h.ends.inv.2.2⟩, h.ends.queue⟩, fun s pkt hp => ?_⟩
  obtain ⟨hdr, fs, h1, h2, h3, h4, h5⟩ := h.net s pkt hp
  have hcar : (Agrees 0).carried = (Agrees (w.conn .client).remoteId).carried := rfl
  exact ⟨hdr, fs, h1, h2, h3, Promise.carries_congr hcar _ _ _ h4, h5⟩

theorem chosen_of_ne_zero {o : Option UInt32} {a : UInt32} (h : a = o.getD 0) (h0 : a ≠ 0) :
    o = some a := by
  cases o with
  | none => exact absurd h h0
  | some b => rw [h, Option.getD_some]

/-- **The handshake agrees**: a client that is connected or closing knows the server by its id, a
server that left NEW knows the client by its id, and no id changes once it is set. -/
theorem handshake_agrees (ops more : List Op) (h : ∀ op ∈ ops ++ more, op.Roomy) :
    let w := World.run defaults ops
    let w' := World.run defaults (ops ++ more)
    ((w.conn .client).state = .connected ∨ (w.conn .client).state = .closing →
      (w.conn .client).remoteId = (w.conn .server).localId ∧ (w.conn .server).localId ≠ 0) ∧
    ((w.conn .server).state ≠ .new → (w.conn .server).remoteId = (w.conn .client).localId) ∧
    ∀ s, ((w.conn s).localId ≠ 0 → (w'.conn s).localId = (w.conn s).localId) ∧
      ((w.conn s).remoteId ≠ 0 → (w'.conn s).remoteId = (w.conn s).remoteId) := by
  intro w w'
  have hw' : w' = Lib.run World.step w more := run_append ..
  obtain ⟨h1, hplain⟩ := Promise.roomy_run (agrees_kept 0) plain_init agrees_init
    fun op hop => h op (List.mem_append_left more hop)
  obtain ⟨h2, -⟩ := Promise.roomy_run (agrees_kept _) hplain (agrees_known h1)
    fun op hop => h op (List.mem_append_right ops hop)
  have hle : w.log.Le w'.log := hw' ▸ w.le_run more
  obtain ⟨-, hc, hs⟩ := h1.ends.inv
  obtain ⟨-, hc', hs'⟩ := h2.ends.inv
  change ClientIds _ (w.conn .client) w.log at hc
  change ServerIds (w.conn .server) w.log at hs
  change ClientIds (w.conn .client).remoteId ((Lib.run World.step w more).conn .client)
    (Lib.run World.step w more).log at hc'
  change ServerIds ((Lib.run World.step w more).conn .server)
    (Lib.run World.step w more).log at hs'
  rw [← hw'] at hc' hs'
  refine ⟨fun hst => ?_, fun hst => ?_, fun s => ?_⟩
  · have hch := hc.connected hst
    have hid : (w.conn .server).localId = (w.conn .client).remoteId := by rw [hs.localId, hch]; rfl
    exact ⟨hid.symm, fun h0 => hs.nonzero (by rw [hch, ← hid, h0])⟩
  · rw [hc.localId, (hs.started hst).2]
    rfl
  · cases s with
    | client =>
      refine ⟨fun h0 => ?_, hc'.known⟩
      rw [hc'.localId, hle.chosen _ _ (chosen_of_ne_zero hc.localId h0)]
      rfl
    | server =>
      refine ⟨fun h0 => ?_, fun h0 => ?_⟩
      · rw [hs'.localId, hle.chosen _ _ (chosen_of_ne_zero hs.localId h0)]
        rfl
      · -- the server has left NEW, so it knows the id the client chose, now and later
        have hn : (w.conn .server).state ≠ .new := fun hn => h0 (hs.new hn).2
        obtain ⟨hsome, hcl⟩ := hs.started hn
        obtain ⟨a, ha⟩ := Option.isSome_iff_exists.1 hsome
        have hn' : (w'.conn .server).state ≠ .new := by
          intro hn'
          have := (hle.chosen _ _ ha).symm.trans (hs'.new hn').1
          cases this
        exact Option.some.inj ((hs'.started hn').2.symm.trans (hle.chosen _ _ hcl))

/-- A session that is set up, used and left by the client. -/
theorem handshake_agrees_open :
    let w := World.run defaults openOps
    (w.conn .client).state = .connected ∧ (w.conn .client).remoteId = (w.conn .server).localId ∧
      ((World.run defaults (openOps ++ [.call .client .disconnect])).conn .client).remoteId =
        (w.conn .client).remoteId := by
  have h := handshake_agrees openOps [.call .client .disconnect] (by decide)
  have hst : ((World.run defaults openOps).conn .client).state = .connected := by decide +kernel
  exact ⟨hst, (h.1 (.inl hst)).1, (h.2.2 .client).2 (by decide +kernel)⟩

end Netchan
