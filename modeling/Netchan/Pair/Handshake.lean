import Netchan.Pair.Promise

/-!
# The handshake

The client's id, once chosen, is the server's `remote_id`, and the id in a CONNECT_ACCEPT is the
server's own. `handshake_recovers`: when the client retries, the handshake completes if and only if
the server still has its CONNECT_ACCEPT in the control queue. `lost_accept_stalls`: once the
CONNECT_ACCEPT was lost, no retry brings it back, because the server answers a CONNECT_INIT only in
the state NEW.
-/

namespace Netchan

open Lib

/-! ## State and ids of an end -/

/-- State and ids are as they were. -/
structure Conn.SameSession (c c' : Conn) : Prop where
  state : c'.state = c.state
  localId : c'.localId = c.localId
  remoteId : c'.remoteId = c.remoteId

/-- What a call does to state and ids, and what is written down of it. -/
inductive SessionCall (c c' : Conn) : Call → Prop
  | same {k : Call} (h : c.SameSession c')
      (hl : ∀ (l : Log) s, (l.called s c k).chosen = l.chosen ∧ (l.called s c k).left = l.left) :
      SessionCall c c' k
  | connect {env : Env} {addr : Addr} (hs : c.server = false) (hn : c.state = .new)
      (hstate : c'.state = .connecting) (hid : c'.localId = ncRandomId env) :
      SessionCall c c' (.connect env addr)
  | accept (hs : c.server = true) (hc : c.state = .connecting) (hstate : c'.state = .connected)
      (hl : c'.localId = c.localId) (hr : c'.remoteId = c.remoteId) : SessionCall c c' .accept
  | disconnect (hc : c.state = .connected) (hstate : c'.state = .closing)
      (hl : c'.localId = c.localId) : SessionCall c c' .disconnect
  | gaveUp {env : Env} {now : UInt32} (hstate : c'.state = .closed) (hl : c'.localId = c.localId) :
      SessionCall c c' (.service env now)

theorem sessionCall (c : Conn) (k : Call) : SessionCall c (k.apply c) k := by
  cases k with
  | connect env addr =>
    by_cases hs : c.server = true
    · have he : netchanConnect env c addr = (.error .err, c) := by simp [netchanConnect, hs]
      exact .same (by rw [Call.apply, he]; exact ⟨rfl, rfl, rfl⟩) fun l s => by
        simp [Log.called, he]
    by_cases hn : c.state = .new
    · refine .connect (by simpa using hs) hn ?_ ?_ <;>
        simp [Call.apply, netchanConnect, hs, hn, ctrlConnectInit, ctrlReserve]
    · have he : netchanConnect env c addr = (.error .err, c) := by simp [netchanConnect, hs, hn]
      exact .same (by rw [Call.apply, he]; exact ⟨rfl, rfl, rfl⟩) fun l s => by
        simp [Log.called, he]
  | accept =>
    by_cases hs : c.server = true
    · by_cases hc : c.state = .connecting
      · refine .accept hs hc ?_ ?_ ?_ <;>
          simp [Call.apply, netchanAccept, hs, hc, ctrlConnectAccept, ctrlReserve, evPush]
      · have he : netchanAccept c = (.error .err, c) := by simp [netchanAccept, hs, hc]
        exact .same (by rw [Call.apply, he]; exact ⟨rfl, rfl, rfl⟩) fun _ _ => ⟨rfl, rfl⟩
    · exact .same (by simp only [Call.apply, netchanAccept, hs]; exact ⟨rfl, rfl, rfl⟩)
        fun _ _ => ⟨rfl, rfl⟩
  | disconnect =>
    by_cases hc : c.state = .connected
    · refine .disconnect hc ?_ ?_ <;>
        simp [Call.apply, netchanDisconnect, hc, ctrlDisconnect, ctrlReserve]
    · have he : netchanDisconnect c = c := by simp [netchanDisconnect, hc]
      exact .same (by rw [Call.apply, he]; exact ⟨rfl, rfl, rfl⟩) fun l s => by simp [Log.called, hc]
  | service env now =>
    rcases netchanService_cases env c now with ⟨-, he⟩ | ⟨-, n, he⟩
    · exact .gaveUp (by rw [Call.apply, he]; rfl) (by rw [Call.apply, he]; rfl)
    · refine .same ?_ fun _ _ => ⟨rfl, rfl⟩
      rw [Call.apply, he]
      refine ⟨?_, ?_, ?_⟩ <;>
      · unfold serviced
        repeat' split
        all_goals rfl
  | chanOpen type dir ct =>
    refine .same ?_ fun l s => ?_
    · simp only [Call.apply, netchanChanOpen_eq]
      repeat' split
      all_goals exact ⟨rfl, rfl, rfl⟩
    · simp only [Log.called]
      split <;> exact ⟨rfl, rfl⟩
  | chanClose j =>
    refine .same ?_ fun l s => ?_
    · simp only [Call.apply, netchanChanClose]
      repeat' split
      all_goals exact ⟨rfl, rfl, rfl⟩
    · simp only [Log.called]
      split <;> exact ⟨rfl, rfl⟩
  | write j data =>
    refine .same ?_ fun l s => ?_
    · simp only [Call.apply]
      rcases netchanChanWrite_cases c j data with ⟨h, -⟩ | ⟨ch, b, p, -, ⟨-, -, h⟩ | ⟨-, -, h⟩⟩ <;>
        rw [h] <;> exact ⟨rfl, rfl, rfl⟩
    · simp only [Log.called]
      split <;> exact ⟨rfl, rfl⟩
  | read j buflen =>
    refine .same ?_ fun _ _ => ⟨rfl, rfl⟩
    simp only [Call.apply]
    rcases netchanChanRead_cases c j buflen with ⟨h, -⟩ | ⟨ch, -, -, -, h⟩ <;>
      rw [h] <;> exact ⟨rfl, rfl, rfl⟩
  | poll =>
    refine .same ?_ fun _ _ => ⟨rfl, rfl⟩
    simp only [Call.apply, netchanPoll]
    split <;> exact ⟨rfl, rfl, rfl⟩

/-- What a frame does to state and ids. -/
inductive SessionFrame (env : Env) (c c' : Conn) : Frame → Prop
  | same {f : Frame} (h : c.SameSession c') (hi : ∀ id, f = .connectInit id → c.server = false)
      (ha : ∀ id v idle, f = .connectAccept id v idle → c.server = true) : SessionFrame env c c' f
  | init {id : UInt32} (hs : c.server = true) (hn : c.state = .new) (hstate : c'.state = .connecting)
      (hl : c'.localId = ncRandomId env) (hr : c'.remoteId = id) :
      SessionFrame env c c' (.connectInit id)
  | again {id : UInt32} (hs : c.server = true) (hn : c.state ≠ .new) (hstate : c'.state = c.state)
      (hl : c'.localId = c.localId) (hr : c'.remoteId = id) : SessionFrame env c c' (.connectInit id)
  | accept {id : UInt32} {v : UInt8} {idle : UInt32} (hs : c.server = false)
      (hstate : c'.state = .connected) (hl : c'.localId = c.localId) (hr : c'.remoteId = id) :
      SessionFrame env c c' (.connectAccept id v idle)
  | disconnect {reason : UInt16} (hstate : c'.state = .closed) (hl : c'.localId = c.localId) :
      SessionFrame env c c' (.disconnect reason)

theorem sessionFrame (env : Env) (c : Conn) (f : Frame) :
    SessionFrame env c (stepFrame env c f) f := by
  cases f with
  | connectInit id =>
    by_cases hs : c.server = true
    · by_cases hn : c.state = .new
      · refine .init hs hn ?_ ?_ ?_ <;> simp [stepFrame, applyFrame, initReceived, hs, hn]
      · refine .again hs hn ?_ ?_ ?_ <;> simp [stepFrame, applyFrame, initReceived, hs, hn]
    · refine .same ?_ (fun _ _ => by simpa using hs) (by simp)
      simp only [stepFrame, applyFrame, hs]
      exact ⟨rfl, rfl, rfl⟩
  | connectAccept id v idle =>
    by_cases hs : c.server = true
    · refine .same ?_ (by simp) fun _ _ _ _ => hs
      simp only [stepFrame, applyFrame, hs]
      exact ⟨rfl, rfl, rfl⟩
    · refine .accept (by simpa using hs) ?_ ?_ ?_ <;>
        simp [stepFrame, applyFrame, hs, evPush]
  | disconnect reason =>
    simp only [stepFrame, applyFrame, disconnectReceived, Option.getD_some]
    split
    · exact .disconnect rfl rfl
    · exact .disconnect rfl rfl
    · exact .disconnect rfl rfl
    · exact .same ⟨rfl, rfl, rfl⟩ (by simp) (by simp)
    · rename_i h
      exact .disconnect h rfl
  | connectRedirect id addr => exact .same ⟨rfl, rfl, rfl⟩ (by simp) (by simp)
  | ping opaq => exact .same ⟨rfl, rfl, rfl⟩ (by simp) (by simp)
  | pong opaq =>
    refine .same ?_ (by simp) (by simp)
    simp only [stepFrame, applyFrame, pongReceived, Option.getD_some]
    repeat' split
    all_goals exact ⟨rfl, rfl, rfl⟩
  | channelOpen id type dir ct =>
    refine .same ?_ (by simp) (by simp)
    simp only [stepFrame, applyFrame, channelOpened_eq, Option.getD_some]
    split <;> exact ⟨rfl, rfl, rfl⟩
  | channelClose id error =>
    refine .same ?_ (by simp) (by simp)
    simp only [stepFrame, applyFrame, channelClosed, Option.getD_some]
    split <;> exact ⟨rfl, rfl, rfl⟩
  | data id seq idx total payload =>
    refine .same ?_ (by simp) (by simp)
    simp only [stepFrame, applyFrame, dataReceived, Option.getD_some]
    repeat' split
    all_goals exact ⟨rfl, rfl, rfl⟩
  | ack id seq =>
    refine .same ?_ (by simp) (by simp)
    simp only [stepFrame, applyFrame, ackReceived, Option.getD_some]
    repeat' split
    all_goals exact ⟨rfl, rfl, rfl⟩
  | windowUpdate id w =>
    refine .same ?_ (by simp) (by simp)
    simp only [stepFrame, applyFrame, windowUpdated, Option.getD_some]
    repeat' split
    all_goals exact ⟨rfl, rfl, rfl⟩

theorem emit_same {now : UInt32} {c c' : Conn} {f : Frame} (h : Emit now c f c') :
    c.SameSession c' := by
  cases h <;> exact ⟨rfl, rfl, rfl⟩

/-! ## The promise -/

/-- The client's id is the one it chose. -/
structure ClientOk (c : Conn) (l : Log) : Prop where
  new : c.state = .new → l.chosen .client = none
  id : ∀ a, l.chosen .client = some a → c.localId = a
  connecting : c.state = .connecting → l.chosen .client = some c.localId
  left : l.left .client = true → c.state ≠ .new ∧ c.state ≠ .connecting

/-- The server's ids are the ones the two ends chose, and it does not come back once it left. -/
structure ServerOk (c : Conn) (l : Log) : Prop where
  new : c.state = .new → l.chosen .server = none
  ids : c.state = .connecting ∨ c.state = .connected →
    l.chosen .server = some c.localId ∧ l.chosen .client = some c.remoteId
  left : l.left .server = true → c.state = .closing ∨ c.state = .closed

/-- Frames carry the ids that were chosen, and a DISCONNECT comes from an end that left. -/
def Frame.Genuine (s : Side) (l : Log) : Frame → Prop
  | .connectInit id => l.chosen .client = some id
  | .connectAccept id _ _ => l.chosen .server = some id
  | .disconnect _ => l.left s = true
  | _ => True

theorem Frame.Genuine.mono {s : Side} {l l' : Log} {f : Frame} (h : f.Genuine s l) (hl : l.Le l') :
    f.Genuine s l' := by
  cases f with
  | connectInit id => exact hl.chosen _ _ h
  | connectAccept id v idle => exact hl.chosen _ _ h
  | disconnect reason => exact hl.left _ h
  | _ => trivial

def Greets : Promise where
  inv x := ClientOk (x.conn .client) x.log ∧ ServerOk (x.conn .server) x.log
  queued := Frame.Genuine
  carried := Frame.Genuine

section
variable {c c' : Conn} {l l' : Log}

theorem Conn.SameSession.refl (c : Conn) : c.SameSession c := ⟨rfl, rfl, rfl⟩

theorem ClientOk.congr (h : ClientOk c l) (hc : c.SameSession c')
    (hch : l'.chosen .client = l.chosen .client) (hl : l'.left .client = l.left .client) :
    ClientOk c' l' := by
  refine ⟨?_, ?_, ?_, ?_⟩
  · rw [hc.state, hch]
    exact h.new
  · rw [hc.localId, hch]
    exact h.id
  · rw [hc.state, hc.localId, hch]
    exact h.connecting
  · rw [hc.state, hl]
    exact h.left

theorem ServerOk.congr (h : ServerOk c l) (hc : c.SameSession c')
    (hs : l'.chosen .server = l.chosen .server) (hl : l'.left .server = l.left .server)
    (hch : ∀ a, l.chosen .client = some a → l'.chosen .client = some a) : ServerOk c' l' := by
  refine ⟨?_, ?_, ?_⟩
  · rw [hc.state, hs]
    exact h.new
  · rw [hc.state, hc.localId, hc.remoteId, hs]
    exact fun hst => ⟨(h.ids hst).1, hch _ (h.ids hst).2⟩
  · rw [hc.state, hl]
    exact h.left

theorem ClientOk.past (h : ClientOk c l) (hid : c'.localId = c.localId) (hn : c'.state ≠ .new)
    (hc : c'.state ≠ .connecting) (hch : l'.chosen .client = l.chosen .client) :
    ClientOk c' l' :=
  ⟨fun h' => absurd h' hn, fun a ha => hid.trans (h.id a (hch ▸ ha)), fun h' => absurd h' hc,
    fun _ => ⟨hn, hc⟩⟩

/-- The server is past its session. -/
theorem ServerOk.past (h : c'.state = .closing ∨ c'.state = .closed) : ServerOk c' l' := by
  refine ⟨fun h' => ?_, fun h' => ?_, fun _ => h⟩
  · rw [h'] at h
    rcases h with h | h <;> cases h
  · rcases h with h | h <;> rw [h] at h' <;> rcases h' with h' | h' <;> cases h'

theorem clientOk_call (hserver : c.server = false) (h : ClientOk c l) (k : Call) :
    ClientOk (k.apply c) (l.called .client c k) := by
  generalize hc' : k.apply c = c'
  have hk := sessionCall c k
  rw [hc'] at hk
  cases hk with
  | same hs hlog => exact h.congr hs (by rw [(hlog l .client).1]) (by rw [(hlog l .client).2])
  | @connect env addr hs hn hstate hid =>
    have hchosen : (l.called .client c (.connect env addr)).chosen .client = some (ncRandomId env) := by
      simp [Log.called, netchanConnect, hs, hn, h.new hn]
    refine ⟨fun h' => ?_, fun a ha => ?_, fun _ => by rw [hchosen, hid], fun h' => ?_⟩
    · rw [hstate] at h'
      cases h'
    · rw [hid]
      exact Option.some.inj (hchosen.symm.trans ha)
    · have hleft : (l.called .client c (.connect env addr)).left = l.left := by
        simp only [Log.called]
        split <;> rfl
      rw [hleft] at h'
      exact absurd hn (h.left h').1
  | accept hs _ _ _ _ =>
    rw [hserver] at hs
    cases hs
  | disconnect hc hstate hl =>
    refine h.past hl (by simp [hstate]) (by simp [hstate]) ?_
    simp only [Log.called]
    split <;> rfl
  | gaveUp hstate hl => exact h.past hl (by simp [hstate]) (by simp [hstate]) rfl

theorem serverOk_call (hserver : c.server = true) (h : ServerOk c l) (k : Call) :
    ServerOk (k.apply c) (l.called .server c k) := by
  generalize hc' : k.apply c = c'
  have hk := sessionCall c k
  rw [hc'] at hk
  cases hk with
  | same hs hlog =>
    obtain ⟨h1, h2⟩ := hlog l .server
    exact h.congr hs (by rw [h1]) (by rw [h2]) (by rw [h1]; exact fun _ ha => ha)
  | connect hs _ _ _ =>
    rw [hserver] at hs
    cases hs
  | accept hs hc hstate hl hr =>
    refine ⟨fun h' => ?_, fun _ => ?_, fun h' => ?_⟩
    · rw [hstate] at h'
      cases h'
    · rw [hl, hr]
      exact h.ids (.inl hc)
    · have := h.left h'
      rw [hc] at this
      rcases this with h' | h' <;> cases h'
  | disconnect hc hstate hl => exact .past (.inl hstate)
  | gaveUp hstate hl => exact .past (.inr hstate)

theorem clientOk_frame {env : Env} {stamp : Log} {f : Frame} (hserver : c.server = false)
    (h : ClientOk c l) : ClientOk (stepFrame env c f)
      (l.frameHeard .client stamp c (stepFrame env c f) f) := by
  have hch : (l.frameHeard .client stamp c (stepFrame env c f) f).chosen = l.chosen := by
    unfold Log.frameHeard
    repeat' split
    all_goals first | rfl | (rename_i hs; rw [hserver] at hs; cases hs.1)
  have hleft : (l.frameHeard .client stamp c (stepFrame env c f) f).left = l.left := by
    unfold Log.frameHeard
    repeat' split
    all_goals rfl
  have hf := sessionFrame env c f
  generalize stepFrame env c f = c' at hf hch hleft ⊢
  cases hf with
  | same hs hi ha => exact h.congr hs (by rw [hch]) (by rw [hleft])
  | init hs _ _ _ _ =>
    rw [hserver] at hs
    cases hs
  | again hs _ _ _ _ =>
    rw [hserver] at hs
    cases hs
  | accept hs hstate hl hr => exact h.past hl (by simp [hstate]) (by simp [hstate]) (by rw [hch])
  | disconnect hstate hl => exact h.past hl (by simp [hstate]) (by simp [hstate]) (by rw [hch])

theorem serverOk_frame {env : Env} {stamp : Log} {f : Frame} (hserver : c.server = true)
    (h : ServerOk c l) (hf : ∀ id, f = .connectInit id → l.chosen .client = some id) :
    ServerOk (stepFrame env c f) (l.frameHeard .server stamp c (stepFrame env c f) f) := by
  have hstep := sessionFrame env c f
  generalize hc' : stepFrame env c f = c' at hstep ⊢
  have hsame : (∀ id, f ≠ .connectInit id) ∨ c.state ≠ .new →
      (l.frameHeard .server stamp c c' f).chosen = l.chosen := by
    intro hne
    unfold Log.frameHeard
    repeat' split
    all_goals first | rfl | skip
    rename_i id hs
    exact absurd hs.2 (hne.resolve_left fun hi => hi id rfl)
  have hleft : (l.frameHeard .server stamp c c' f).left = l.left := by
    unfold Log.frameHeard
    repeat' split
    all_goals rfl
  cases hstep with
  | same hs hi ha =>
    have hch := hsame (.inl fun id he => by
      have := hi id he
      rw [hserver] at this
      cases this)
    exact h.congr hs (by rw [hch]) (by rw [hleft]) (by rw [hch]; exact fun _ ha => ha)
  | @init id hs hn hstate hl hr =>
    refine ⟨fun h' => ?_, fun _ => ?_, fun h' => ?_⟩
    · rw [hstate] at h'
      cases h'
    · rw [hr]
      simp [Log.frameHeard, hs, hn, h.new hn, hf id rfl]
    · rw [hleft] at h'
      have := h.left h'
      rw [hn] at this
      rcases this with h' | h' <;> cases h'
  | @again id hs hn hstate hl hr =>
    have hch := hsame (.inr hn)
    refine ⟨fun h' => absurd (hstate ▸ h') hn, fun h' => ?_, fun h' => ?_⟩
    · rw [hl, hr, hch]
      exact ⟨(h.ids (hstate ▸ h')).1, hf id rfl⟩
    · rw [hstate]
      exact h.left (hleft ▸ h')
  | accept hs _ _ _ =>
    rw [hserver] at hs
    cases hs
  | disconnect hstate hl => exact .past (.inr hstate)

end

/-- What an end does is written down for that end only. -/
theorem called_session_other (l : Log) {s t : Side} (h : t ≠ s) (c : Conn) (k : Call) :
    (l.called s c k).chosen t = l.chosen t ∧ (l.called s c k).left t = l.left t := by
  unfold Log.called
  repeat' split
  all_goals first
    | exact ⟨rfl, rfl⟩
    | exact ⟨Function.update_of_ne h .., rfl⟩
    | exact ⟨rfl, Function.update_of_ne h ..⟩

theorem frameHeard_session_other (l : Log) {s t : Side} (h : t ≠ s) (stamp : Log) (c c' : Conn)
    (f : Frame) : (l.frameHeard s stamp c c' f).chosen t = l.chosen t ∧
      (l.frameHeard s stamp c c' f).left = l.left := by
  unfold Log.frameHeard
  repeat' split
  all_goals first
    | exact ⟨rfl, rfl⟩
    | exact ⟨Function.update_of_ne h .., rfl⟩

theorem frameSent_session (l : Log) (s : Side) (f : Frame) :
    (l.frameSent s f).chosen = l.chosen ∧ (l.frameSent s f).left = l.left := by
  cases f <;> exact ⟨rfl, rfl⟩

theorem greets_sent {x : Ends} {s : Side} {c : Conn} {f : Frame} (h : Greets.inv x)
    (hc : (x.conn s).SameSession c) : Greets.inv (x.sent s c f) := by
  obtain ⟨h1, h2⟩ := frameSent_session x.log s f
  have hall : ∀ t, (x.conn t).SameSession (Function.update x.conn s c t) := by
    intro t
    by_cases ht : t = s
    · subst ht
      rw [Function.update_self]
      exact hc
    · rw [Function.update_of_ne ht]
      exact .refl _
  exact ⟨h.1.congr (hall .client) (congrFun h1 _) (congrFun h2 _), h.2.congr (hall .server) (congrFun h1 _)
    (congrFun h2 _) ((Log.le_frameSent x.log s f).chosen .client)⟩

theorem greets_kept : Greets.Kept (fun _ _ _ => True) (fun _ _ _ _ => True) where
  grow hl h := h.mono hl
  alike := by
    intro x x' h hl ha
    have hs := fun s => (⟨(ha s).state, (ha s).localId, (ha s).remoteId⟩ :
      (x.conn s).SameSession (x'.conn s))
    simp only [Greets, hl]
    exact ⟨h.1.congr (hs _) rfl rfl, h.2.congr (hs _) rfl rfl fun _ ha => ha⟩
  called := by
    intro x s k hsound h _
    have hle := Log.le_called x.log s (x.conn s) k
    refine ⟨?_, fun f hq => ?_⟩
    · cases s with
      | client =>
        obtain ⟨h1, h2⟩ := called_session_other x.log (s := .client) (t := .server) (by simp)
          (x.conn .client) k
        exact ⟨clientOk_call (hsound .client).server h.1 k,
          h.2.congr (.refl _) h1 h2 (hle.chosen .client)⟩
      | server =>
        obtain ⟨h1, h2⟩ := called_session_other x.log (s := .server) (t := .client) (by simp)
          (x.conn .server) k
        exact ⟨h.1.congr (.refl _) h1 h2, serverOk_call (hsound .server).server h.2 k⟩
    · have hclient : (x.conn s).server = false → s = .client := by
        rw [(hsound s).server]
        cases s <;> simp [Side.isServer]
      cases hq with
      | @init env addr hs hn =>
        obtain rfl := hclient hs
        show (x.log.called .client (x.conn .client) (.connect env addr)).chosen .client = _
        simp [Log.called, netchanConnect, hs, hn, h.1.new hn]
      | retry hs hc =>
        obtain rfl := hclient hs
        exact h.1.connecting hc
      | accept hs hc =>
        obtain rfl : s = .server := by
          rw [(hsound s).server] at hs
          cases s <;> simp_all [Side.isServer]
        exact (h.2.ids (.inl hc)).1
      | disconnect hc =>
        show (x.log.called s (x.conn s) .disconnect).left s = true
        simp [Log.called, hc]
      | _ => trivial
  heard := by
    intro x s env stamp f hsound h hle hcar _
    refine ⟨?_, fun g hq => by cases hq <;> trivial⟩
    cases s with
    | client =>
      obtain ⟨h1, h2⟩ := frameHeard_session_other x.log (t := .server) (s := .client) (by simp) stamp
        (x.conn .client) (stepFrame env (x.conn .client) f) f
      refine ⟨clientOk_frame (hsound .client).server h.1, h.2.congr (.refl _) h1 (congrFun h2 _) ?_⟩
      exact (Log.le_frameHeard ..).chosen .client
    | server =>
      obtain ⟨h1, h2⟩ := frameHeard_session_other x.log (t := .client) (s := .server) (by simp) stamp
        (x.conn .server) (stepFrame env (x.conn .server) f) f
      refine ⟨h.1.congr (.refl _) h1 (congrFun h2 _), serverOk_frame (hsound .server).server h.2 ?_⟩
      rintro id rfl
      exact hle.chosen _ _ hcar
  flushed h hq := ⟨greets_sent h (.refl _), hq.mono (Log.le_frameSent ..)⟩
  emitted _ h he := ⟨greets_sent h (emit_same he), by cases he <;> trivial⟩
  transmitted h := ⟨h.1.congr (.refl _) rfl rfl, h.2.congr (.refl _) rfl rfl fun _ ha => ha⟩

/-! ## The frames of a datagram -/

def Frame.isAccept : Frame → Bool
  | .connectAccept _ _ _ => true
  | _ => false

/-- The frames in the control queue. -/
def queueFrames (c : Conn) : List Frame := framesOf c.ctrlBuf.length c.ctrlBuf

/-- The CONNECT_ACCEPT is still in the control queue. -/
def AcceptQueued (c : Conn) : Prop := (queueFrames c).any Frame.isAccept = true

instance (c : Conn) : Decidable (AcceptQueued c) := inferInstanceAs (Decidable (_ = true))

/-- The frames that are sent after the control queue. -/
theorem emits_plain {server : Bool} {now : UInt32} {c c' : Conn} {fs : List Frame}
    (hs : Sound server c) (h : Emits now c fs c') :
    c.SameSession c' ∧ ∀ f ∈ fs, f.Fits ∧ f.isAccept = false := by
  induction h with
  | nil => exact ⟨.refl _, by simp⟩
  | @cons c f c1 fs c2 h1 h2 ih =>
    obtain ⟨h3, h4⟩ := ih (sound_emit hs h1)
    have h5 := emit_same h1
    refine ⟨⟨h3.state.trans h5.state, h3.localId.trans h5.localId, h3.remoteId.trans h5.remoteId⟩, ?_⟩
    intro g hg
    rcases List.mem_cons.1 hg with rfl | hg
    · exact ⟨(emit_fits hs h1).1, by cases h1 <;> rfl⟩
    · exact h4 g hg

/-- An end that processes frames without a DISCONNECT among them: a client is connected by a
CONNECT_ACCEPT and by nothing else. -/
theorem run_session (env : Env) {a : UInt32} : ∀ (fs : List Frame) (c : Conn),
    (∀ f ∈ fs, (∀ reason, f ≠ .disconnect reason) ∧
      ∀ id v idle, f = .connectAccept id v idle → id = a) → c.state ≠ .new →
    let c' := run (stepFrame env) c fs
    c'.localId = c.localId ∧
      (c.server = true → c'.state = c.state) ∧
      (c.server = false → c'.remoteId = c.remoteId ∧ c'.state = c.state ∧ fs.any Frame.isAccept = false ∨
        c'.remoteId = a ∧ c'.state = .connected ∧
          (fs.any Frame.isAccept = true ∨ c.remoteId = a ∧ c.state = .connected))
  | [], c, _, _ => ⟨rfl, fun _ => rfl, fun _ => .inl ⟨rfl, rfl, rfl⟩⟩
  | f :: fs, c, hf, hn => by
    have hserver : (stepFrame env c f).server = c.server := (stepFrame_fixed env c f).1
    have hrest := fun g hg => hf g (List.mem_cons_of_mem f hg)
    obtain ⟨hnd, hid⟩ := hf f (.head _)
    have hstep := sessionFrame env c f
    rw [run_cons]
    have ih := run_session env fs (stepFrame env c f) hrest
    generalize stepFrame env c f = c1 at hserver hstep ih ⊢
    cases hstep with
    | same hs hi ha =>
      obtain ⟨h1, h2, h3⟩ := ih (by rw [hs.state]; exact hn)
      refine ⟨h1.trans hs.localId, fun hsv => (h2 (hserver.trans hsv)).trans hs.state, fun hsv => ?_⟩
      have hacc : f.isAccept = false := by
        cases f with
        | connectAccept id v idle =>
          have := ha id v idle rfl
          rw [hsv] at this
          cases this
        | _ => rfl
      have h3 := h3 (hserver.trans hsv)
      rw [hs.remoteId, hs.state] at h3
      simpa only [List.any_cons, hacc, Bool.false_or] using h3
    | init hs hn' => exact absurd hn' hn
    | @again id hs hn' hstate hl hr =>
      obtain ⟨h1, h2, -⟩ := ih (by rw [hstate]; exact hn)
      refine ⟨h1.trans hl, fun hsv => (h2 (hserver.trans hsv)).trans hstate, fun hsv => ?_⟩
      rw [hs] at hsv
      cases hsv
    | @accept id v idle hs hstate hl hr =>
      obtain ⟨h1, -, h3⟩ := ih (by rw [hstate]; simp)
      refine ⟨h1.trans hl, fun hsv => ?_, fun hsv => .inr ?_⟩
      · rw [hs] at hsv
        cases hsv
      · have hida := hid id v idle rfl
        rcases h3 (hserver.trans hsv) with ⟨h4, h5, -⟩ | ⟨h4, h5, -⟩
        · exact ⟨h4.trans (hr.trans hida), h5.trans hstate, .inl rfl⟩
        · exact ⟨h4, h5, .inl rfl⟩
    | disconnect hstate hl => exact absurd rfl (hnd _)

/-! ## A retry -/

/-- The datagram has room for the header and the whole control queue. -/
def Op.SendsAll (w : World) : Op → Prop
  | .send s _ buflen =>
    sendHdrSize (w.conn s) + (w.conn s).ctrlBuf.length ≤ sendRoom (w.conn s) buflen
  | _ => True

instance (w : World) : ∀ op : Op, Decidable (op.SendsAll w)
  | .send s _ buflen => inferInstanceAs
      (Decidable (sendHdrSize (w.conn s) + (w.conn s).ctrlBuf.length ≤ sendRoom (w.conn s) buflen))
  | .call .. | .deliver .. | .dup .. | .drop .. => inferInstanceAs (Decidable True)

theorem Op.SendsAll.whole {w : World} {op : Op} (h : op.SendsAll w) : op.SendsWhole w := by
  cases op with
  | send s env buflen => exact .inr h
  | _ => trivial

theorem headerOk_sent {c c' : Conn} (h : isInit c = false) (hid : c.remoteId = c'.localId)
    (rest : List UInt8) : headerOk c' (headerOf c ++ rest) = true := by
  have hh : headerOf c ++ rest =
      ncPktFlagPktnum :: (wr32 c.remoteId ++ (wr16 c.nextPktNum ++ rest)) := by
    simp [headerOf, sendHeader, h]
  rw [headerOk, hh, byte_cons_zero, rd32_cons, rd32_wr32, hid]
  simp only [List.length_cons, List.length_append, length_wr32, length_wr16, Bool.and_eq_true,
    decide_eq_true_eq, decide_true, Bool.or_true, and_true]
  refine ⟨?_, ?_⟩
  · simp only [ncHdrInitSize]
    omega
  · rw [show hdrSize ncPktFlagPktnum = 7 by decide]
    omega

/-- **What is sent and what stays** when an end sends its whole queue. -/
theorem send_queue {w : World} {s : Side} {env : Env} {buflen : Nat} {qs : List Frame}
    (hs : w.toEnds.Sound) (hq : (w.conn s).ctrlBuf = encodeAll qs) (hfit : ∀ f ∈ qs, f.Fits)
    (hroom : (Op.send s env buflen).SendsAll w) :
    let w' := w.step (.send s env buflen)
    w'.conn s.other = w.conn s.other ∧ (w.conn s).SameSession (w'.conn s) ∧
      (w'.conn s).ctrlBuf = [] ∧ w'.net s = w.net s ∧
      (w'.net s.other = w.net s.other ∧ qs = [] ∨
        ∃ fs pkt rest, w'.net s.other = w.net s.other ++ [pkt] ∧
          packetFrames pkt.bytes = qs ++ fs ∧ (∀ f ∈ fs, f.isAccept = false) ∧
          pkt.bytes = headerOf (w.conn s) ++ rest) := by
  have hb : ¬ buflen < sendHdrSize (w.conn s) := by
    have : sendRoom (w.conn s) buflen ≤ buflen := Nat.min_le_right _ _
    have hroom : sendHdrSize (w.conn s) + (w.conn s).ctrlBuf.length ≤ sendRoom (w.conn s) buflen :=
      hroom
    omega
  rcases netchanSendNext_cases env (w.conn s) buflen with he | ⟨-, fs, c', hem, he⟩
  · have hw : w.step (.send s env buflen) = w := by
      simp only [World.step, World.transmit, he, Function.update_eq_self]
    have hempty : (w.conn s).ctrlBuf = [] := by
      unfold netchanSendNext at he
      split at he
      · rename_i hd
        simp only [hasData, Bool.not_eq_true', Bool.or_eq_false_iff, Bool.not_eq_false',
          List.isEmpty_iff] at hd
        exact hd.1
      · cases congrArg Prod.snd he
    rw [hw]
    refine ⟨rfl, .refl _, hempty, rfl, .inl ⟨rfl, ?_⟩⟩
    rw [hempty] at hq
    cases qs with
    | nil => rfl
    | cons f qs =>
      obtain ⟨b, p, hfb, -⟩ := encode_cons f
      rw [encodeAll_cons, hfb] at hq
      cases hq
  · have hsent : ctrlSent (w.conn s) buflen = (w.conn s).ctrlBuf.length :=
      Promise.ctrlSent_whole (.inr hroom) hb
    have hs' : Netchan.Sound s.isServer (ctrlFlushed (w.conn s) buflen) := (hs s).congr rfl rfl rfl
    obtain ⟨hsame, hplain⟩ := emits_plain hs' hem
    rw [hsent, List.take_length, hq, List.append_assoc, ← encodeAll_append] at he
    simp only [World.step, World.transmit, he, Function.update_self,
      Function.update_of_ne s.other_ne, Function.update_of_ne s.other_ne.symm]
    refine ⟨trivial, ⟨hsame.state, hsame.localId, hsame.remoteId⟩, ?_, trivial, .inr ?_⟩
    · rw [emits_ctrl hem]
      simp [ctrlFlushed, hsent]
    · refine ⟨fs, _, _, rfl, ?_, fun f hf => (hplain f hf).2, rfl⟩
      refine Promise.packetFrames_encode rfl (Promise.byte_headerOf _ _) fun f hf => ?_
      rcases List.mem_append.1 hf with hf | hf
      · exact hfit f hf
      · exact (hplain f hf).1

/-- The frames of a datagram are genuine. -/
theorem carries_genuine {s : Side} {log : Log} : ∀ (fs : List Frame) (l : Log),
    Greets.Carries s l fs → (l.advance s fs).Le log → ∀ f ∈ fs, f.Genuine s log
  | f :: fs, l, hc, hle, g, hg => by
    rcases List.mem_cons.1 hg with rfl | hg
    · exact Frame.Genuine.mono hc.1 ((Log.le_advance s fs _).trans hle)
    · exact carries_genuine fs (l.frameSent s f) hc.2 hle g hg

theorem queueFrames_eq {w : World} (h : Greets.Holds w) (s : Side) :
    (w.conn s).ctrlBuf = encodeAll (queueFrames (w.conn s)) ∧
      ∀ f ∈ queueFrames (w.conn s), f.Fits := by
  obtain ⟨qs, hq, hf⟩ := h.ends.queue s
  have hfit : ∀ f ∈ qs, f.Fits := fun f hm => (hf f hm).1.1
  have he : queueFrames (w.conn s) = qs := by
    rw [queueFrames, hq]
    exact Promise.framesOf_encode qs _ hfit (Nat.le_refl _)
  rw [he]
  exact ⟨hq, hfit⟩

/-- The frames an end queues while it processes others are no CONNECT_ACCEPTs. -/
theorem run_queue (env : Env) : ∀ (fs : List Frame) (c : Conn),
    Adds c.ctrlBuf (run (stepFrame env) c fs).ctrlBuf fun g => g.Fits ∧ g.isAccept = false
  | [], c => .refl _
  | f :: fs, c => by
    refine .trans ?_ (run_queue env fs (stepFrame env c f))
    obtain ⟨gs, hb, hg⟩ := frame_ctrl env c f
    exact ⟨gs, hb, fun g hm => ⟨(hg g hm).fits, by cases hg g hm <;> rfl⟩⟩

theorem acceptQueued_adds {c c' : Conn} {qs : List Frame} (hq : c.ctrlBuf = encodeAll qs)
    (hfit : ∀ f ∈ qs, f.Fits)
    (h : Adds c.ctrlBuf c'.ctrlBuf fun g => g.Fits ∧ g.isAccept = false) :
    AcceptQueued c' ↔ AcceptQueued c := by
  obtain ⟨gs, hb, hg⟩ := h
  have h1 : queueFrames c = qs := by
    rw [queueFrames, hq]
    exact Promise.framesOf_encode qs _ hfit (Nat.le_refl _)
  have h2 : queueFrames c' = qs ++ gs := by
    rw [queueFrames, hb, hq, ← encodeAll_append]
    refine Promise.framesOf_encode _ _ (fun f hf => ?_) (Nat.le_refl _)
    rcases List.mem_append.1 hf with hf | hf
    · exact hfit f hf
    · exact (hg f hf).1
  have hnone : gs.any Frame.isAccept = false := by
    rw [List.any_eq_false]
    intro f hf
    simp [(hg f hf).2]
  unfold AcceptQueued
  rw [h1, h2, List.any_append, hnone, Bool.or_false]

section
variable {w : World}

theorem greets_step {op : Op} (h : Greets.Holds w) (hop : op.SendsWhole w) :
    Greets.Holds (w.step op) :=
  Promise.step greets_kept h
    (Promise.meets_of_whole hop (fun _ _ _ => trivial) fun _ _ _ _ => trivial)

/-- A datagram on its way, and the end that is to receive it: it processes genuine frames, or it
refuses the datagram. -/
theorem deliver_session {s : Side} {pkt : Packet} (env : Env) (source : Option Addr)
    (h : Greets.Holds w) (hnet : w.net s = [pkt]) :
    let w' := w.step (.deliver s 0 env source)
    w'.conn s.other = w.conn s.other ∧ w'.net s = [] ∧ w'.net s.other = w.net s.other ∧
      (∀ f ∈ packetFrames pkt.bytes, f.Genuine s.other w.log) ∧
      (headerOk (w.conn s) pkt.bytes = false ∧ w'.conn s = w.conn s ∨
        ∃ c, (w.conn s).Alike c ∧ c.ctrlBuf = (w.conn s).ctrlBuf ∧
          w'.conn s = run (stepFrame env) c (packetFrames pkt.bytes)) := by
  obtain ⟨hdr, fs, hp, hh, hf, hcar, hle⟩ := h.net s pkt (by simp [hnet])
  have hfs : packetFrames pkt.bytes = fs := Promise.packetFrames_encode hp hh fun f hm => (hf f hm).1
  rw [← (h.ends.sound s).server] at hf
  simp only [World.step, hnet, List.getElem?_cons_zero, World.receive, List.eraseIdx_zero,
    List.tail_cons, Function.update_self, Function.update_of_ne s.other_ne]
  refine ⟨trivial, trivial, trivial, ?_, ?_⟩
  · rw [hfs]
    exact carries_genuine fs pkt.stamp hcar hle
  · cases hok : headerOk (w.conn s) pkt.bytes with
    | false => exact .inl ⟨rfl, by simp [netchanFeed, hok]⟩
    | true =>
      obtain ⟨ha, hc⟩ := Promise.fedConn_alike env (w.conn s) pkt.bytes source
      refine .inr ⟨_, ha, hc, ?_⟩
      rw [hfs]
      exact Promise.feed_packet env source hok hp hh hf

/-- **The server sends and the client receives**: it is connected if the CONNECT_ACCEPT was in the
server's queue. -/
theorem round_session {env : Env} {buflen : Nat} (env' : Env) (source : Option Addr) (h : Greets.Holds w)
    (hst : (w.conn .server).state = .connected) (hcl : (w.conn .client).state ≠ .new)
    (hnet : w.net .client = []) (hroom : (Op.send .server env buflen).SendsAll w) :
    let w' := (w.step (.send .server env buflen)).step (.deliver .client 0 env' source)
    Greets.Holds w' ∧ (w.conn .server).SameSession (w'.conn .server) ∧ ¬ AcceptQueued (w'.conn .server) ∧
      w'.net .client = [] ∧
      (if AcceptQueued (w.conn .server) then (w'.conn .client).state = .connected ∧
        (w'.conn .client).remoteId = (w.conn .server).localId
      else (w'.conn .client).state = (w.conn .client).state ∧
        (w'.conn .client).remoteId = (w.conn .client).remoteId) := by
  obtain ⟨hq, hfit⟩ := queueFrames_eq h .server
  have h1 := greets_step h hroom.whole
  obtain ⟨hother, hsame, hempty, -, hsent⟩ := send_queue h.ends.sound hq hfit hroom
  have hnot : ∀ c : Conn, c.ctrlBuf = [] → ¬ AcceptQueued c := by
    intro c hc
    simp [AcceptQueued, queueFrames, hc, framesOf]
  generalize hw1 : w.step (.send .server env buflen) = w1 at h1 hother hsame hempty hsent ⊢
  simp only [Side.other, hnet, List.nil_append] at hother hsent
  rcases hsent with ⟨hn, hnil⟩ | ⟨fs, pkt, rest, hn, hframes, hplain, hbytes⟩
  · have hw' : w1.step (.deliver .client 0 env' source) = w1 := by simp [World.step, hn]
    rw [hw']
    dsimp only
    rw [hother]
    have hna : ¬ AcceptQueued (w.conn .server) := by simp [AcceptQueued, hnil]
    refine ⟨h1, hsame, hnot _ hempty, hn, ?_⟩
    rw [if_neg hna]
    exact ⟨rfl, rfl⟩
  · have h2 : Greets.Holds (w1.step (.deliver .client 0 env' source)) := greets_step h1 trivial
    obtain ⟨hserver, hn', -, hgen, hrecv⟩ := deliver_session env' source h1 hn
    simp only [Side.other] at hserver hgen
    obtain ⟨hids, hchosen⟩ := h1.ends.inv.2.ids (.inr (hsame.state.trans hst))
    have hid : (w.conn .client).localId = (w.conn .server).remoteId := by
      rw [← hsame.remoteId, ← hother]
      exact h1.ends.inv.1.id _ hchosen
    refine ⟨h2, by rw [hserver]; exact hsame, hnot _ (by rw [hserver]; exact hempty), hn', ?_⟩
    rcases hrecv with ⟨hbad, -⟩ | ⟨c, ha, -, hc⟩
    · have hinit : isInit (w.conn .server) = false := by simp [isInit, hst]
      rw [hbytes, hother, headerOk_sent hinit hid.symm] at hbad
      cases hbad
    · rw [hother] at ha
      have hrun := run_session env' (a := (w.conn .server).localId) (packetFrames pkt.bytes) c
        (fun f hf => ⟨?_, ?_⟩) (by rw [ha.state]; exact hcl)
      · obtain ⟨-, -, hrun⟩ := hrun
        have hrun := hrun (ha.server.trans (h.ends.sound .client).server)
        rw [hc]
        have hany : (packetFrames pkt.bytes).any Frame.isAccept =
            (queueFrames (w.conn .server)).any Frame.isAccept := by
          have : fs.any Frame.isAccept = false := by
            rw [List.any_eq_false]
            exact fun f hf => by simp [hplain f hf]
          rw [hframes, List.any_append, this, Bool.or_false]
        rw [ha.remoteId, ha.state, hany] at hrun
        split
        · rename_i hacc
          rcases hrun with ⟨-, -, hno⟩ | ⟨hr, hs, -⟩
          · rw [hacc] at hno
            cases hno
          · exact ⟨hs, hr⟩
        · rename_i hacc
          rcases hrun with ⟨hr, hs, -⟩ | ⟨hr, hs, hyes⟩
          · exact ⟨hs, hr⟩
          · obtain ⟨hr', hs'⟩ := hyes.resolve_left hacc
            exact ⟨hs.trans hs'.symm, hr.trans hr'.symm⟩
      · rintro reason rfl
        -- the server did not leave
        have hleft := h1.ends.inv.2.left (hgen _ hf)
        rw [hsame.state, hst] at hleft
        rcases hleft with h' | h' <;> cases h'
      · rintro id v idle rfl
        have : w1.log.chosen .server = some id := hgen _ hf
        rw [hids] at this
        exact (Option.some.inj this).symm.trans hsame.localId

/-- The client's retry timer has run out and it has attempts left. -/
structure Retries (c : Conn) (now : UInt32) : Prop where
  elapsed : now - c.connectSentMs ≥ ncConnectRetryMs
  attempts : c.connectAttempts < ncConnectRetries

instance (c : Conn) (now : UInt32) : Decidable (Retries c now) :=
  decidable_of_iff (now - c.connectSentMs ≥ ncConnectRetryMs ∧ c.connectAttempts < ncConnectRetries)
    ⟨fun h => ⟨h.1, h.2⟩, fun h => ⟨h.elapsed, h.attempts⟩⟩

/-- **The client retries and the server receives**: nothing changes but the server's queue, which
gets no CONNECT_ACCEPT. -/
theorem retry_session {env env' : Env} {now : UInt32} {buflen : Nat} (env'' : Env)
    (source : Option Addr) (h : Greets.Holds w) (hst : (w.conn .server).state = .connected)
    (hcl : (w.conn .client).state = .connecting) (hnet : ∀ s, w.net s = [])
    (hretry : Retries (w.conn .client) now)
    (hroom : (Op.send .client env' buflen).SendsAll (w.step (.call .client (.service env now)))) :
    let w' := ((w.step (.call .client (.service env now))).step (.send .client env' buflen)).step
      (.deliver .server 0 env'' source)
    Greets.Holds w' ∧ (w'.conn .server).state = .connected ∧
      (w'.conn .server).localId = (w.conn .server).localId ∧
      (AcceptQueued (w'.conn .server) ↔ AcceptQueued (w.conn .server)) ∧
      w'.net .client = [] ∧ (w'.conn .client).state = .connecting := by
  have h1 : Greets.Holds (w.step (.call .client (.service env now))) := greets_step h trivial
  have hs1 : (w.step (.call .client (.service env now))).conn .server = w.conn .server := rfl
  have hn1 : (w.step (.call .client (.service env now))).net = w.net := rfl
  have hc1 : ((w.step (.call .client (.service env now))).conn .client).state = .connecting := by
    have hg : ¬ GivesUp (w.conn .client) now := by
      rintro (hg | hg)
      · exact absurd hg.2.2.2 (by have := hretry.attempts; omega)
      · rw [hcl] at hg
        cases hg.1
    show ((netchanService env (w.conn .client) now).2).state = _
    rcases netchanService_cases env (w.conn .client) now with ⟨hg', -⟩ | ⟨-, n, he⟩
    · exact absurd hg' hg
    · rw [he, ← hcl]
      show (serviced env (w.conn .client) now).state = _
      unfold serviced
      repeat' split
      all_goals rfl
  generalize w.step (.call .client (.service env now)) = w1 at h1 hs1 hn1 hc1 hroom ⊢
  obtain ⟨hq, hfit⟩ := queueFrames_eq h1 .client
  have h2 := greets_step h1 hroom.whole
  obtain ⟨hother, hsame, -, hn, hsent⟩ := send_queue h1.ends.sound hq hfit hroom
  generalize w1.step (.send .client env' buflen) = w2 at h2 hother hsame hn hsent ⊢
  simp only [Side.other, hn1, hnet, List.nil_append] at hother hn hsent
  have hst2 : (w2.conn .server).state = .connected := by rw [hother, hs1, hst]
  rcases hsent with ⟨hn', -⟩ | ⟨fs, pkt, rest, hn', -, -, -⟩
  · rw [show w2.step (.deliver .server 0 env'' source) = w2 by simp [World.step, hn']]
    exact ⟨h2, hst2, by rw [hother, hs1], by rw [hother, hs1], hn, hsame.state.trans hc1⟩
  · have h3 : Greets.Holds (w2.step (.deliver .server 0 env'' source)) := greets_step h2 trivial
    obtain ⟨hclient, -, hn3, hgen, hrecv⟩ :=
      deliver_session env'' source h2 hn'
    simp only [Side.other] at hclient hgen hn3
    refine ⟨h3, ?_⟩
    suffices hserver : ((w2.step (.deliver .server 0 env'' source)).conn .server).state = .connected ∧
        ((w2.step (.deliver .server 0 env'' source)).conn .server).localId =
          (w2.conn .server).localId ∧
        (AcceptQueued ((w2.step (.deliver .server 0 env'' source)).conn .server) ↔
          AcceptQueued (w2.conn .server)) by
      rw [hother, hs1] at hserver
      exact ⟨hserver.1, hserver.2.1, hserver.2.2, hn3.trans hn,
        by rw [hclient]; exact hsame.state.trans hc1⟩
    rcases hrecv with ⟨-, hc⟩ | ⟨c, ha, hctrl, hc⟩ <;> rw [hc]
    · exact ⟨hst2, rfl, Iff.rfl⟩
    · have hgood : ∀ f ∈ packetFrames pkt.bytes, (∀ reason, f ≠ .disconnect reason) ∧
          ∀ id v idle, f = .connectAccept id v idle → id = (w2.conn .server).localId := by
        refine fun f hf => ⟨?_, ?_⟩
        · rintro reason rfl
          -- the client did not leave
          exact absurd (hsame.state.trans hc1) (h2.ends.inv.1.left (hgen _ hf)).2
        · rintro id v idle rfl
          have : w2.log.chosen .server = some id := hgen _ hf
          rw [(h2.ends.inv.2.ids (.inr hst2)).1] at this
          exact (Option.some.inj this).symm
      obtain ⟨hl, hstate, -⟩ := run_session env'' (packetFrames pkt.bytes) c hgood
        (by rw [ha.state, hst2]; simp)
      obtain ⟨hq2, hfit2⟩ := queueFrames_eq h2 .server
      refine ⟨?_, hl.trans ha.localId, ?_⟩
      · rw [hstate (ha.server.trans (h2.ends.sound .server).server), ha.state, hst2]
      · exact acceptQueued_adds hq2 hfit2 (hctrl ▸ run_queue env'' _ c)

end

/-- A datagram of the server, sent and delivered. -/
structure Round where
  sendEnv : Env
  buflen : Nat
  recvEnv : Env
  source : Option Addr

def Round.ops (r : Round) : List Op :=
  [.send .server r.sendEnv r.buflen, .deliver .client 0 r.recvEnv r.source]

/-- The client retries, its datagram is delivered, and then what the server sends. -/
structure Recovery where
  serviceEnv : Env
  now : UInt32
  sendEnv : Env
  buflen : Nat
  recvEnv : Env
  source : Option Addr
  first : Round
  rounds : List Round

def Recovery.ops (r : Recovery) : List Op :=
  [.call .client (.service r.serviceEnv r.now), .send .client r.sendEnv r.buflen,
    .deliver .server 0 r.recvEnv r.source] ++ (r.first :: r.rounds).flatMap Round.ops

/-- The server was accepted, the client does not know, and nothing is on its way. -/
structure Stalled (w : World) : Prop where
  client : (w.conn .client).state = .connecting
  server : (w.conn .server).state = .connected
  net : ∀ s, w.net s = []

instance (w : World) : Decidable (Stalled w) :=
  decidable_of_iff ((w.conn .client).state = .connecting ∧ (w.conn .server).state = .connected ∧
      ∀ s, w.net s = [])
    ⟨fun h => ⟨h.1, h.2.1, h.2.2⟩, fun h => ⟨h.client, h.server, h.net⟩⟩

theorem rounds_session : ∀ (rs : List Round) (w : World), Greets.Holds w →
    (w.conn .server).state = .connected → (w.conn .client).state ≠ .new → w.net .client = [] →
    ¬ AcceptQueued (w.conn .server) →
    Along World.step (fun w op => op.SendsAll w) w (rs.flatMap Round.ops) →
    let w' := run World.step w (rs.flatMap Round.ops)
    (w'.conn .client).state = (w.conn .client).state ∧
      (w'.conn .client).remoteId = (w.conn .client).remoteId ∧
      (w'.conn .server).localId = (w.conn .server).localId
  | [], w, _, _, _, _, _, _ => ⟨rfl, rfl, rfl⟩
  | r :: rs, w, h, hst, hcl, hnet, hq, hroom => by
    rw [List.flatMap_cons] at hroom ⊢
    obtain ⟨h1, h2⟩ := along_append.1 hroom
    rw [run_append]
    obtain ⟨hH, hs, hq', hn, hc⟩ := round_session r.recvEnv r.source h hst hcl
      hnet h1.1
    rw [if_neg hq] at hc
    obtain ⟨h3, h4, h5⟩ := rounds_session rs _ hH (hs.state.trans hst) (by rw [hc.1]; exact hcl) hn
      hq' h2
    exact ⟨h3.trans hc.1, h4.trans hc.2, h5.trans hs.localId⟩

/-- **The retry recovers the handshake if and only if the CONNECT_ACCEPT is still in the server's
control queue.** -/
theorem handshake_recovers {cfg : Side → Cfg} {ops : List Op}
    (h : Along World.step (fun w op => op.SendsWhole w) (.init cfg) ops)
    (hst : Stalled (World.run cfg ops)) {r : Recovery}
    (hretry : Retries ((World.run cfg ops).conn .client) r.now)
    (hroom : Along World.step (fun w op => op.SendsAll w) (World.run cfg ops) r.ops) :
    let w' := World.run cfg (ops ++ r.ops)
    ((w'.conn .client).state = .connected ∧
        (w'.conn .client).remoteId = (w'.conn .server).localId) ↔
      AcceptQueued ((World.run cfg ops).conn .server) := by
  have hrun : World.run cfg (ops ++ r.ops) = run World.step (World.run cfg ops) r.ops := run_append ..
  have hholds : Greets.Holds (World.run cfg ops) := by
    refine run_invariant (I := Greets.Holds) (fun w op hw hop => greets_step hw hop)
      (Promise.init cfg ⟨⟨fun _ => rfl, fun _ ha => (by cases ha), fun hc => (by cases hc),
        fun hl => (by cases hl)⟩, ⟨fun _ => rfl, fun hc => ?_, fun hl => (by cases hl)⟩⟩) h
    rcases hc with hc | hc <;> cases hc
  rw [hrun]
  generalize World.run cfg ops = w at hst hretry hroom hholds ⊢
  unfold Recovery.ops at hroom ⊢
  obtain ⟨h1, h2⟩ := along_append.1 hroom
  rw [run_append]
  obtain ⟨hH, hserver, hlocal, hqueue, hnet, hclient⟩ := retry_session r.recvEnv r.source
    hholds hst.server hst.client hst.net hretry h1.2.1
  rw [run_cons, run_cons, run_cons, run_nil] at h2 ⊢
  generalize ((w.step _).step _).step _ = w3 at hH hserver hlocal hqueue hnet hclient h2 ⊢
  rw [List.flatMap_cons] at h2 ⊢
  obtain ⟨h3, h4⟩ := along_append.1 h2
  rw [run_append]
  obtain ⟨hH', hs, hq', hn, hc⟩ := round_session r.first.recvEnv r.first.source
    hH hserver (by rw [hclient]; simp) hnet h3.1
  have hfirst : run World.step w3 r.first.ops =
      (w3.step (.send .server r.first.sendEnv r.first.buflen)).step
        (.deliver .client 0 r.first.recvEnv r.first.source) := rfl
  rw [hfirst] at h4 ⊢
  generalize (w3.step _).step _ = w4 at hH' hs hq' hn hc h4 ⊢
  have hne : (w4.conn .client).state ≠ .new := by
    split at hc
    · rw [hc.1]
      simp
    · rw [hc.1, hclient]
      simp
  obtain ⟨h5, h6, h7⟩ := rounds_session r.rounds w4 hH' (hs.state.trans hserver) hne hn hq' h4
  dsimp only
  rw [h5, h6, h7, ← hqueue]
  split at hc
  · rename_i hacc
    exact ⟨fun _ => hacc, fun _ => ⟨hc.1, hc.2.trans hs.localId.symm⟩⟩
  · rename_i hacc
    refine ⟨fun hcon => ?_, fun h' => absurd h' hacc⟩
    rw [hc.1, hclient] at hcon
    cases hcon.1

/-- A retry a second after the client's first datagram, and one datagram back. -/
def retryLater : Recovery where
  serviceEnv := {}
  now := 2000
  sendEnv := { now := 2000 }
  buflen := 1200
  recvEnv := { now := 2001 }
  source := some [2]
  first := ⟨{ now := 2002 }, 1200, { now := 2003 }, some [1]⟩
  rounds := [⟨{ now := 2004 }, 1200, { now := 2005 }, some [1]⟩]

/-- The server was accepted and has not sent anything yet. -/
def acceptedOps : List Op := openOps.take 4

theorem handshake_recovers_queued :
    AcceptQueued ((World.run (fun _ => netchanCfgDefault) acceptedOps).conn .server) ∧
      ((World.run (fun _ => netchanCfgDefault) (acceptedOps ++ retryLater.ops)).conn .client).state =
        .connected := by
  obtain ⟨hq, hsends, hstalled, hretry, hroom⟩ :
      AcceptQueued ((World.run (fun _ => netchanCfgDefault) acceptedOps).conn .server) ∧
      Along World.step (fun w op => op.SendsWhole w) (.init fun _ => netchanCfgDefault)
        acceptedOps ∧
      Stalled (World.run (fun _ => netchanCfgDefault) acceptedOps) ∧
      Retries ((World.run (fun _ => netchanCfgDefault) acceptedOps).conn .client) retryLater.now ∧
      Along World.step (fun w op => op.SendsAll w)
        (World.run (fun _ => netchanCfgDefault) acceptedOps) retryLater.ops := by
    decide +kernel
  exact ⟨hq, ((handshake_recovers hsends hstalled hretry hroom).2 hq).1⟩

/-- The datagram with the CONNECT_ACCEPT is lost. -/
def lostAcceptOps : List Op := openOps.take 5 ++ [.drop .client 0]

/-- **A lost CONNECT_ACCEPT stalls the handshake**: the server ignores the repeated CONNECT_INIT
and the client is left connecting. -/
theorem lost_accept_stalls :
    let w := World.run (fun _ => netchanCfgDefault) lostAcceptOps
    let w' := World.run (fun _ => netchanCfgDefault) (lostAcceptOps ++ retryLater.ops)
    Along World.step (fun w op => op.SendsWhole w) (.init fun _ => netchanCfgDefault) lostAcceptOps ∧
      Stalled w ∧ Retries (w.conn .client) retryLater.now ∧
      Along World.step (fun w op => op.SendsAll w) w retryLater.ops ∧
      (∀ s, w'.net s = []) ∧ (w'.conn .client).state = .connecting := by
  decide +kernel

end Netchan
