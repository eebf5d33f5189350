import Netchan.Proof.Change

/-!
# The queue of control frames

`requested c st` are the control frames the encoders are called with in a step, `reserved` those of
them that find room. `call_requests` and `frame_requests`: a step adds exactly these to the queue,
whole (`reserveAll_eq`) and within its buffer (`reserveAll_bounded`). `Queues c st f` says which
frames that can be; each fits its bytes and is one the peer accepts (`Queues.fits`,
`Queues.accepted`).
-/

namespace Netchan

open Lib

inductive Queues (c : Conn) : Step → Frame → Prop
  | init {env : Env} {addr : Addr} (hs : c.server = false) (hn : c.state = .new) :
      Queues c (.call (.connect env addr)) (.connectInit (ncRandomId env))
  | retry {env : Env} {now : UInt32} (hs : c.server = false) (hc : c.state = .connecting) :
      Queues c (.call (.service env now)) (.connectInit c.localId)
  | accept (hs : c.server = true) (hc : c.state = .connecting) :
      Queues c (.call .accept) (.connectAccept c.localId ncVersion c.cfg.idleTimeoutMs)
  | disconnect (hc : c.state = .connected) : Queues c (.call .disconnect) (.disconnect 0)
  | ping {env : Env} {now : UInt32} (hc : c.state = .connected) :
      Queues c (.call (.service env now)) (.ping (ncRandomId env))
  | pong {env : Env} {opaq : UInt32} : Queues c (.frame env (.ping opaq)) (.pong opaq)
  | opened {type : ChanType} {dir : Dir} {ct : List UInt8} (hc : c.channels c.nextChanId = none)
      (ho : (netchanChanOpen c type dir ct).1 = some c.nextChanId) :
      Queues c (.call (.chanOpen type dir ct)) (openFrame (createdChan c type dir ct))
  | advertised {type : ChanType} {dir : Dir} {ct : List UInt8} (hd : dir ≠ .send)
      (hc : c.channels c.nextChanId = none) :
      Queues c (.call (.chanOpen type dir ct)) (.windowUpdate c.nextChanId c.cfg.chanWindow)
  | refused {env : Env} {id : ChanId} {type : ChanType} {dir : Dir} {ct : List UInt8}
      (h : (c.channels id).isSome ∨ ncMaxChan ≤ c.chanUsed) :
      Queues c (.frame env (.channelOpen id type dir ct)) (.channelClose id 1)
  | granted {env : Env} {id : ChanId} {type : ChanType} {dir : Dir} {ct : List UInt8}
      (hd : dir = .send) (hc : c.channels id = none) :
      Queues c (.frame env (.channelOpen id type dir ct)) (.windowUpdate id c.cfg.chanWindow)
  | closed {id : ChanId} (hc : (c.channels id).isSome) :
      Queues c (.call (.chanClose id)) (.channelClose id 0)

/-- The control frames a step's encoders are called with, in order. -/
def requested (c : Conn) : Step → List Frame
  | .call (.connect env _) =>
    if c.server = false ∧ c.state = .new then [.connectInit (ncRandomId env)] else []
  | .call .accept =>
    if c.server = true ∧ c.state = .connecting then
      [.connectAccept c.localId ncVersion c.cfg.idleTimeoutMs]
    else []
  | .call .disconnect => if c.state = .connected then [.disconnect 0] else []
  | .call (.service env now) =>
    if GivesUp c now then []
    else if c.state = .connecting ∧ c.server = false ∧ now - c.connectSentMs ≥ ncConnectRetryMs then
      [.connectInit c.localId]
    else if c.state = .connected ∧ c.lastSendMs > 0 ∧ now - c.lastSendMs ≥ ncPingIntervalMs ∧
        c.pingSentMs = 0 then [.ping (ncRandomId env)]
    else []
  | .call (.chanOpen type dir ct) =>
    if (netchanChanOpen c type dir ct).1.isSome then
      openFrame (createdChan c type dir ct) ::
        if dir = .send then [] else [.windowUpdate c.nextChanId c.cfg.chanWindow]
    else []
  | .call (.chanClose id) =>
    match c.channels id with
    | none => []
    | some ch => if ch.state = .closing ∨ ch.state = .closed then [] else [.channelClose id 0]
  | .frame _ (.ping opaq) => [.pong opaq]
  | .frame _ (.channelOpen id _ dir _) =>
    if (c.channels id).isSome ∨ ncMaxChan ≤ c.chanUsed then [.channelClose id 1]
    else if dir = .send then [.windowUpdate id c.cfg.chanWindow] else []
  | _ => []

/-- The queue after the encoders reserved room for the frames. -/
def reserveAll (buf : List UInt8) (fs : List Frame) : List UInt8 :=
  fs.foldl (fun b f => ctrlAppend b f.encode) buf

/-- The frames that found room. -/
def reserved : List UInt8 → List Frame → List Frame
  | _, [] => []
  | buf, f :: fs =>
    if buf.length + f.encode.length > ncCtrlBufSize then reserved buf fs
    else f :: reserved (buf ++ f.encode) fs

/-- A frame is added whole or lost. -/
theorem reserveAll_eq : ∀ (buf : List UInt8) (fs : List Frame),
    reserveAll buf fs = buf ++ encodeAll (reserved buf fs)
  | buf, [] => by simp [reserveAll, reserved]
  | buf, f :: fs => by
    show reserveAll (ctrlAppend buf f.encode) fs = _
    rw [reserveAll_eq, reserved, ctrlAppend]
    split <;> simp

theorem mem_reserved {f : Frame} : ∀ {buf : List UInt8} {fs : List Frame}, f ∈ reserved buf fs → f ∈ fs
  | _, [], h => h
  | buf, g :: fs, h => by
    rw [reserved] at h
    split at h
    · exact .tail _ (mem_reserved h)
    · rcases List.mem_cons.1 h with rfl | h
      · exact .head _
      · exact .tail _ (mem_reserved h)

theorem reserveAll_bounded : ∀ {b : List UInt8} (fs : List Frame), b.length ≤ ncCtrlBufSize →
    (reserveAll b fs).length ≤ ncCtrlBufSize
  | _, [], h => h
  | buf, f :: fs, h => by
    refine reserveAll_bounded (b := ctrlAppend buf f.encode) fs ?_
    unfold ctrlAppend
    split
    · exact h
    · rw [List.length_append]
      omega

/-- Frames satisfying `P` were added to the queue. -/
def Adds (buf buf' : List UInt8) (P : Frame → Prop) : Prop :=
  ∃ fs, buf' = buf ++ encodeAll fs ∧ ∀ f ∈ fs, P f

namespace Adds

variable {buf buf' buf'' : List UInt8} {P : Frame → Prop}

theorem refl (buf : List UInt8) : Adds buf buf P := ⟨[], by simp, by simp⟩

theorem trans (h1 : Adds buf buf' P) (h2 : Adds buf' buf'' P) : Adds buf buf'' P := by
  obtain ⟨fs, rfl, hf⟩ := h1
  obtain ⟨gs, rfl, hg⟩ := h2
  refine ⟨fs ++ gs, by simp, fun f h => ?_⟩
  rcases List.mem_append.1 h with h | h
  · exact hf f h
  · exact hg f h

end Adds

theorem emits_ctrl {now : UInt32} {c c' : Conn} {fs : List Frame} (h : Emits now c fs c') :
    c'.ctrlBuf = c.ctrlBuf := by
  induction h with
  | nil => rfl
  | cons h _ ih =>
    rw [ih]
    cases h <;> rfl

theorem updatePeer_ctrl (c : Conn) (frames : List UInt8) (source : Option Addr) :
    (updatePeer c frames source).ctrlBuf = c.ctrlBuf := by
  obtain ⟨a, h⟩ := updatePeer_eq c frames source
  rw [h]

/-- **What a call does to the queue.** -/
theorem call_requests (c : Conn) (k : Call) :
    (k.apply c).ctrlBuf = reserveAll c.ctrlBuf (requested c (.call k)) := by
  cases k with
  | connect env addr =>
    simp only [Call.apply, netchanConnect, requested]
    by_cases hs : c.server = true <;> by_cases hn : c.state = .new <;> simp [hs, hn] <;> rfl
  | accept =>
    simp only [Call.apply, netchanAccept, requested]
    by_cases hs : c.server = true <;> by_cases hc : c.state = .connecting <;> simp [hs, hc] <;> rfl
  | disconnect =>
    simp only [Call.apply, netchanDisconnect, requested]
    by_cases hc : c.state = .connected <;> simp [hc] <;> rfl
  | service env now =>
    simp only [Call.apply, requested]
    rcases netchanService_cases env c now with ⟨hg, he⟩ | ⟨hg, n, he⟩
    · rw [he, if_pos hg]
      rfl
    · rw [he, if_neg hg]
      unfold serviced
      repeat' split
      all_goals rfl
  | chanOpen type dir ct =>
    have ho := netchanChanOpen_eq c type dir ct
    simp only [Call.apply, requested]
    split at ho
    · rw [ho]
      rfl
    split at ho
    · rw [ho]
      rfl
    · rw [ho]
      by_cases hd : dir = .send <;> simp [hd] <;> rfl
  | chanClose id =>
    simp only [Call.apply, netchanChanClose, requested]
    cases c.channels id with
    | none => rfl
    | some ch =>
      dsimp only
      split <;> rfl
  | write id data =>
    simp only [Call.apply]
    rcases netchanChanWrite_cases c id data with ⟨he, -⟩ | ⟨ch, b, p, -, ⟨-, -, he⟩ | ⟨-, -, he⟩⟩ <;>
    · rw [he]
      rfl
  | read id buflen =>
    simp only [Call.apply]
    rcases netchanChanRead_cases c id buflen with ⟨he, -⟩ | ⟨ch, -, -, -, he⟩ <;>
    · rw [he]
      rfl
  | poll =>
    simp only [Call.apply, netchanPoll]
    split <;> rfl

/-- **What a frame does to the queue.** -/
theorem frame_requests (env : Env) (c : Conn) (f : Frame) :
    (stepFrame env c f).ctrlBuf = reserveAll c.ctrlBuf (requested c (.frame env f)) := by
  cases f with
  | connectInit id =>
    simp only [stepFrame, applyFrame, initReceived]
    by_cases h1 : c.server <;> by_cases h2 : c.state = .new <;> simp [h1, h2] <;> rfl
  | connectAccept id v idle =>
    simp only [stepFrame, applyFrame]
    split <;> rfl
  | connectRedirect id addr => rfl
  | disconnect reason =>
    simp only [stepFrame, applyFrame, disconnectReceived, Option.getD_some]
    split <;> rfl
  | ping opaq => rfl
  | pong opaq =>
    simp only [stepFrame, applyFrame, pongReceived, Option.getD_some]
    split <;> rfl
  | channelOpen id type dir ct =>
    simp only [stepFrame, applyFrame, channelOpened_eq, Option.getD_some, requested]
    split
    · rfl
    · by_cases hd : dir = .send <;> simp [hd] <;> rfl
  | channelClose id error =>
    simp only [stepFrame, applyFrame, channelClosed, Option.getD_some]
    split <;> rfl
  | data id seq fragIdx fragTotal payload =>
    simp only [stepFrame, applyFrame, dataReceived, Option.getD_some]
    repeat' split
    all_goals rfl
  | ack id seq =>
    simp only [stepFrame, applyFrame, ackReceived, Option.getD_some]
    repeat' split
    all_goals rfl
  | windowUpdate id w =>
    simp only [stepFrame, applyFrame, windowUpdated, Option.getD_some]
    repeat' split
    all_goals rfl

theorem mem_ite_nil {p : Prop} [Decidable p] {f g : Frame} :
    f ∈ (if p then [g] else []) ↔ p ∧ f = g := by
  split <;> simp [*]

/-- What is requested is one of the control frames the step can add. -/
theorem requested_queues {c : Conn} {st : Step} {f : Frame} (h : f ∈ requested c st) :
    Queues c st f := by
  cases st with
  | call k =>
    cases k with
    | connect env addr =>
      simp only [requested, mem_ite_nil] at h
      obtain ⟨hg, rfl⟩ := h
      exact .init hg.1 hg.2
    | accept =>
      simp only [requested, mem_ite_nil] at h
      obtain ⟨hg, rfl⟩ := h
      exact .accept hg.1 hg.2
    | disconnect =>
      simp only [requested, mem_ite_nil] at h
      obtain ⟨hg, rfl⟩ := h
      exact .disconnect hg
    | service env now =>
      simp only [requested] at h
      split at h
      · simp at h
      split at h
      · rename_i hg
        rw [List.mem_singleton.1 h]
        exact .retry hg.2.1 hg.1
      · rw [mem_ite_nil] at h
        obtain ⟨hg, rfl⟩ := h
        exact .ping hg.1
    | chanOpen type dir ct =>
      have ho := netchanChanOpen_eq c type dir ct
      simp only [requested] at h
      split at ho
      · simp [ho] at h
      split at ho
      · simp [ho] at h
      · rename_i hg _
        rw [not_or] at hg
        have hn := Option.not_isSome_iff_eq_none.1 hg.2
        have hres : (netchanChanOpen c type dir ct).1 = some c.nextChanId := by rw [ho]
        rw [hres, Option.isSome_some, if_pos rfl] at h
        rcases List.mem_cons.1 h with rfl | h
        · exact .opened hn hres
        · split at h
          · simp at h
          · rename_i hd
            rw [List.mem_singleton.1 h]
            exact .advertised hd hn
    | chanClose id =>
      simp only [requested] at h
      split at h
      · simp at h
      · rename_i ch hc
        split at h
        · simp at h
        · rw [List.mem_singleton.1 h]
          exact .closed (by rw [hc]; rfl)
    | _ => simp [requested] at h
  | frame env g =>
    cases g with
    | ping opaq =>
      rw [List.mem_singleton.1 h]
      exact .pong
    | channelOpen id type dir ct =>
      simp only [requested] at h
      split at h
      · rename_i hg
        rw [List.mem_singleton.1 h]
        exact .refused hg
      · rename_i hg
        rw [mem_ite_nil] at h
        rw [not_or] at hg
        obtain ⟨hd, rfl⟩ := h
        exact .granted hd (Option.not_isSome_iff_eq_none.1 hg.1)
    | _ => simp [requested] at h
  | _ => simp [requested] at h

theorem call_ctrl (c : Conn) (k : Call) :
    Adds c.ctrlBuf (k.apply c).ctrlBuf (Queues c (.call k)) :=
  ⟨_, (call_requests c k).trans (reserveAll_eq ..), fun _ hf => requested_queues (mem_reserved hf)⟩

theorem frame_ctrl (env : Env) (c : Conn) (f : Frame) :
    Adds c.ctrlBuf (stepFrame env c f).ctrlBuf (Queues c (.frame env f)) :=
  ⟨_, (frame_requests env c f).trans (reserveAll_eq ..),
    fun _ hf => requested_queues (mem_reserved hf)⟩

/-- **A step other than `netchan_send_next`** calls the encoders of what it requests. -/
theorem step_queue (c : Conn) {st : Step} (h : ∀ env buflen, st ≠ .sendNext env buflen) :
    (st.apply c).ctrlBuf = reserveAll c.ctrlBuf (requested c st) := by
  cases st with
  | config cfg => rfl
  | call k => exact call_requests c k
  | frame env f => exact frame_requests env c f
  | header env pkt source => exact updatePeer_ctrl c _ source
  | sendNext env buflen => exact absurd rfl (h env buflen)

/-- **The control queue never outgrows its buffer.** -/
theorem ctrl_step (c : Conn) (st : Step) (h : c.ctrlBuf.length ≤ ncCtrlBufSize) :
    (st.apply c).ctrlBuf.length ≤ ncCtrlBufSize := by
  by_cases hsend : ∃ env buflen, st = .sendNext env buflen
  · obtain ⟨env, buflen, rfl⟩ := hsend
    simp only [Step.apply]
    rcases netchanSendNext_cases env c buflen with he | ⟨-, fs, c', hem, he⟩
    · rwa [he]
    · rw [he]
      show c'.ctrlBuf.length ≤ ncCtrlBufSize
      rw [emits_ctrl hem]
      simp only [ctrlFlushed, List.length_drop]
      omega
  · rw [step_queue c fun env buflen he => hsend ⟨env, buflen, he⟩]
    exact reserveAll_bounded _ h

theorem openFrame_fits (ch : Chan) : (openFrame ch).Fits := by
  refine ⟨by rw [toByte_ofByte_type], by rw [toByte_ofByte_dir], ?_⟩
  have : (ch.contentType.take 63).length ≤ 63 := List.length_take_le ..
  omega

namespace Queues

variable {c : Conn} {st : Step} {f : Frame}

theorem fits (h : Queues c st f) : f.Fits := by
  cases h with
  | opened hc ho => exact openFrame_fits _
  | _ => trivial

theorem accepted (h : Queues c st f) : f.AcceptedBy (!c.server) := by
  cases h with
  | init hs hn => simp [Frame.AcceptedBy, hs]
  | retry hs hc => simp [Frame.AcceptedBy, hs]
  | accept hs hc => simp [Frame.AcceptedBy, hs]
  | _ => trivial

end Queues

end Netchan
