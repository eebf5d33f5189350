import Netchan.Core.Api
import Netchan.Lib.Run

/-!
# Frames

`Frame` is the decoded form of a frame, `decodeFrame` and `Frame.encode` its codec and
`applyFrame` the effect of a frame on a connection. `processFrame_eq`: a frame handler is
`decodeFrame` followed by `applyFrame`, and it either fails, leaving the connection as it was, or
applies one decoded frame. `decodeFrame_encode`: what is encoded is decoded, whatever follows it.

`parsed` lists the frames `parse_frames` applies; `parseFrames_run` reduces `parse_frames` to the
run of their effects, and `parsed_encode` says which they are for a packet of whole frames.
-/

namespace Netchan

open Lib

inductive Frame
  | connectInit (id : UInt32)
  | connectAccept (id : UInt32) (version : UInt8) (idle : UInt32)
  | connectRedirect (id : UInt32) (addr : Addr)
  | disconnect (reason : UInt16)
  | ping (opaq : UInt32)
  | pong (opaq : UInt32)
  | channelOpen (id : ChanId) (type : ChanType) (dir : Dir) (ct : List UInt8)
  | channelClose (id : ChanId) (error : UInt16)
  | data (id : ChanId) (seq : UInt16) (fragIdx fragTotal : Nat) (payload : List UInt8)
  | ack (id : ChanId) (seq : UInt16)
  | windowUpdate (id : ChanId) (window : UInt32)
  deriving DecidableEq

/-! ## Decoding -/

/-- A frame of fixed length `n`. -/
def decodeFixed (n : Nat) (f : Frame) (p : List UInt8) : Option (Frame × Nat) :=
  if p.length < n then none else some (f, n)

def decodeConnectInit (p : List UInt8) : Option (Frame × Nat) :=
  if byte p 5 ≠ ncVersion then none else decodeFixed 6 (.connectInit (rd32 p 1)) p

def decodeRedirect (p : List UInt8) : Option (Frame × Nat) :=
  if p.length < 12 then none
  else if byte p 5 = 4 then some (.connectRedirect (rd32 p 1) (4 :: (p.drop 6).take 6), 12)
  else if byte p 5 = 6 then
    decodeFixed 24 (.connectRedirect (rd32 p 1) (6 :: (p.drop 6).take 18)) p
  else none

def decodeChannelOpen (p : List UInt8) : Option (Frame × Nat) :=
  if p.length < 5 then none
  else decodeFixed (5 + (byte p 4).toNat) (.channelOpen (chanIdAt p 1) (.ofByte (byte p 2))
    (.ofByte (byte p 3)) ((p.drop 5).take (byte p 4).toNat)) p

def decodeData (p : List UInt8) : Option (Frame × Nat) :=
  if p.length < 8 then none
  else decodeFixed (8 + (rd16 p 4).toNat) (.data (chanIdAt p 1) (rd16 p 2) (byte p 6).toNat
    (byte p 7).toNat ((p.drop 8).take (rd16 p 4).toNat)) p

/-- The frame at the start of `p` and its length. -/
def decodeFrame (p : List UInt8) : Option (Frame × Nat) :=
  match (byte p 0).toNat with
  | 0x01 => decodeConnectInit p
  | 0x02 => decodeFixed 10 (.connectAccept (rd32 p 1) (byte p 5) (rd32 p 6)) p
  | 0x03 => decodeRedirect p
  | 0x04 => decodeFixed 3 (.disconnect (rd16 p 1)) p
  | 0x05 => decodeFixed 5 (.ping (rd32 p 1)) p
  | 0x06 => decodeFixed 5 (.pong (rd32 p 1)) p
  | 0x07 => decodeChannelOpen p
  | 0x08 => decodeFixed 4 (.channelClose (chanIdAt p 1) (rd16 p 2)) p
  | 0x09 => decodeData p
  | 0x0A => decodeFixed 4 (.ack (chanIdAt p 1) (rd16 p 2)) p
  | 0x0B => decodeFixed 6 (.windowUpdate (chanIdAt p 1) (rd32 p 2)) p
  | _ => none

/-! ## The effect of a frame -/

def initReceived (env : Env) (c : Conn) (id : UInt32) : Conn :=
  if c.state = .new then
    { c with remoteId := id, localId := ncRandomId env, state := .connecting }
  else { c with remoteId := id }

def disconnectReceived (c : Conn) : Conn :=
  match c.state with
  | .connecting => evPush { c with state := .closed } .disconnected
  | .connected => evPush { c with state := .closed } .disconnected
  | .closing => { c with state := .closed }
  | .new => c
  | .closed => c

def pongReceived (env : Env) (c : Conn) (opaq : UInt32) : Conn :=
  if opaq = c.pingOpaque ∧ c.pingSentMs ≠ 0 then
    let rtt := env.now - c.pingSentMs
    { c with rttMs := rtt
             rttMinMs := if c.rttMinMs = 0 ∨ rtt < c.rttMinMs then rtt else c.rttMinMs
             pingSentMs := 0 }
  else c

/-- What a frame does to a connection; `none` when this end does not accept such a frame. -/
def applyFrame (env : Env) (c : Conn) : Frame → Option Conn
  | .connectInit id => if c.server then some (initReceived env c id) else none
  | .connectAccept id _ _ =>
    if c.server then none
    else some (evPush { c with remoteId := id, state := .connected } .connected)
  | .connectRedirect id addr => some (evPush c (.redirect addr id))
  | .disconnect _ => some (disconnectReceived c)
  | .ping opaq => some (ctrlPong c opaq)
  | .pong opaq => some (pongReceived env c opaq)
  | .channelOpen id type dir ct => some (channelOpened c id type dir ct)
  | .channelClose id _ => some (channelClosed c id)
  | .data id seq fragIdx fragTotal payload => some (dataReceived c id seq fragIdx fragTotal payload)
  | .ack id seq => some (ackReceived c id seq)
  | .windowUpdate id window => some (windowUpdated c id window)

/-- A handler's result from the decoded frame. -/
def handle (env : Env) (c : Conn) : Option (Frame × Nat) → Handled
  | none => (.error .proto, c)
  | some (f, n) =>
    match applyFrame env c f with
    | none => (.error .proto, c)
    | some c' => (.ok n, c')

section
variable (env : Env) (c : Conn) (p : List UInt8)

/-- A handler that checks the length and always accepts. -/
theorem handle_fixed {n : Nat} {f : Frame} {c' : Conn} (h : applyFrame env c f = some c') :
    handle env c (decodeFixed n f p) = if p.length < n then (.error .proto, c) else (.ok n, c') := by
  unfold decodeFixed
  split
  · rfl
  · simp [handle, h]

theorem processConnectInit_eq :
    processConnectInit env c p = handle env c (decodeConnectInit p) := by
  unfold processConnectInit decodeConnectInit decodeFixed
  by_cases h1 : p.length < 6 <;> by_cases h2 : c.server <;> by_cases h3 : byte p 5 = ncVersion <;>
    simp [handle, applyFrame, initReceived, h1, h2, h3]
  split <;> rfl

theorem processConnectAccept_eq : processConnectAccept c p =
    handle env c (decodeFixed 10 (.connectAccept (rd32 p 1) (byte p 5) (rd32 p 6)) p) := by
  unfold processConnectAccept decodeFixed
  by_cases h1 : p.length < 10 <;> by_cases h2 : c.server <;> simp [handle, applyFrame, h1, h2]

theorem processConnectRedirect_eq :
    processConnectRedirect c p = handle env c (decodeRedirect p) := by
  unfold processConnectRedirect decodeRedirect decodeFixed
  by_cases h1 : p.length < 12 <;> by_cases h2 : byte p 5 = 4 <;> by_cases h3 : byte p 5 = 6 <;>
    by_cases h4 : p.length < 24 <;> simp [handle, applyFrame, h1, h2, h3, h4]

theorem processDisconnect_eq :
    processDisconnect c p = handle env c (decodeFixed 3 (.disconnect (rd16 p 1)) p) := by
  rw [handle_fixed env c p rfl, processDisconnect, disconnectReceived]
  split
  · rfl
  · cases c.state <;> rfl

theorem processPong_eq :
    processPong env c p = handle env c (decodeFixed 5 (.pong (rd32 p 1)) p) := by
  rw [handle_fixed env c p rfl, processPong, pongReceived]
  split
  · rfl
  · split <;> rfl

theorem processChannelOpen_eq : processChannelOpen c p = handle env c (decodeChannelOpen p) := by
  unfold processChannelOpen decodeChannelOpen
  split
  · rfl
  · rw [handle_fixed env c p rfl]

theorem processData_eq : processData c p = handle env c (decodeData p) := by
  unfold processData decodeData
  split
  · rfl
  · rw [handle_fixed env c p rfl]

/-- **A frame handler decodes a frame and applies it**, or fails and changes nothing. -/
theorem processFrame_eq : processFrame env c p = handle env c (decodeFrame p) := by
  unfold processFrame decodeFrame
  generalize (byte p 0).toNat = t
  split
  · exact processConnectInit_eq env c p
  · exact processConnectAccept_eq env c p
  · exact processConnectRedirect_eq env c p
  · exact processDisconnect_eq env c p
  · exact (handle_fixed env c p rfl).symm
  · exact processPong_eq env c p
  · exact processChannelOpen_eq env c p
  · exact (handle_fixed env c p rfl).symm
  · exact processData_eq env c p
  · exact (handle_fixed env c p rfl).symm
  · exact (handle_fixed env c p rfl).symm
  · simp only [handle, *]

end

/-! ## Encoding -/

/-- The bytes of a frame, as the `ctrl_*` encoders and `netchan_send_next` write them. -/
def Frame.encode : Frame → List UInt8
  | .connectInit id => 0x01 :: wr32 id ++ [ncVersion]
  | .connectAccept id version idle => 0x02 :: wr32 id ++ [version] ++ wr32 idle
  | .connectRedirect id addr => 0x03 :: wr32 id ++ addr
  | .disconnect reason => 0x04 :: wr16 reason
  | .ping opaq => 0x05 :: wr32 opaq
  | .pong opaq => 0x06 :: wr32 opaq
  | .channelOpen id type dir ct =>
    [0x07, idByte id, type.toByte, dir.toByte, UInt8.ofNat ct.length] ++ ct
  | .channelClose id error => 0x08 :: idByte id :: wr16 error
  | .data id seq fragIdx fragTotal payload =>
    0x09 :: idByte id :: wr16 seq ++ wr16 (UInt16.ofNat payload.length) ++
      [UInt8.ofNat fragIdx, UInt8.ofNat fragTotal] ++ payload
  | .ack id seq => 0x0A :: idByte id :: wr16 seq
  | .windowUpdate id window => 0x0B :: idByte id :: wr32 window

/-- The frame's fields fit their bytes on the wire. (A redirect is never sent.) -/
def Frame.Fits : Frame → Prop
  | .connectRedirect _ _ => False
  | .channelOpen _ type dir ct =>
    ChanType.ofByte type.toByte = type ∧ Dir.ofByte dir.toByte = dir ∧ ct.length < 2 ^ 8
  | .data _ _ fragIdx fragTotal payload =>
    fragIdx < 2 ^ 8 ∧ fragTotal < 2 ^ 8 ∧ payload.length < 2 ^ 16
  | _ => True

theorem chanIdAt_idByte (id : ChanId) (b : UInt8) (p : List UInt8) :
    chanIdAt (b :: idByte id :: p) 1 = id := by
  apply Fin.ext
  have := id.isLt
  simp [chanIdAt, idByte, Fin.ofNat]

theorem decodeFixed_encode {f : Frame} {p : List UInt8} {n : Nat} (h : n ≤ p.length) :
    decodeFixed n f p = some (f, n) :=
  if_neg (by omega)

/-- **What is encoded is decoded**, whatever follows it. -/
theorem decodeFrame_encode {f : Frame} (hf : f.Fits) (rest : List UInt8) :
    decodeFrame (f.encode ++ rest) = some (f, f.encode.length) := by
  cases f with
  | connectInit id =>
    show decodeConnectInit (0x01 :: (wr32 id ++ ([ncVersion] ++ rest))) = _
    rw [decodeConnectInit, if_neg (fun h => h rfl), rd32_cons, rd32_wr32]
    exact decodeFixed_encode (by simp; omega)
  | connectAccept id version idle =>
    show decodeFixed 10 (.connectAccept (rd32 (wr32 id ++ ([version] ++ wr32 idle ++ rest)) 0) version
      (rd32 (wr32 idle ++ rest) 0)) _ = _
    rw [rd32_wr32, rd32_wr32]
    exact decodeFixed_encode (by simp [Frame.encode]; omega)
  | connectRedirect id addr => exact hf.elim
  | disconnect reason =>
    show decodeFixed 3 (.disconnect (rd16 (wr16 reason ++ rest) 0)) _ = _
    rw [rd16_wr16]
    exact decodeFixed_encode (by simp [Frame.encode])
  | ping opaq =>
    show decodeFixed 5 (.ping (rd32 (wr32 opaq ++ rest) 0)) _ = _
    rw [rd32_wr32]
    exact decodeFixed_encode (by simp [Frame.encode])
  | pong opaq =>
    show decodeFixed 5 (.pong (rd32 (wr32 opaq ++ rest) 0)) _ = _
    rw [rd32_wr32]
    exact decodeFixed_encode (by simp [Frame.encode])
  | channelOpen id type dir ct =>
    obtain ⟨h1, h2, h3⟩ := hf
    have hlen : (UInt8.ofNat ct.length).toNat = ct.length := by
      rw [UInt8.toNat_ofNat', Nat.mod_eq_of_lt h3]
    show decodeChannelOpen (0x07 :: idByte id :: type.toByte :: dir.toByte ::
      UInt8.ofNat ct.length :: (ct ++ rest)) = _
    simp only [decodeChannelOpen, byte_cons_succ, byte_cons_zero, hlen, h1, h2, chanIdAt_idByte]
    rw [if_neg (by simp), decodeFixed_encode (by simp; omega)]
    simp [Frame.encode]
    omega
  | channelClose id error =>
    show decodeFixed 4 (.channelClose (chanIdAt (0x08 :: idByte id :: (wr16 error ++ rest)) 1)
      (rd16 (wr16 error ++ rest) 0)) _ = _
    rw [rd16_wr16, chanIdAt_idByte]
    exact decodeFixed_encode (by simp [Frame.encode])
  | data id seq fragIdx fragTotal payload =>
    obtain ⟨h1, h2, h3⟩ := hf
    have hlen : (UInt16.ofNat payload.length).toNat = payload.length := by
      rw [UInt16.toNat_ofNat', Nat.mod_eq_of_lt h3]
    let q := UInt8.ofNat fragIdx :: UInt8.ofNat fragTotal :: (payload ++ rest)
    have hp : Frame.encode (.data id seq fragIdx fragTotal payload) ++ rest =
        0x09 :: idByte id :: (wr16 seq ++ (wr16 (UInt16.ofNat payload.length) ++ q)) := by
      simp [Frame.encode, q]
    have e1 : rd16 (0x09 :: idByte id :: (wr16 seq ++ (wr16 (UInt16.ofNat payload.length) ++ q))) 2 =
        seq := rd16_wr16 seq (wr16 (UInt16.ofNat payload.length) ++ q)
    have e2 : rd16 (0x09 :: idByte id :: (wr16 seq ++ (wr16 (UInt16.ofNat payload.length) ++ q))) 4 =
        UInt16.ofNat payload.length := rd16_wr16 (UInt16.ofNat payload.length) q
    rw [hp]
    show decodeData _ = _
    rw [decodeData, if_neg (by simp [q]; omega), e1, e2, hlen, chanIdAt_idByte,
      decodeFixed_encode (by simp [q]; omega)]
    have e3 : (UInt8.ofNat fragIdx).toNat = fragIdx := by
      rw [UInt8.toNat_ofNat', Nat.mod_eq_of_lt h1]
    have e4 : (UInt8.ofNat fragTotal).toNat = fragTotal := by
      rw [UInt8.toNat_ofNat', Nat.mod_eq_of_lt h2]
    simp [wr16, q, e3, e4, Frame.encode]
    omega
  | ack id seq =>
    show decodeFixed 4 (.ack (chanIdAt (0x0A :: idByte id :: (wr16 seq ++ rest)) 1)
      (rd16 (wr16 seq ++ rest) 0)) _ = _
    rw [rd16_wr16, chanIdAt_idByte]
    exact decodeFixed_encode (by simp [Frame.encode])
  | windowUpdate id window =>
    show decodeFixed 6 (.windowUpdate (chanIdAt (0x0B :: idByte id :: (wr32 window ++ rest)) 1)
      (rd32 (wr32 window ++ rest) 0)) _ = _
    rw [rd32_wr32, chanIdAt_idByte]
    exact decodeFixed_encode (by simp [Frame.encode])

/-- A frame is not empty and does not look like padding. -/
theorem encode_cons (f : Frame) : ∃ b p, f.encode = b :: p ∧ b ≠ 0 := by
  cases f <;> exact ⟨_, _, rfl, by decide⟩

/-! ## Parsing a packet -/

/-- The connection after a frame. -/
def stepFrame (env : Env) (c : Conn) (f : Frame) : Conn := (applyFrame env c f).getD c

/-- The frames `parse_frames` applies, in order. -/
def parsed (env : Env) : Nat → Conn → List UInt8 → List Frame
  | 0, _, _ => []
  | _ + 1, _, [] => []
  | fuel + 1, c, b :: p =>
    if b = 0 then parsed env fuel c p
    else
      match decodeFrame (b :: p) with
      | none => []
      | some (f, n) =>
        match applyFrame env c f with
        | none => []
        | some c' => f :: parsed env fuel c' ((b :: p).drop n)

theorem parseLoop_run (env : Env) : ∀ (fuel : Nat) (c : Conn) (p : List UInt8),
    (parseLoop env fuel c p).2 = run (stepFrame env) c (parsed env fuel c p)
  | 0, _, _ => rfl
  | _ + 1, _, [] => rfl
  | fuel + 1, c, b :: p => by
    unfold parseLoop parsed
    rw [processFrame_eq]
    split
    · exact parseLoop_run env fuel c p
    · cases hd : decodeFrame (b :: p) with
      | none => rfl
      | some q =>
        obtain ⟨f, n⟩ := q
        cases ha : applyFrame env c f with
        | none => simp [handle, ha]
        | some c' =>
          simp only [handle, ha, run_cons, stepFrame, Option.getD_some]
          exact parseLoop_run env fuel c' _

/-- **`parse_frames` runs the effects of the frames it decodes.** -/
theorem parseFrames_run (env : Env) (c : Conn) (data : List UInt8) :
    (parseFrames env c data).2 = run (stepFrame env) c (parsed env data.length c data) :=
  parseLoop_run env _ c data

/-- The bytes of a list of frames. -/
def encodeAll (fs : List Frame) : List UInt8 := fs.flatMap Frame.encode

@[simp] theorem encodeAll_nil : encodeAll [] = [] := rfl

@[simp] theorem encodeAll_cons (f : Frame) (fs : List Frame) :
    encodeAll (f :: fs) = f.encode ++ encodeAll fs := rfl

@[simp] theorem encodeAll_append (fs gs : List Frame) :
    encodeAll (fs ++ gs) = encodeAll fs ++ encodeAll gs := by simp [encodeAll]

/-- This end accepts the frames of the handshake: a server INIT, a client ACCEPT. -/
def Frame.AcceptedBy (f : Frame) (server : Bool) : Prop :=
  match f with
  | .connectInit _ => server = true
  | .connectAccept _ _ _ => server = false
  | _ => True

/-- The channel a CHANNEL_OPEN creates. -/
def openedChan (c : Conn) (id : ChanId) (type : ChanType) (dir : Dir) (ct : List UInt8) : Chan :=
  { freshChan c id type dir (if dir = .send then .receiver else .sender) (ct.take 63) with
    state := .opened }

/-- **What a CHANNEL_OPEN does**: an id in use or a full channel pool is answered by a
CHANNEL_CLOSE; otherwise the channel is created, and a receiver advertises its window. -/
theorem channelOpened_eq (c : Conn) (id : ChanId) (type : ChanType) (dir : Dir) (ct : List UInt8) :
    channelOpened c id type dir ct =
      if (c.channels id).isSome ∨ ncMaxChan ≤ c.chanUsed then ctrlChannelClose c id 1
      else { c with
        channels := Table.set c.channels id (openedChan c id type dir ct)
        chanUsed := c.chanUsed + 1
        ctrlBuf := if dir = .send then
            ctrlAppend c.ctrlBuf (Frame.windowUpdate id c.cfg.chanWindow).encode
          else c.ctrlBuf
        events := c.events.offer (.chanOpen id) } := by
  unfold channelOpened chanNew
  cases hc : c.channels id with
  | some ch => simp
  | none =>
    by_cases hu : c.chanUsed < ncMaxChan
    · by_cases hd : dir = .send <;>
        simp [hu, hd, Nat.not_le.2 hu, evPush, ctrlWindowUpdate, ctrlReserve, Conn.setChan,
          Table.set, openedChan, freshChan, Frame.encode]
    · simp [hu, Nat.not_lt.1 hu]

/-- What no frame changes. -/
theorem stepFrame_fixed (env : Env) (c : Conn) (f : Frame) :
    (stepFrame env c f).server = c.server ∧ (stepFrame env c f).cfg = c.cfg ∧
      (stepFrame env c f).nextChanId = c.nextChanId := by
  cases f with
  | connectInit id =>
    simp only [stepFrame, applyFrame, initReceived]
    by_cases h1 : c.server <;> by_cases h2 : c.state = .new <;> simp [h1, h2]
  | connectAccept id v idle =>
    simp only [stepFrame, applyFrame]
    split <;> exact ⟨rfl, rfl, rfl⟩
  | disconnect reason =>
    simp only [stepFrame, applyFrame, disconnectReceived, Option.getD_some]
    split <;> exact ⟨rfl, rfl, rfl⟩
  | pong opaq =>
    simp only [stepFrame, applyFrame, pongReceived, Option.getD_some]
    split <;> exact ⟨rfl, rfl, rfl⟩
  | channelOpen id type dir ct =>
    simp only [stepFrame, applyFrame, channelOpened_eq, Option.getD_some]
    split <;> exact ⟨rfl, rfl, rfl⟩
  | channelClose id error =>
    simp only [stepFrame, applyFrame, channelClosed, Option.getD_some]
    split <;> exact ⟨rfl, rfl, rfl⟩
  | data id seq fragIdx fragTotal payload =>
    simp only [stepFrame, applyFrame, dataReceived, Option.getD_some]
    repeat' split
    all_goals exact ⟨rfl, rfl, rfl⟩
  | ack id seq =>
    simp only [stepFrame, applyFrame, ackReceived, Option.getD_some]
    repeat' split
    all_goals exact ⟨rfl, rfl, rfl⟩
  | windowUpdate id w =>
    simp only [stepFrame, applyFrame, windowUpdated, Option.getD_some]
    repeat' split
    all_goals exact ⟨rfl, rfl, rfl⟩
  | _ => exact ⟨rfl, rfl, rfl⟩

/-- The frames that concern no channel. -/
def Frame.Session : Frame → Prop
  | .channelOpen _ _ _ _ | .channelClose _ _ | .data _ _ _ _ _ | .ack _ _ | .windowUpdate _ _ => False
  | _ => True

theorem stepFrame_session (env : Env) (c : Conn) {f : Frame} (h : f.Session) :
    (stepFrame env c f).channels = c.channels ∧ (stepFrame env c f).pool = c.pool ∧
      (stepFrame env c f).chanUsed = c.chanUsed := by
  cases f with
  | connectInit id =>
    simp only [stepFrame, applyFrame, initReceived]
    by_cases h1 : c.server <;> by_cases h2 : c.state = .new <;> simp [h1, h2]
  | connectAccept id v idle =>
    simp only [stepFrame, applyFrame]
    split <;> exact ⟨rfl, rfl, rfl⟩
  | disconnect reason =>
    simp only [stepFrame, applyFrame, disconnectReceived, Option.getD_some]
    split <;> exact ⟨rfl, rfl, rfl⟩
  | pong opaq =>
    simp only [stepFrame, applyFrame, pongReceived, Option.getD_some]
    split <;> exact ⟨rfl, rfl, rfl⟩
  | connectRedirect id addr => exact ⟨rfl, rfl, rfl⟩
  | ping opaq => exact ⟨rfl, rfl, rfl⟩
  | channelOpen id type dir ct => exact h.elim
  | channelClose id error => exact h.elim
  | data id seq fragIdx fragTotal payload => exact h.elim
  | ack id seq => exact h.elim
  | windowUpdate id w => exact h.elim

theorem applyFrame_some (env : Env) {c : Conn} {f : Frame} (h : f.AcceptedBy c.server) :
    applyFrame env c f = some (stepFrame env c f) := by
  cases f <;> simp_all [Frame.AcceptedBy, applyFrame, stepFrame]

/-- **A packet of whole frames is parsed into them.** -/
theorem parsed_encode (env : Env) : ∀ (fs : List Frame) (fuel : Nat) (c : Conn),
    (∀ f ∈ fs, f.Fits ∧ f.AcceptedBy c.server) → (encodeAll fs).length ≤ fuel →
      parsed env fuel c (encodeAll fs) = fs
  | [], 0, _, _, _ => rfl
  | [], _ + 1, _, _, _ => rfl
  | f :: fs, 0, _, _, hl => by
    obtain ⟨b, p, hf, -⟩ := encode_cons f
    simp [hf] at hl
  | f :: fs, fuel + 1, c, h, hl => by
    obtain ⟨b, p, hf, hb⟩ := encode_cons f
    have hd := decodeFrame_encode (h f (.head _)).1 (encodeAll fs)
    have ha := applyFrame_some env (h f (.head _)).2
    rw [encodeAll_cons] at hl ⊢
    rw [hf, List.cons_append] at hd hl ⊢
    simp only [List.length_cons, List.length_append] at hl
    simp only [parsed, hb, ↓reduceIte, hd, ha]
    rw [← List.cons_append, List.drop_left]
    refine congrArg _ (parsed_encode env fs fuel _ (fun g hg => ?_) (by omega))
    rw [(stepFrame_fixed env c f).1]
    exact h g (.tail _ hg)

/-- **A packet of whole frames is accepted**: `parse_frames` consumes all of it. -/
theorem parseLoop_encode (env : Env) : ∀ (fs : List Frame) (fuel : Nat) (c : Conn),
    (∀ f ∈ fs, f.Fits ∧ f.AcceptedBy c.server) → (encodeAll fs).length ≤ fuel →
      parseLoop env fuel c (encodeAll fs) = (.ok (), run (stepFrame env) c fs)
  | [], 0, _, _, _ => rfl
  | [], _ + 1, _, _, _ => rfl
  | f :: fs, 0, _, _, hl => by
    obtain ⟨b, p, hf, -⟩ := encode_cons f
    simp [hf] at hl
  | f :: fs, fuel + 1, c, h, hl => by
    obtain ⟨b, p, hf, hb⟩ := encode_cons f
    have hd := decodeFrame_encode (h f (.head _)).1 (encodeAll fs)
    have ha := applyFrame_some env (h f (.head _)).2
    rw [encodeAll_cons] at hl ⊢
    rw [hf, List.cons_append] at hd hl ⊢
    simp only [List.length_cons, List.length_append] at hl
    simp only [parseLoop, hb, ↓reduceIte, processFrame_eq, hd, handle, ha]
    rw [← List.cons_append, List.drop_left, run_cons]
    refine parseLoop_encode env fs fuel _ (fun g hg => ?_) (by omega)
    rw [(stepFrame_fixed env c f).1]
    exact h g (.tail _ hg)

theorem parseFrames_encode (env : Env) (c : Conn) (fs : List Frame)
    (h : ∀ f ∈ fs, f.Fits ∧ f.AcceptedBy c.server) :
    parseFrames env c (encodeAll fs) = (.ok (), run (stepFrame env) c fs) :=
  parseLoop_encode env fs _ c h (Nat.le_refl _)

end Netchan
