import Netchan.Pair.Life

/-!
# Sixteen channels

`chan_new` takes a slot of the channel pool and `chan_free` gives it back, but only `netchan_close`
calls it: a channel that is closed keeps its slot and its id. `channel_opens`: `netchan_chan_open`
returns a channel and queues its CHANNEL_OPEN exactly when fewer than `NC_MAX_CHAN` channels were
created, the closed ones included, the next id is free and the control queue has room.
`sixteen_closed`: with sixteen closed channels and no other, it returns none.
-/

namespace Netchan

open Lib

/-- The channels that were created. -/
def Conn.created (c : Conn) : Finset ChanId := Finset.univ.filter fun id => (c.channels id).isSome = true

/-- The channels that are not closed. -/
def Conn.unclosed (c : Conn) : Finset ChanId :=
  Finset.univ.filter fun id => (c.channels id).any (fun ch => ch.state ≠ .closed) = true

/-- Nothing waits to be read or acknowledged. -/
def Chan.Idle (ch : Chan) : Prop :=
  ch.rcv.recvQueue.Empty ∧ ∀ k, (ch.snd.outgoing k).active = false

/-- There should be room for another channel. -/
structure Available (c : Conn) : Prop where
  connected : c.state = .connected
  few : c.unclosed.card < ncMaxChan
  idle : ∀ id ch, c.channels id = some ch → ch.Idle

/-- `netchan_chan_open` returns a channel, and its CHANNEL_OPEN is queued. -/
def Opens (c : Conn) (type : ChanType) (dir : Dir) (contentType : List UInt8) : Prop :=
  ∃ id ch later, (netchanChanOpen c type dir contentType).1 = some id ∧
    (netchanChanOpen c type dir contentType).2.channels id = some ch ∧
    (netchanChanOpen c type dir contentType).2.ctrlBuf = c.ctrlBuf ++ ((openFrame ch).encode ++ later)

/-- A slot of the channel pool, the next id and the control queue are free. -/
structure OpenRoom (c : Conn) (contentType : List UInt8) : Prop where
  slot : c.created.card < ncMaxChan
  id : c.channels c.nextChanId = none
  ctrl : c.ctrlBuf.length + (5 + (contentTypeOf contentType).length) ≤ ncCtrlBufSize

/-! ## The slots of the channel pool -/

theorem used_same {c c' : Conn} (h : c.chanUsed = c.created.card) (hs : c.SameChans c') :
    c'.chanUsed = c'.created.card := by
  rw [hs.used, h]
  simp only [Conn.created, hs.channels]

theorem used_adds {c c' : Conn} {j : ChanId} (h : c.chanUsed = c.created.card)
    (hs : c.AddsChan c' j) : c'.chanUsed = c'.created.card := by
  have hins : c'.created = insert j c.created := by
    ext id
    simp only [Conn.created, Finset.mem_filter, Finset.mem_univ, true_and, Finset.mem_insert,
      hs.channels id]
    exact or_comm
  rw [hins, Finset.card_insert_of_notMem (by simp [Conn.created, hs.absent]), hs.used, h]

/-- **Every channel that was created has a slot, for good.** -/
theorem used_step {c : Conn} (h : c.chanUsed = c.created.card) (st : Step) :
    (st.apply c).chanUsed = (st.apply c).created.card := by
  cases st with
  | config cfg => exact h
  | call k =>
    rcases call_chans c k with hs | ⟨type, dir, ct, -, -, hs⟩
    · exact used_same h hs
    · exact used_adds h hs
  | sendNext env buflen =>
    simp only [Step.apply]
    rcases netchanSendNext_cases env c buflen with he | ⟨-, fs, c', hem, he⟩
    · rw [he]
      exact h
    · rw [he]
      have hinv := hem.invariant (I := fun d => d.chanUsed = d.created.card)
        (fun _ _ _ hi h => used_same hi (emit_chans h)) h
      exact hinv
  | header env pkt source =>
    have hs : c.SameChans (Step.apply c (.header env pkt source)) := by
      refine sameChans_congr (updatePeer_channels c _ source) ?_
      simp only [Step.apply, fedConn, updatePeer]
      repeat' split
      all_goals rfl
    exact used_same h hs
  | frame env f =>
    rcases frame_chans env c f with hs | ⟨id, type, dir, ct, -, hs⟩
    · exact used_same h hs
    · exact used_adds h hs

theorem used_run (server : Bool) (steps : List Step) :
    (runConn server steps).chanUsed = (runConn server steps).created.card :=
  run_invariant (I := fun c : Conn => c.chanUsed = c.created.card) (A := fun _ _ => True)
    (fun _ st h _ => used_step h st) (by simp [netchanOpen, Conn.created]) (along_true _)

/-! ## Opening a channel -/

section
variable {c : Conn} {type : ChanType} {dir : Dir} {ct : List UInt8}

theorem length_openFrame (c : Conn) (type : ChanType) (dir : Dir) (ct : List UInt8) :
    (openFrame (createdChan c type dir ct)).encode.length = 5 + (contentTypeOf ct).length := by
  have hct : (createdChan c type dir ct).contentType.take 63 = contentTypeOf ct :=
    List.take_of_length_le (by simp [createdChan, freshChan, contentTypeOf])
  simp only [openFrame, hct, Frame.encode, List.length_append, List.length_cons, List.length_nil]

theorem ctrlAppend_fits {buf frame : List UInt8} (h : buf.length + frame.length ≤ ncCtrlBufSize) :
    ctrlAppend buf frame = buf ++ frame := if_neg (Nat.not_lt.2 h)

theorem ctrlAppend_full {buf frame : List UInt8} (h : ¬ buf.length + frame.length ≤ ncCtrlBufSize) :
    ctrlAppend buf frame = buf := if_pos (Nat.lt_of_not_le h)

theorem opens_of_room (hc : c.state = .connected) (hu : c.chanUsed = c.created.card)
    (h : OpenRoom c ct) : Opens c type dir ct := by
  have hfree : ¬ (c.state ≠ .connected ∨ (c.channels c.nextChanId).isSome = true) := by
    simp [hc, h.id]
  have hslot : ¬ ncMaxChan ≤ c.chanUsed := by
    have := h.slot
    omega
  have hfit : ctrlAppend c.ctrlBuf (openFrame (createdChan c type dir ct)).encode =
      c.ctrlBuf ++ (openFrame (createdChan c type dir ct)).encode :=
    ctrlAppend_fits (by rw [length_openFrame]; exact h.ctrl)
  unfold Opens
  rw [netchanChanOpen_eq, if_neg hfree, if_neg hslot]
  dsimp only
  rw [hfit]
  by_cases hd : dir = .send
  · exact ⟨_, _, [], rfl, Table.set_same .., by rw [if_pos hd, List.append_nil]⟩
  · rw [if_neg hd, ctrlAppend]
    split
    · exact ⟨_, _, [], rfl, Table.set_same .., by rw [List.append_nil]⟩
    · exact ⟨_, _, _, rfl, Table.set_same .., List.append_assoc ..⟩

theorem room_of_opens (hu : c.chanUsed = c.created.card) (h : Opens c type dir ct) :
    OpenRoom c ct := by
  obtain ⟨id, ch, later, hid, hch, hbuf⟩ := h
  rw [netchanChanOpen_eq] at hid hch hbuf
  split at hid
  · cases hid
  rename_i hfree
  rw [if_neg hfree] at hch hbuf
  rw [not_or, not_not] at hfree
  split at hid
  · cases hid
  rename_i hslot
  rw [if_neg hslot] at hch hbuf
  cases hid
  dsimp only at hch hbuf
  rw [Table.set_same] at hch
  cases hch
  refine ⟨by omega, Option.not_isSome_iff_eq_none.1 hfree.2, ?_⟩
  rw [← length_openFrame c type dir]
  by_contra hfull
  rw [ctrlAppend_full hfull] at hbuf
  have hlen := congrArg List.length hbuf
  rw [List.length_append, List.length_append, length_openFrame] at hlen
  rw [length_openFrame] at hfull
  simp only [ncCtrlBufSize] at hfull
  split at hlen
  · omega
  · unfold ctrlAppend at hlen
    simp only [ncCtrlBufSize] at hlen
    split at hlen
    · omega
    · rename_i hroom
      rw [List.length_append] at hlen
      omega

end

/-- **`netchan_chan_open` opens a channel exactly when fewer than sixteen were ever created**, its id
is free and its CHANNEL_OPEN fits the control queue. -/
theorem channel_opens (server : Bool) (steps : List Step) (type : ChanType) (dir : Dir)
    (contentType : List UInt8) :
    let c := runConn server steps
    (Available c → Opens c type dir contentType) ↔ (Available c → OpenRoom c contentType) := by
  intro c
  have hu := used_run server steps
  exact forall_congr' fun ha => ⟨room_of_opens hu, opens_of_room ha.connected hu⟩

/-- Sixteen channels are opened, and each is closed by the peer. -/
def sixteenSteps : List Step :=
  [.call (.connect { now := 1, entropy := 7 } [1]), .frame {} (.connectAccept 9 ncVersion 30000)] ++
    (List.range 16).flatMap fun i =>
      [.call (.chanOpen .reliable .send []), .frame {} (.channelClose (Fin.ofNat _ (2 * i)) 0)]

/-- **Sixteen channels ever**: all of them are closed and nothing is queued, and there is no
seventeenth. -/
theorem sixteen_closed :
    Available (runConn false sixteenSteps) ∧ (runConn false sixteenSteps).unclosed = ∅ ∧
      (netchanChanOpen (runConn false sixteenSteps) .reliable .send []).1 = none := by
  have hstate : (runConn false sixteenSteps).state = .connected := by decide +kernel
  have hclosed : (runConn false sixteenSteps).unclosed = ∅ := by decide +kernel
  have hidle : ∀ id, ∀ ch ∈ (runConn false sixteenSteps).channels id,
      ch.rcv.recvQueue.Empty ∧ ∀ k, (ch.snd.outgoing k).active = false := by
    decide +kernel
  exact ⟨⟨hstate, by rw [hclosed]; decide, hidle⟩, hclosed, by decide +kernel⟩

end Netchan
