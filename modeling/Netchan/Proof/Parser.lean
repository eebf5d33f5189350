import Netchan.Core.Checked
import Netchan.Proof.Reassembly

/-!
# The parser stays inside the datagram

In every reachable state the checked parser of `Netchan.Core.Checked` meets no failing access and
computes what the parser computes (`parser_inside`). The reads of the packet are covered by the
length checks in front of them; the indices of a fragment are in range because no reassembly slot
is ever opened for more than `ncMaxFrags` fragments (`FragsCounted`).
-/

namespace Netchan

open Lib

/-! ## Accesses -/

section
variable {p : List UInt8} {i n : Nat}

theorem checked_byte (h : i < p.length) : Checked.byte p i = some (byte p i) := by
  simp [Checked.byte, byte, List.getElem?_eq_getElem h, List.getD_eq_getElem?_getD]

theorem checked_rd16 (h : i + 2 ≤ p.length) : Checked.rd16 p i = some (rd16 p i) := by
  simp [Checked.rd16, rd16, checked_byte (show i < p.length by omega),
    checked_byte (show i + 1 < p.length by omega)]

theorem checked_rd32 (h : i + 4 ≤ p.length) : Checked.rd32 p i = some (rd32 p i) := by
  simp [Checked.rd32, rd32, checked_byte (show i < p.length by omega),
    checked_byte (show i + 1 < p.length by omega), checked_byte (show i + 2 < p.length by omega),
    checked_byte (show i + 3 < p.length by omega)]

theorem checked_bytes (h : i + n ≤ p.length) : Checked.bytes p i n = some ((p.drop i).take n) :=
  if_pos h

theorem checked_index (h : i < n) : Checked.index n i = some ⟨i, h⟩ := dif_pos h

theorem checked_chanIdAt (h : i < p.length) : Checked.chanIdAt p i = some (chanIdAt p i) := by
  have hb : (byte p i).toNat < ncMaxChannels := (byte p i).toNat_lt
  simp only [Checked.chanIdAt, checked_byte h, Option.bind_eq_bind, Option.bind_some,
    checked_index hb, chanIdAt, Option.some.injEq]
  exact Fin.ext (Nat.mod_eq_of_lt hb).symm

end

/-! ## DATA -/

section
variable {fp : Nat} {x : Rx} {seq : UInt16} {idx total : Nat} {payload : List UInt8}

/-- No slot of the receiver waits for more fragments than a slot can hold. -/
def Receiver.FragsCounted (r : Receiver) : Prop := ∀ i, (r.frags i).total ≤ ncMaxFrags

theorem fragSlot_counted {x' : Rx} {i : Fin ncFragSlots} (h : x.rcv.FragsCounted)
    (hs : fragSlot x seq total = some (i, x')) : (x'.rcv.frags i).total ≤ ncMaxFrags := by
  rcases fragSlot_cases hs with ⟨rfl, -, -⟩ | ⟨b, p, ht, -, -, -, rfl⟩
  · exact h i
  · simpa using ht

theorem checked_indices {n : Nat} : ∀ {l : List Nat}, (∀ i ∈ l, i < n) →
    ∃ os, l.mapM (Checked.index n) = some os
  | [], _ => ⟨[], rfl⟩
  | i :: l, h => by
    obtain ⟨os, ho⟩ := checked_indices fun j hj => h j (.tail _ hj)
    exact ⟨⟨i, h i (.head _)⟩ :: os, by simp [ho, checked_index (h i (.head _))]⟩

/-- **The reassembly block uses indices in range**, if no slot waits for too many fragments. -/
theorem checked_fragStore (h : x.rcv.FragsCounted) :
    Checked.fragStore fp x seq idx total payload =
      some (fragStore fp x seq idx total payload) := by
  unfold Checked.fragStore fragStore
  cases hs : fragSlot x seq total with
  | none => rfl
  | some r =>
    obtain ⟨i, x'⟩ := r
    have ht := fragSlot_counted h hs
    dsimp only
    by_cases hi : idx < (x'.rcv.frags i).total
    · have h32 : idx < 32 := by simp only [ncMaxFrags] at ht; omega
      simp only [if_pos hi, checked_index h32, Option.bind_eq_bind, Option.bind_some]
      by_cases hb : (x'.rcv.frags i).bitmask.testBit idx = false ∧
          idx * fp + payload.length ≤ ncMaxMsg
      · rw [if_pos hb, if_pos (show (x'.rcv.frags i).Takes fp idx payload.length from
          ⟨⟨hi, hb.1⟩, hb.2⟩)]
        have hput : ((fragPut fp x' i idx payload).rcv.frags i).total ≤ ncMaxFrags := by
          simpa [fragPut, FragAsm.add] using ht
        obtain ⟨os, ho⟩ := checked_indices fun j hj =>
          Nat.lt_of_lt_of_le (List.mem_range.1 hj) hput
        split
        · rw [ho]
          rfl
        · rfl
      · rw [if_neg hb, if_neg fun ht => hb ⟨ht.1.2, ht.2⟩]
        rfl
    · rw [if_neg hi, if_neg fun ht => hi ht.1.1]

theorem checked_reorderStore : Checked.reorderStore x seq payload =
    some (reorderStore x seq payload) := by
  have hi : Checked.index ncReorderSlots (seq.toNat % ncReorderSlots) = some (reorderSlot seq) :=
    checked_index (Nat.mod_lt _ (by decide))
  unfold Checked.reorderStore reorderStore
  simp only [hi, Option.bind_eq_bind, Option.bind_some]
  generalize poolGet x.pool = g
  split
  · split
    · rcases g with ⟨_ | b, p⟩ <;> rfl
    · rfl
  · rfl

theorem checked_dataArrived (id : ChanId) : Checked.dataArrived id x seq payload =
    some (dataArrived id x seq payload) := by
  unfold Checked.dataArrived dataArrived
  split
  · rfl
  · exact checked_reorderStore

theorem checked_dataUnreliable (id : ChanId) (h : x.rcv.FragsCounted) :
    Checked.dataUnreliable fp id x seq idx total payload =
      some (dataUnreliable fp id x seq idx total payload) := by
  unfold Checked.dataUnreliable dataUnreliable
  split
  · rfl
  · simp only [checked_fragStore h, Option.bind_eq_bind, Option.bind_some]
    generalize fragStore fp x seq idx total payload = r
    obtain ⟨y, _ | ⟨i, pos⟩⟩ := r <;> rfl

theorem checked_dataReliable (id : ChanId) (h : x.rcv.FragsCounted) :
    Checked.dataReliable fp id x seq idx total payload =
      some (dataReliable fp id x seq idx total payload) := by
  unfold Checked.dataReliable dataReliable
  split
  · exact checked_dataArrived id
  · simp only [checked_fragStore h, Option.bind_eq_bind, Option.bind_some]
    generalize fragStore fp x seq idx total payload = r
    obtain ⟨y, _ | ⟨i, pos⟩⟩ := r
    · rfl
    · dsimp only
      rw [checked_dataArrived]
      rfl

end

/-- No channel has a slot that waits for too many fragments. -/
def FragsCounted (c : Conn) : Prop := ∀ id ch, c.channels id = some ch → ch.rcv.FragsCounted

theorem checked_dataReceived {c : Conn} (h : FragsCounted c) (id : ChanId) (seq : UInt16)
    (idx total : Nat) (payload : List UInt8) :
    Checked.dataReceived c id seq idx total payload =
      some (dataReceived c id seq idx total payload) := by
  unfold Checked.dataReceived dataReceived
  cases hc : c.channels id with
  | none => rfl
  | some ch =>
    have hx : (c.rx ch).rcv.FragsCounted := h id ch hc
    dsimp only
    split
    · rfl
    split
    · rw [checked_dataUnreliable id hx]
      rfl
    · rw [checked_dataReliable id hx]
      rfl

/-! ## Handlers -/

section
variable (env : Env) {c : Conn} (p : List UInt8)

theorem checked_length {n : Nat} {a : Handled} {k : Option Handled} {b : Handled}
    (h : n ≤ p.length → k = some b) :
    (if p.length < n then some a else k) = some (if p.length < n then a else b) := by
  split
  · rfl
  · exact h (by omega)

theorem checked_connectInit :
    Checked.processConnectInit env c p = some (processConnectInit env c p) := by
  unfold Checked.processConnectInit processConnectInit
  refine checked_length p fun h => ?_
  simp only [checked_rd32 (show 1 + 4 ≤ p.length by omega), checked_byte (show 5 < p.length from h),
    Option.bind_eq_bind, Option.bind_some]
  repeat' split
  all_goals rfl

theorem checked_connectAccept :
    Checked.processConnectAccept c p = some (processConnectAccept c p) := by
  unfold Checked.processConnectAccept processConnectAccept
  refine checked_length p fun h => ?_
  simp only [checked_rd32 (show 1 + 4 ≤ p.length by omega), checked_byte (show 5 < p.length by omega),
    checked_rd32 (show 6 + 4 ≤ p.length from h), Option.bind_eq_bind, Option.bind_some]
  split <;> rfl

theorem checked_connectRedirect :
    Checked.processConnectRedirect c p = some (processConnectRedirect c p) := by
  unfold Checked.processConnectRedirect processConnectRedirect
  refine checked_length p fun h => ?_
  simp only [checked_rd32 (show 1 + 4 ≤ p.length by omega), checked_byte (show 5 < p.length by omega),
    checked_bytes (show 6 + 6 ≤ p.length from h), Option.bind_eq_bind, Option.bind_some]
  split
  · rfl
  split
  · split
    · rfl
    · rw [checked_bytes (by omega)]
      rfl
  · rfl

theorem checked_ping : Checked.processPing c p = some (processPing c p) := by
  unfold Checked.processPing processPing
  refine checked_length p fun h => ?_
  rw [checked_rd32 h]
  rfl

theorem checked_pong : Checked.processPong env c p = some (processPong env c p) := by
  unfold Checked.processPong processPong
  refine checked_length p fun h => ?_
  simp only [checked_rd32 (show 1 + 4 ≤ p.length from h), Option.bind_eq_bind, Option.bind_some,
    pongReceived]
  split <;> rfl

/-- Of a content type only the first 63 bytes are looked at. -/
theorem channelOpened_take (id : ChanId) (type : ChanType) (dir : Dir) (ct : List UInt8) :
    channelOpened c id type dir (ct.take 63) = channelOpened c id type dir ct := by
  rw [channelOpened, channelOpened, List.take_take, Nat.min_self]

theorem checked_channelOpen : Checked.processChannelOpen c p = some (processChannelOpen c p) := by
  unfold Checked.processChannelOpen processChannelOpen
  refine checked_length p fun h => ?_
  simp only [checked_chanIdAt (show 1 < p.length by omega), checked_byte (show 2 < p.length by omega),
    checked_byte (show 3 < p.length by omega), checked_byte (show 4 < p.length from h),
    Option.bind_eq_bind, Option.bind_some]
  refine checked_length p fun h => ?_
  rw [checked_bytes (by omega), Nat.min_comm, ← List.take_take, Option.bind_some, channelOpened_take]
  rfl

theorem checked_channelClose : Checked.processChannelClose c p = some (processChannelClose c p) := by
  unfold Checked.processChannelClose processChannelClose
  refine checked_length p fun h => ?_
  rw [checked_chanIdAt (by omega)]
  rfl

theorem checked_data (h : FragsCounted c) : Checked.processData c p = some (processData c p) := by
  unfold Checked.processData processData
  refine checked_length p fun hp => ?_
  simp only [checked_chanIdAt (show 1 < p.length by omega), checked_rd16 (show 2 + 2 ≤ p.length by omega),
    checked_rd16 (show 4 + 2 ≤ p.length by omega), checked_byte (show 6 < p.length by omega),
    checked_byte (show 7 < p.length from hp), Option.bind_eq_bind, Option.bind_some]
  refine checked_length p fun hp => ?_
  rw [checked_bytes hp, Option.bind_some, checked_dataReceived h]
  rfl

theorem checked_ack : Checked.processAck c p = some (processAck c p) := by
  unfold Checked.processAck processAck
  refine checked_length p fun h => ?_
  simp only [checked_chanIdAt (show 1 < p.length by omega), checked_rd16 (show 2 + 2 ≤ p.length from h),
    Option.bind_eq_bind, Option.bind_some]
  rfl

theorem checked_windowUpdate :
    Checked.processWindowUpdate c p = some (processWindowUpdate c p) := by
  unfold Checked.processWindowUpdate processWindowUpdate
  refine checked_length p fun h => ?_
  simp only [checked_chanIdAt (show 1 < p.length by omega), checked_rd32 (show 2 + 4 ≤ p.length from h),
    Option.bind_eq_bind, Option.bind_some]
  rfl

/-- **No handler reads at or beyond the end of the packet**, and every index it takes from the
packet is in range. -/
theorem checked_processFrame (h : FragsCounted c) (hp : p ≠ []) :
    Checked.processFrame env c p = some (processFrame env c p) := by
  unfold Checked.processFrame processFrame
  rw [checked_byte (List.length_pos_iff.2 hp), Option.bind_eq_bind, Option.bind_some]
  generalize (byte p 0).toNat = t
  split
  · exact checked_connectInit env p
  · exact checked_connectAccept p
  · exact checked_connectRedirect p
  · rfl
  · exact checked_ping p
  · exact checked_pong env p
  · exact checked_channelOpen p
  · exact checked_channelClose p
  · exact checked_data p h
  · exact checked_ack p
  · exact checked_windowUpdate p
  · simp only [Option.pure_def, *]

end

/-! ## What a handler consumes -/

theorem decodeFixed_length {n m : Nat} {f g : Frame} {p : List UInt8}
    (h : decodeFixed n f p = some (g, m)) : m = n ∧ n ≤ p.length := by
  unfold decodeFixed at h
  split at h
  · cases h
  · cases h
    exact ⟨rfl, by omega⟩

theorem decodeFrame_length {p : List UInt8} {f : Frame} {n : Nat}
    (h : decodeFrame p = some (f, n)) : 1 ≤ n ∧ n ≤ p.length := by
  have fixed : ∀ {m : Nat} {g : Frame}, 1 ≤ m → decodeFixed m g p = some (f, n) →
      1 ≤ n ∧ n ≤ p.length := by
    intro m g hm h
    obtain ⟨rfl, hl⟩ := decodeFixed_length h
    exact ⟨hm, hl⟩
  unfold decodeFrame at h
  split at h
  · unfold decodeConnectInit at h
    split at h
    · cases h
    · exact fixed (by decide) h
  · exact fixed (by decide) h
  · unfold decodeRedirect at h
    repeat' split at h
    · cases h
    · cases h
      exact ⟨by decide, by omega⟩
    · exact fixed (by decide) h
    · cases h
  · exact fixed (by decide) h
  · exact fixed (by decide) h
  · exact fixed (by decide) h
  · unfold decodeChannelOpen at h
    split at h
    · cases h
    · exact fixed (by omega) h
  · exact fixed (by decide) h
  · unfold decodeData at h
    split at h
    · cases h
    · exact fixed (by omega) h
  · exact fixed (by decide) h
  · exact fixed (by decide) h
  · cases h

/-- **A frame handler fails, leaving the connection as it was, or applies a frame and consumes
between one byte and all that remain.** -/
theorem processFrame_pos (env : Env) (c : Conn) (p : List UInt8) :
    processFrame env c p = (.error .proto, c) ∨
      ∃ f n, processFrame env c p = (.ok n, stepFrame env c f) ∧ 1 ≤ n ∧ n ≤ p.length := by
  rw [processFrame_eq]
  cases hd : decodeFrame p with
  | none => exact .inl rfl
  | some q =>
    obtain ⟨f, n⟩ := q
    cases ha : applyFrame env c f with
    | none => exact .inl (by simp only [handle, ha])
    | some c' =>
      exact .inr ⟨f, n, by simp only [handle, ha, stepFrame, Option.getD_some], decodeFrame_length hd⟩

/-! ## Packets -/

theorem step_counted {c : Conn} {s : Step} (h : FragsCounted c) : FragsCounted (s.apply c) := by
  intro id ch' hc'
  have hch := step_chan c s id
  rw [hc'] at hch
  generalize hc : c.channels id = o at hch
  cases hch with
  | created hid hs hr =>
    rw [hr]
    exact fun i => Nat.zero_le _
  | kept hk hr =>
    rename_i ch
    have hp := h id ch hc
    generalize hre : ch'.rcv = r' at hr
    cases hr with
    | flags hf =>
      obtain ⟨a, w, rfl, -, -⟩ := hf
      exact hp
    | read buflen _ _ => exact hp
    | data env seq fragIdx fragTotal payload _ =>
      exact data_frags (P := fun f => f.total ≤ ncMaxFrags) (Nat.zero_le _) (fun b _ ht => ht)
        (fun f _ hf _ _ _ => hf) hp

theorem counted_run (server : Bool) (sts : List Step) : FragsCounted (runConn server sts) :=
  run_invariant (I := FragsCounted) (A := fun _ _ => True) (fun c st h _ => step_counted h)
    (fun id ch h => by simp [netchanOpen] at h) (along_of_forall fun _ _ => trivial)

/-- The loop of `parse_frames` stays inside the packet and ends. -/
theorem checked_parseLoop (env : Env) (data : List UInt8) : ∀ (fuel : Nat) {c : Conn} {pos : Nat},
    FragsCounted c → pos ≤ data.length → data.length ≤ pos + fuel →
    Checked.parseLoop env data fuel c pos = some (parseLoop env fuel c (data.drop pos))
  | 0, c, pos, _, _, hf => by
    rw [Checked.parseLoop, if_neg (by omega), parseLoop]
  | fuel + 1, c, pos, h, hp, hf => by
    unfold Checked.parseLoop
    by_cases hlt : pos < data.length
    · rw [if_pos hlt, checked_byte hlt]
      have hd : data.drop pos = byte data pos :: data.drop (pos + 1) := by
        rw [List.drop_eq_getElem_cons hlt, byte, List.getD_eq_getElem?_getD,
          List.getElem?_eq_getElem hlt, Option.getD_some]
      simp only [Option.bind_eq_bind, Option.bind_some]
      rw [checked_processFrame env _ h (by rw [hd]; simp), hd, parseLoop, ← hd]
      by_cases h0 : byte data pos = 0
      · rw [if_pos h0, if_pos h0]
        exact checked_parseLoop env data fuel h (by omega) (by omega)
      · rw [if_neg h0, if_neg h0, Option.bind_some]
        rcases processFrame_pos env c (data.drop pos) with he | ⟨f, n, he, h1, hn⟩
        · simp only [he]
          rfl
        · rw [List.length_drop] at hn
          simp only [he]
          rw [if_pos ⟨h1, by omega⟩, List.drop_drop]
          exact checked_parseLoop env data fuel (step_counted (s := .frame env f) h) (by omega)
            (by omega)
    · rw [if_neg hlt, List.drop_eq_nil_of_le (by omega), parseLoop]

theorem checked_parseFrames (env : Env) {c : Conn} (h : FragsCounted c) (data : List UInt8) :
    Checked.parseFrames env c data = some (parseFrames env c data) :=
  checked_parseLoop env data data.length h (Nat.zero_le _) (by omega)

theorem checked_validateMigration (c : Conn) (frames : List UInt8) :
    Checked.validateMigration c frames = some (validateMigration c frames) := by
  cases frames with
  | nil => rfl
  | cons b l =>
    unfold Checked.validateMigration validateMigration
    rw [if_neg (by simp), checked_byte (by simp)]
    simp only [Option.bind_eq_bind, Option.bind_some, byte_cons_zero]
    by_cases h9 : b = 0x09 ∧ 4 ≤ (b :: l).length
    · rw [if_pos h9, checked_chanIdAt (by omega)]
      obtain ⟨rfl, hl⟩ := h9
      rw [List.length_cons] at hl
      simp [show 3 ≤ l.length by omega]
    · rw [if_neg h9]
      by_cases hA : b = 0x0A ∧ 2 ≤ (b :: l).length
      · rw [if_pos hA, checked_chanIdAt (by omega)]
        obtain ⟨rfl, hl⟩ := hA
        rw [List.length_cons] at hl
        simp [show 1 ≤ l.length by omega]
      · rw [if_neg hA]
        have e9 : (decide (b = 0x09) && decide (4 ≤ (b :: l).length)) = false := by
          rw [← Bool.decide_and]
          exact decide_eq_false h9
        have eA : (decide (b = 0x0A) && decide (2 ≤ (b :: l).length)) = false := by
          rw [← Bool.decide_and]
          exact decide_eq_false hA
        rw [e9, eA]
        rfl

theorem checked_updatePeer (c : Conn) (frames : List UInt8) (source : Option Addr) :
    Checked.updatePeer c frames source = some (updatePeer c frames source) := by
  cases source with
  | none => rfl
  | some a =>
    unfold Checked.updatePeer updatePeer
    rw [checked_validateMigration]
    by_cases h : a ≠ [] ∧ c.peerAddr ≠ [] ∧ c.state = .connected ∧ a ≠ c.peerAddr
    · cases validateMigration c frames <;> simp [h]
    · have hn : ¬ (a ≠ [] ∧ c.peerAddr ≠ [] ∧ c.state = .connected ∧ a ≠ c.peerAddr ∧
          validateMigration c frames = true) := fun hh => h ⟨hh.1, hh.2.1, hh.2.2.1, hh.2.2.2.1⟩
      simp only [if_neg h, if_neg hn, pure_bind]
      split <;> rfl

theorem updatePeer_pkts (c : Conn) (frames : List UInt8) (source : Option Addr) :
    (updatePeer c frames source).pktsRecv = c.pktsRecv := by
  obtain ⟨a, h⟩ := updatePeer_eq c frames source
  rw [h]

/-- **`netchan_feed` stays inside the packet and its tables**, and ends. -/
theorem checked_netchanFeed (env : Env) {c : Conn} (h : FragsCounted c) (pkt : List UInt8)
    (source : Option Addr) :
    Checked.netchanFeed env c pkt source = some (netchanFeed env c pkt source) := by
  unfold Checked.netchanFeed netchanFeed headerOk
  by_cases h5 : pkt.length < ncHdrInitSize
  · rw [if_pos h5, decide_eq_false (by omega)]
    rfl
  rw [if_neg h5]
  have hl : 5 ≤ pkt.length := by simpa [ncHdrInitSize] using h5
  simp only [checked_byte (show 0 < pkt.length by omega), checked_rd32 (show 1 + 4 ≤ pkt.length from hl),
    Option.bind_eq_bind, Option.bind_some]
  -- behind an accepted header the rest of the packet is parsed
  have hbody : hdrSize (byte pkt 0) ≤ pkt.length →
      (Checked.bytes pkt (hdrSize (byte pkt 0)) (pkt.length - hdrSize (byte pkt 0))).bind (fun body =>
        (Checked.updatePeer c body source).bind fun c' =>
          Checked.parseFrames env { c' with lastRecvMs := env.now, pktsRecv := c'.pktsRecv + 1 } body) =
      some (parseFrames env (fedConn env c pkt source) (pkt.drop (hdrSize (byte pkt 0)))) := by
    intro hh
    have hc : FragsCounted (fedConn env c pkt source) := step_counted (s := .header env pkt source) h
    rw [checked_bytes (by omega), Option.bind_some, List.take_of_length_le (by simp),
      checked_updatePeer, Option.bind_some, ← checked_parseFrames env hc, fedConn, updatePeer_pkts]
  by_cases hI : byte pkt 0 &&& ncPktFlagInit = 0
  · have hs : hdrSize (byte pkt 0) = ncHdrFullSize := by simp [hdrSize, hI]
    by_cases h7 : pkt.length < ncHdrFullSize
    · rw [if_pos ⟨hI, h7⟩, hs, decide_eq_false (Nat.not_le.2 h7), Bool.and_false]
      rfl
    rw [if_neg fun hh => h7 hh.2]
    by_cases hid : rd32 pkt 1 = c.localId
    · rw [if_neg fun hh => hh.2 hid, hbody (by omega)]
      simp [hI, hid, hs, hl, show 7 ≤ pkt.length by simpa using h7]
    · rw [if_pos ⟨hI, hid⟩]
      simp [hI, hid]
  · have hs : hdrSize (byte pkt 0) = ncHdrInitSize := by simp [hdrSize, hI]
    rw [if_neg fun hh => hI hh.1, if_neg fun hh => hI hh.1, hbody (by omega)]
    simp [hI, hs, hl]

/-- **The parser stays inside the datagram**: in every reachable state, `netchan_feed` ends on
every packet without a read at or beyond its end and without an index out of range, `parse_frames`
does on all bytes, and a handler fails or consumes between one byte and all that remain. -/
theorem parser_inside (server : Bool) (sts : List Step) (env : Env) :
    (∀ pkt source, Checked.netchanFeed env (runConn server sts) pkt source =
      some (netchanFeed env (runConn server sts) pkt source)) ∧
    (∀ data, Checked.parseFrames env (runConn server sts) data =
      some (parseFrames env (runConn server sts) data)) ∧
    ∀ b p, Checked.processFrame env (runConn server sts) (b :: p) =
        some (processFrame env (runConn server sts) (b :: p)) ∧
      ((processFrame env (runConn server sts) (b :: p)).1 = .error .proto ∨
        ∃ n, (processFrame env (runConn server sts) (b :: p)).1 = .ok n ∧ 1 ≤ n ∧
          n ≤ (b :: p).length) := by
  have h := counted_run server sts
  generalize runConn server sts = c at h
  refine ⟨fun pkt source => checked_netchanFeed env h pkt source,
    fun data => checked_parseFrames env h data, fun b p =>
      ⟨checked_processFrame env _ h (by simp), ?_⟩⟩
  rcases processFrame_pos env c (b :: p) with he | ⟨f, n, he, h1, hn⟩
  · exact .inl (by rw [he])
  · exact .inr ⟨n, by rw [he], h1, hn⟩

end Netchan
