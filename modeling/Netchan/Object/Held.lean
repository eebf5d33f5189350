import Netchan.Object.Core
import Netchan.Proof.Owners

/-!
# The control queue stays in its place

`Held L c`: the memory of `c` holds the control queue that `Conn` keeps apart. A step in which every
message completed by reassembly fits in a buffer (`FramesFit`) leaves the memory behind `pool_store`
alone (`step_behind`), so the object takes the step (`apply_held`) and does what `Conn` says, with
the queue in memory again: it is `Step.apply` of the connection with other bytes behind the store.
`run_held` is the invariant rule for runs of an object.
-/

namespace Netchan

open Lib

/-! ## The memory behind the store -/

/-- The memory behind `pool_store` is the same. -/
def Behind (m m' : Mem) : Prop := ∀ y, poolBytes ≤ y → m' y = m y

namespace Behind

variable {m m' m'' : Mem}

theorem refl (m : Mem) : Behind m m := fun _ _ => rfl

theorem of_eq (h : m' = m) : Behind m m' := fun _ _ => by rw [h]

theorem trans (h : Behind m m') (h' : Behind m' m'') : Behind m m'' :=
  fun y hy => (h' y hy).trans (h y hy)

theorem read (h : Behind m m') {a : Nat} (ha : poolBytes ≤ a) (n : Nat) :
    m'.read a n = m.read a n :=
  Mem.read_congr fun y hy _ => h y (ha.trans hy)

end Behind

theorem poolPtr_le (b : Option BufIdx) : poolPtr b + ncMaxMsg ≤ poolBytes := by
  cases b with
  | none => decide
  | some b =>
    have := b.isLt
    simp only [poolPtr, poolBytes, ncPoolBufs, ncMaxMsg] at this ⊢
    omega

theorem behind_write (m : Mem) (b : Option BufIdx) {off : Nat} {d : List UInt8}
    (h : off + d.length ≤ ncMaxMsg) : Behind m (m.write (poolPtr b + off) d) := by
  intro y hy
  have := poolPtr_le b
  exact Mem.write_outside m (.inr (by omega))

namespace Rx

variable {x : Rx} {id : ChanId}

/-- The DATA path has left the memory behind the store alone. -/
def Behind (x x' : Rx) : Prop := Netchan.Behind x.pool.poolStore x'.pool.poolStore

theorem deliver_behind (x : Rx) (id : ChanId) (data : List UInt8) : x.Behind (x.deliver id data) := by
  rcases deliver_cases x id data with ⟨hr, b, fs, -, he⟩ | ⟨-, he⟩
  · rw [he]
    exact behind_write _ (some b) (by rw [Nat.zero_add]; exact hr.small)
  · rw [he]
    exact .refl _

theorem deliverLoop_behind (id : ChanId) : ∀ (fuel : Nat) (x : Rx), x.Behind (deliverLoop id fuel x)
  | 0, x => .refl _
  | fuel + 1, x => by
    unfold deliverLoop
    split
    · exact ((x.deliver_behind id _).trans (.of_eq (poolPut_store ..))).trans (deliverLoop_behind id fuel _)
    · exact .refl _

theorem reorderStore_behind (x : Rx) (seq : UInt16) (data : List UInt8) :
    x.Behind (reorderStore x seq data) := by
  unfold reorderStore
  dsimp only
  split
  · split
    · rename_i hg
      split
      · exact .refl _
      · rename_i b p hget
        have hp := poolGet_store hget
        refine (Netchan.Behind.of_eq hp).trans (behind_write _ (some b) ?_)
        rw [Nat.zero_add]
        exact hg.2
    · exact .refl _
  · exact .refl _

theorem dataArrived_behind (x : Rx) (id : ChanId) (seq : UInt16) (data : List UInt8) :
    x.Behind (dataArrived id x seq data) := by
  unfold dataArrived
  split
  · exact (x.deliver_behind id data).trans (deliverLoop_behind id ncReorderSlots _)
  · exact x.reorderStore_behind seq data

/-- **Reassembly stays within the store** when the message it completes fits in a buffer. -/
theorem fragStore_behind {fp : Nat} {seq : UInt16} {idx total : Nat} {payload : List UInt8}
    (hfit : FragFits fp x seq idx total payload.length) :
    x.Behind (fragStore fp x seq idx total payload).1 := by
  intro y hy
  refine fragStore_outside fp x seq idx total payload fun w hw hin => ?_
  unfold FragFits completedLen at hfit
  unfold fragWrites at hw
  cases hs : fragSlot x seq total with
  | none => simp [hs] at hw
  | some r =>
    obtain ⟨i, x'⟩ := r
    rw [hs] at hfit hw
    dsimp only at hfit hw
    have hb := poolPtr_le (x'.rcv.frags i).buf
    split at hw
    · rename_i ht
      rcases List.mem_cons.1 hw with rfl | hw
      · have := ht.2
        omega
      · split at hw
        · rename_i hg
          have hlen := hfit _ (if_pos ⟨ht, hg⟩)
          obtain ⟨v, hv, rfl⟩ := List.mem_map.1 hw
          have := compactMoves_le fp _ _ 0 v hv
          simp only [FragAsm.length] at hlen
          omega
        · simp at hw
    · simp at hw

section
variable {fp : Nat} {seq : UInt16} {idx total : Nat} {payload : List UInt8}

theorem dataUnreliable_behind
    (hfit : 1 < total → FragFits fp x seq idx total payload.length) :
    x.Behind (dataUnreliable fp id x seq idx total payload) := by
  unfold dataUnreliable
  split
  · exact x.deliver_behind id payload
  · have hs := fragStore_behind (hfit (by omega))
    split
    · rename_i x' he
      rwa [he] at hs
    · rename_i x' i pos he
      rw [he] at hs
      exact (hs.trans (x'.deliver_behind id _)).trans (.of_eq (poolPut_store ..))

theorem dataReliable_behind
    (hfit : 1 < total → FragFits fp x seq idx total payload.length) :
    x.Behind (dataReliable fp id x seq idx total payload) := by
  unfold dataReliable
  split
  · exact x.dataArrived_behind id seq payload
  · have hs := fragStore_behind (hfit (by omega))
    split
    · rename_i x' he
      rwa [he] at hs
    · rename_i x' i pos he
      rw [he] at hs
      exact (hs.trans (x'.dataArrived_behind id seq _)).trans (.of_eq (poolPut_store ..))

end

end Rx

section
variable {c c' : Conn}

theorem emit_store {now : UInt32} {f : Frame} (h : Emit now c f c') :
    c'.pool.poolStore = c.pool.poolStore := by
  cases h with
  | @data id ch k hc hs =>
    show (chanSent now c.pool ch k).1.poolStore = _
    unfold chanSent
    dsimp only
    split
    · exact poolPut_store ..
    · rfl
  | _ => rfl

theorem call_behind (c : Conn) (k : Call) : Behind c.pool.poolStore (k.apply c).pool.poolStore := by
  by_cases hs : k.Session
  · exact .of_eq (congrArg Pool.poolStore (apply_session c hs).2.1)
  cases k with
  | write id data =>
    simp only [Call.apply]
    rcases netchanChanWrite_cases c id data with ⟨he, -⟩ | ⟨ch, b, p, hw, hcase⟩
    · rw [he]
      exact .refl _
    · have hp : Behind c.pool.poolStore (p.write (some b) 0 data).poolStore :=
        (Behind.of_eq (poolGet_store hw.get)).trans
          (behind_write _ (some b) (by rw [Nat.zero_add]; exact hw.small))
      rcases hcase with ⟨-, -, he⟩ | ⟨-, -, he⟩ <;> rw [he] <;> exact hp
  | read id buflen =>
    simp only [Call.apply]
    rcases netchanChanRead_cases c id buflen with ⟨he, -⟩ | ⟨ch, -, -, -, he⟩
    · rw [he]
      exact .refl _
    · rw [he]
      show Behind _ (poolPut c.pool ch.rcv.recvQueue.front.buf).poolStore
      exact .of_eq (poolPut_store ..)
  | service env now =>
    simp only [Call.apply]
    rcases netchanService_cases env c now with ⟨-, he⟩ | ⟨-, n, he⟩
    · rw [he]
      exact .refl _
    · rw [he]
      refine .of_eq (show (serviced env c now).pool.poolStore = _ from ?_)
      unfold serviced
      repeat' split
      all_goals rfl
  | chanOpen type dir ct =>
    simp only [Call.apply, netchanChanOpen_eq]
    repeat' split
    all_goals exact .refl _
  | chanClose id =>
    simp only [Call.apply, netchanChanClose]
    repeat' split
    all_goals exact .refl _
  | _ => exact absurd trivial hs

/-- Only DATA can write past the store, when the message it completes does not fit. -/
theorem frame_behind (c : Conn) (env : Env) {f : Frame} (hfit : FramesFit c (.frame env f)) :
    Behind c.pool.poolStore (stepFrame env c f).pool.poolStore := by
  by_cases hs : f.Session
  · exact .of_eq (congrArg Pool.poolStore (stepFrame_session env c hs).2.1)
  simp only [stepFrame, applyFrame]
  cases f with
  | channelOpen id type dir ct =>
    simp only [channelOpened_eq, Option.getD_some]
    split <;> exact .refl _
  | channelClose id error =>
    simp only [channelClosed, Option.getD_some]
    split <;> exact .refl _
  | data id seq idx total payload =>
    simp only [dataReceived, Option.getD_some]
    cases hc : c.channels id with
    | none => exact .refl _
    | some ch =>
      dsimp only
      split
      · exact .refl _
      · rename_i hr
        have hf := hfit ch hc (not_not.1 hr)
        split
        · exact Rx.dataUnreliable_behind (x := c.rx ch) hf
        · exact Rx.dataReliable_behind (x := c.rx ch) hf
  | ack id acked =>
    simp only [ackReceived, Option.getD_some]
    repeat' split
    · exact .refl _
    · exact .refl _
    · rename_i ch _ _
      have h := ackScan_store acked (List.finRange ncOutgoingSlots) c.pool ch.snd
      generalize (List.finRange ncOutgoingSlots).foldl (ackSlot acked) (c.pool, ch.snd) = r at h
      exact .of_eq h
  | windowUpdate id w =>
    simp only [windowUpdated, Option.getD_some]
    repeat' split
    all_goals exact .refl _
  | _ => exact absurd trivial hs

/-- **A step leaves the memory behind the store alone**, provided the messages completed by
reassembly fit. -/
theorem step_behind (c : Conn) {st : Step} (hfit : FramesFit c st) :
    Behind c.pool.poolStore (st.apply c).pool.poolStore := by
  cases st with
  | config cfg => exact .refl _
  | header env pkt source => exact .of_eq (congrArg Pool.poolStore (updatePeer_pool c _ source))
  | sendNext env buflen =>
    simp only [Step.apply]
    rcases netchanSendNext_cases env c buflen with he | ⟨-, fs, c', hem, he⟩
    · rw [he]
      exact .refl _
    · have hstore : c'.pool.poolStore = c.pool.poolStore :=
        hem.invariant (I := fun d => d.pool.poolStore = c.pool.poolStore)
          (fun _ _ _ hd he => (emit_store he).trans hd) rfl
      rw [he]
      exact .of_eq hstore
  | call k => exact call_behind c k
  | frame env f => exact frame_behind c env hfit

end

/-! ## The queue in memory -/

/-- The bytes of the store itself are the same. -/
def SameStore (m m' : Mem) : Prop := ∀ y < poolBytes, m' y = m y

theorem SameStore.trans {m m' m'' : Mem} (h : SameStore m m') (h' : SameStore m' m'') :
    SameStore m m'' :=
  fun y hy => (h' y hy).trans (h y hy)

namespace Object

variable {L : Layout} {m m' : Mem} {q : List UInt8}

/-- `ctrl_buf` and `ctrl_len` hold the queue `q`. -/
structure Holds (L : Layout) (m : Mem) (q : List UInt8) : Prop where
  len : ctrlLen L m = q.length
  bytes : m.read L.ctrlBuf q.length = q
  small : q.length ≤ ncCtrlBufSize

theorem Holds.behind (h : Holds L m q) (hb : Behind m m') : Holds L m' q := by
  have hs := L.store
  have hl := L.buf
  refine ⟨?_, (hb.read hs _).trans h.bytes, h.small⟩
  rw [ctrlLen, hb.read (by omega)]
  exact h.len

theorem ctrlLen_set (m : Mem) (n : Nat) : ctrlLen L (setCtrlLen L m n) = n % 2 ^ 64 := by
  have h := Mem.read_write_self m L.ctrlLen (leBytes 8 n)
  rw [length_leBytes] at h
  rw [ctrlLen, setCtrlLen, h, leVal_leBytes]
  rfl

theorem setCtrlLen_store (m : Mem) (n : Nat) : SameStore m (setCtrlLen L m n) := by
  have hs := L.store
  have hl := L.buf
  exact fun y hy => Mem.write_outside m (.inl (by omega))

/-- `ctrl_len` is set to the length of what lies in `ctrl_buf`. -/
theorem holds_set (h : m.read L.ctrlBuf q.length = q) (hq : q.length ≤ ncCtrlBufSize) :
    Holds L (setCtrlLen L m q.length) q := by
  have hl := L.buf
  refine ⟨?_, ?_, hq⟩
  · rw [ctrlLen_set]
    simp only [ncCtrlBufSize] at hq
    omega
  · rw [setCtrlLen, Mem.read_congr fun y _ hy => Mem.write_outside m (.inl (by omega)), h]

/-- **`ctrl_reserve`** on memory that holds the queue. -/
theorem Holds.reserve (h : Holds L m q) {f : List UInt8} (hf : f.length ≤ ncCtrlBufSize) :
    ∃ m', Object.reserve L m f = some m' ∧ Holds L m' (ctrlAppend q f) ∧ SameStore m m' := by
  have hs := L.store
  have hl := L.buf
  have hq := h.small
  simp only [ncCtrlBufSize] at hf hq hl
  unfold Object.reserve ctrlAppend
  simp only [h.len, Nat.mod_eq_of_lt (show q.length + f.length < 2 ^ 64 by omega)]
  split
  · exact ⟨m, rfl, h, fun _ _ => rfl⟩
  · rename_i hroom
    rw [if_neg (by simp only [ncCtrlBufSize]; omega)]
    simp only [ncCtrlBufSize] at hroom
    refine ⟨_, rfl, ?_, fun y hy => ?_⟩
    · -- the bytes are written behind the queue, and before `ctrl_len`
      have hbytes : (m.write (L.ctrlBuf + q.length) f).read L.ctrlBuf (q ++ f).length = q ++ f := by
        rw [List.length_append, ← Mem.read_append, Mem.read_write_self,
          Mem.read_congr fun y _ hy => Mem.write_outside m (.inl hy), h.bytes]
      have hset := holds_set hbytes (L := L) (by
        simp only [List.length_append, ncCtrlBufSize]
        omega)
      have hcomm : (setCtrlLen L m (q.length + f.length)).write (L.ctrlBuf + q.length) f =
          setCtrlLen L (m.write (L.ctrlBuf + q.length) f) (q ++ f).length := by
        rw [setCtrlLen, setCtrlLen, List.length_append]
        exact Mem.write_comm m (.inr (by omega))
      rw [hcomm]
      exact hset
    · rw [Mem.write_outside _ (.inl (by omega))]
      exact setCtrlLen_store m _ y hy

theorem Holds.reserveFrames : ∀ {fs : List Frame} {m : Mem} {q : List UInt8}, Holds L m q →
    (∀ f ∈ fs, f.encode.length ≤ ncCtrlBufSize) →
    ∃ m', Object.reserveFrames L m fs = some m' ∧ Holds L m' (reserveAll q fs) ∧ SameStore m m'
  | [], m, q, h, _ => ⟨m, rfl, h, fun _ _ => rfl⟩
  | f :: fs, m, q, h, hf => by
    obtain ⟨m1, h1, h2, h3⟩ := h.reserve (hf f (.head _))
    obtain ⟨m2, h4, h5, h6⟩ := h2.reserveFrames fun g hg => hf g (.tail _ hg)
    refine ⟨m2, ?_, h5, h3.trans h6⟩
    rw [Object.reserveFrames, h1]
    exact h4

/-- **The queue is flushed.** -/
theorem Holds.flush (h : Holds L m q) {n : Nat} (hn : n ≤ q.length) :
    Holds L (Object.flush L m n) (q.drop n) ∧ SameStore m (Object.flush L m n) := by
  have hs := L.store
  have hl := L.buf
  have hq := h.small
  simp only [ncCtrlBufSize] at hq hl
  unfold Object.flush
  simp only [h.len]
  split
  · rename_i hlt
    let m1 := m.move L.ctrlBuf (L.ctrlBuf + n) (q.length - n)
    have hout : ∀ y, y < L.ctrlBuf ∨ L.ctrlLen ≤ y → m1 y = m y :=
      fun y hy => if_neg (by omega)
    have hlen : ctrlLen L m1 = q.length := by
      rw [ctrlLen, Mem.read_congr fun y hy _ => hout y (.inr hy)]
      exact h.len
    have hsub : sizeSub (ctrlLen L m1) n = (q.drop n).length := by
      rw [hlen, sizeSub, List.length_drop]
      omega
    have hbytes : m1.read L.ctrlBuf (q.drop n).length = q.drop n := by
      rw [List.length_drop]
      show (m.move L.ctrlBuf (L.ctrlBuf + n) (q.length - n)).read _ _ = _
      rw [Mem.read_move, Mem.read_inside m L.ctrlBuf (show n + (q.length - n) ≤ q.length by omega),
        h.bytes, List.take_of_length_le (by rw [List.length_drop])]
    refine ⟨?_, fun y hy => ?_⟩
    · show Holds L (setCtrlLen L m1 (sizeSub (ctrlLen L m1) n)) _
      rw [hsub]
      exact holds_set hbytes (by simp only [List.length_drop, ncCtrlBufSize]; omega)
    · exact (setCtrlLen_store m1 _ y hy).trans (hout y (.inl (by omega)))
  · rw [List.drop_of_length_le (by omega)]
    exact ⟨holds_set (q := []) rfl (by decide), setCtrlLen_store m 0⟩

end Object

/-- The memory of the connection holds its control queue. -/
def Held (L : Layout) (c : Conn) : Prop := Object.Holds L c.pool.poolStore c.ctrlBuf

section
variable {L : Layout} {o : Conn} {st : Step}

theorem requested_short {f : Frame} (h : f ∈ requested o st) : f.encode.length ≤ ncCtrlBufSize := by
  cases requested_queues h with
  | @opened type dir ct hc ho =>
    have := List.length_take_le 63 (createdChan o type dir ct).contentType
    simp only [openFrame, Frame.encode, List.length_append, List.length_cons, List.length_nil,
      ncCtrlBufSize]
    omega
  | _ => exact Nat.le_of_ble_eq_true rfl

namespace Object

theorem hasData_held (h : Held L o) : hasData L o = Netchan.hasData o := by
  unfold hasData Netchan.hasData
  rw [h.len]
  cases o.ctrlBuf <;> simp

theorem loaded_held (h : Held L o) : loaded L o = o := by
  unfold loaded
  rw [h.len, h.bytes]

theorem flushed_held (h : Held L o) (buflen : Nat) :
    flushed L o buflen = o.patch (flush L o.pool.poolStore (ctrlSent o buflen)) := by
  rw [flushed, loaded_held h]

/-- **`netchan_send_next` of an object**: nothing, or what `Conn` does with the queue flushed in
memory. -/
theorem sendNext_cases (h : Held L o) (env : Env) (buflen : Nat) :
    (netchanSendNext L env o buflen = some (o, none) ∧
      Netchan.netchanSendNext env o buflen = (o, none)) ∨
    (netchanSendNext L env o buflen =
        some (Netchan.netchanSendNext env (flushed L o buflen) buflen) ∧
      SameStore o.pool.poolStore (flushed L o buflen).pool.poolStore ∧
      Held L (Netchan.netchanSendNext env (flushed L o buflen) buflen).1) := by
  by_cases hd : Netchan.hasData o = true ∧ ¬ buflen < sendHdrSize o
  · obtain ⟨hd, hb⟩ := hd
    have hroom : ¬ L.ctrlBuf + o.ctrlBuf.length > L.size := by
      have hl := L.buf
      have hq := h.small
      rw [Layout.size]
      omega
    right
    rw [netchanSendNext, hasData_held h, if_neg (by simp [hd]), if_neg hb, h.len, if_neg hroom,
      flushed_held h]
    obtain ⟨h1, h2⟩ := h.flush (n := ctrlSent o buflen) (Nat.min_le_left ..)
    generalize flush L o.pool.poolStore (ctrlSent o buflen) = m at h1 h2
    refine ⟨rfl, h2, ?_⟩
    obtain ⟨fs, c', hem, he⟩ := netchanSendNext_emits env (c := o.patch m) hd hb
    have hstore : c'.pool.poolStore = m := hem.invariant (I := fun d => d.pool.poolStore = m)
      (fun _ _ _ hd he => (emit_store he).trans hd) rfl
    rw [he]
    show Holds L c'.pool.poolStore c'.ctrlBuf
    rw [hstore, emits_ctrl hem]
    exact h1
  · have hidle : Netchan.hasData o = true → buflen < sendHdrSize o := fun hd' =>
      by_contra fun hb => hd ⟨hd', hb⟩
    refine .inl ⟨?_, netchanSendNext_idle env hidle⟩
    rw [netchanSendNext, hasData_held h]
    cases hw : Netchan.hasData o with
    | false => rfl
    | true => exact if_pos (hidle hw)

/-- Either way it is `netchan_send_next` of `Conn` with other bytes behind the store. -/
theorem sendNext_held (h : Held L o) (env : Env) (buflen : Nat) :
    ∃ m, SameStore o.pool.poolStore m ∧
      netchanSendNext L env o buflen = some (Netchan.netchanSendNext env (o.patch m) buflen) ∧
      Held L (Netchan.netchanSendNext env (o.patch m) buflen).1 := by
  rcases sendNext_cases h env buflen with ⟨h1, h2⟩ | ⟨h1, h2, h3⟩
  · refine ⟨o.pool.poolStore, fun _ _ => rfl, ?_⟩
    show _ = some (Netchan.netchanSendNext env o buflen) ∧ Held L (Netchan.netchanSendNext env o buflen).1
    rw [h2]
    exact ⟨h1, h⟩
  · rw [flushed_held h] at h1 h2 h3
    rw [Conn.patch_store] at h2
    exact ⟨_, h2, h1, h3⟩

/-- **A step that sends nothing**: what `Conn` does, with the frames it queues written to memory. -/
theorem apply_queued (h : Held L o) (hfit : FramesFit o st)
    (hne : ∀ env buflen, st ≠ .sendNext env buflen) : ∃ m,
      SameStore (st.apply o).pool.poolStore m ∧ apply L o st = some ((st.apply o).patch m) ∧
        Held L ((st.apply o).patch m) := by
  have hshort : ∀ f ∈ requested o st, f.encode.length ≤ ncCtrlBufSize :=
    fun f hf => requested_short hf
  obtain ⟨m, h1, h2, h3⟩ := Holds.reserveFrames (h.behind (step_behind o hfit)) hshort
  have happ : apply L o st =
      (reserveFrames L (st.apply o).pool.poolStore (requested o st)).map (st.apply o).patch := by
    cases st with
    | sendNext env buflen => exact absurd rfl (hne env buflen)
    | _ => rfl
  refine ⟨m, h3, by rw [happ, h1, Option.map_some], ?_⟩
  show Holds L m (st.apply o).ctrlBuf
  rw [step_queue o hne]
  exact h2

/-- **A step of an object** that holds its queue is `Step.apply` with other bytes behind the store,
and the object holds its queue again. -/
theorem apply_held (h : Held L o) (hfit : FramesFit o st) : ∃ m m',
    SameStore o.pool.poolStore m ∧ SameStore (st.apply (o.patch m)).pool.poolStore m' ∧
      apply L o st = some ((st.apply (o.patch m)).patch m') ∧
      Held L ((st.apply (o.patch m)).patch m') := by
  by_cases hsend : ∃ env buflen, st = .sendNext env buflen
  · obtain ⟨env, buflen, rfl⟩ := hsend
    obtain ⟨m, h1, h2, h3⟩ := sendNext_held h env buflen
    exact ⟨m, _, h1, fun _ _ => rfl, by rw [apply, h2]; rfl, h3⟩
  · obtain ⟨m, h1, h2, h3⟩ := apply_queued h hfit fun env buflen he => hsend ⟨env, buflen, he⟩
    exact ⟨o.pool.poolStore, m, fun _ _ => rfl, h1, h2, h3⟩

theorem held_open (L : Layout) (server : Bool) : Held L (netchanOpen server) :=
  ⟨leVal_zeros 8, rfl, Nat.zero_le _⟩

/-- **The invariant rule for objects**: in a run whose messages fit in their buffers, what a step
keeps, whatever lies behind the store, holds of the object, and the object holds its queue. -/
theorem run_held {I : Conn → Prop} {A : Conn → Step → Prop} {sts : List Step}
    (hstep : ∀ c st m m', I c → A c st →
      apply L c st = some ((st.apply (c.patch m)).patch m') → I ((st.apply (c.patch m)).patch m'))
    (hh : Held L o) (hi : I o)
    (h : Lib.Along (step L) (fun o st => ∀ c ∈ o, FramesFit c st ∧ A c st) (some o) sts) :
    ∃ o', Lib.run (step L) (some o) sts = some o' ∧ Held L o' ∧ I o' := by
  refine run_invariant (I := fun o => ∃ c, o = some c ∧ Held L c ∧ I c) ?_
    ⟨o, rfl, hh, hi⟩ h
  rintro _ st ⟨c, rfl, hh, hi⟩ hst
  obtain ⟨hfit, ha⟩ := hst c rfl
  obtain ⟨m, m', -, -, he, hh'⟩ := apply_held hh hfit
  exact ⟨_, he, hh', hstep c st m m' hi ha he⟩

end Object

end

end Netchan
