import Netchan.Proof.Gather

/-!
# Fragmented messages

A message that is cut into fragments, from its first piece to the receive queue.

* `reassembly_needs_slot`: there are four slots, and only a completed message frees one, so lost
  fragments use them up.
* `old_duplicate_harmless`: a whole message is compared with `recv_seq`, a fragment is not, so one
  of a message that was delivered takes a slot again.
* `fragments_round_trip`: from `netchan_chan_write` over the DATA frames to the other end's queue.
-/

namespace Netchan

open Lib

/-! ## Cutting a message -/

/-- The number of pieces of a message. -/
def pieceCount (fp len : Nat) : Nat := (len + fp - 1) / fp

/-- The frames of a message, in index order. -/
def pieceFrames (fp : Nat) (id : ChanId) (seq : UInt16) (data : List UInt8) : List Frame :=
  (List.range (pieceCount fp data.length)).map
    (pieceFrame fp id seq (pieceCount fp data.length) data)

section
variable {fp : Nat} {data : List UInt8}

theorem cut_pieceCount (hfp : 0 < fp) (hsmall : data.length ≤ ncMaxMsg) :
    Cut fp data (pieceCount fp data.length) := by
  have hdiv := Nat.div_add_mod' (data.length + fp - 1) fp
  have hmod := Nat.mod_lt (data.length + fp - 1) hfp
  refine ⟨hsmall, by unfold pieceCount; omega, fun j hj => ?_⟩
  have := (Nat.le_div_iff_mul_le hfp).1 (Nat.succ_le_of_lt hj)
  rw [Nat.succ_mul] at this
  omega

theorem pieceCount_pos (hfp : 0 < fp) {len : Nat} (hpos : len ≠ 0) : 0 < pieceCount fp len :=
  Nat.div_pos (by omega) hfp

/-- The 8-bit count `netchan_chan_write` records is the number of pieces, unless they are more than
255. -/
theorem fragTotalOf_eq (hfp : 0 < fp) {len : Nat} (hpos : len ≠ 0)
    (hfew : pieceCount fp len < 2 ^ 8) : fragTotalOf fp len = pieceCount fp len := by
  have h0 := pieceCount_pos hfp hpos
  unfold fragTotalOf
  unfold pieceCount at hfew h0 ⊢
  dsimp only
  rw [Nat.mod_eq_of_lt hfew, if_neg (by omega)]

theorem pieceCount_le (h : 64 ≤ fp) {len : Nat} (hlen : len ≤ ncMaxMsg) :
    pieceCount fp len ≤ ncMaxFrags := by
  refine (Nat.div_le_iff_le_mul (by omega)).2 ?_
  simp only [ncMaxMsg, ncMaxFrags] at hlen ⊢
  omega

/-- **The frame of a fragment** carries its piece. -/
theorem nextData_piece {p : Pool} {o : Outgoing} (id : ChanId) (hbuf : p.read o.buf 0 o.len = data)
    (hcut : Cut fp data o.fragTotal) {i : Nat} (hi : i < o.fragTotal) :
    nextData p fp id { o with fragSent := i } = pieceFrame fp id o.seq o.fragTotal data i := by
  have hlen : o.len = data.length := by
    rw [← hbuf]
    simp [Pool.read]
  have hin := hcut.inside hi
  have htight := hcut.tight i hi
  have hsmall := hcut.small
  simp only [ncMaxMsg] at hsmall
  have hfrag : fragLen fp { o with fragSent := i } = (piece fp data i).length := by
    rw [length_piece]
    unfold fragLen sizeSub
    rw [hlen]
    dsimp only
    omega
  unfold nextData pieceFrame
  rw [hfrag]
  dsimp only
  have hread := Mem.read_inside p.poolStore (poolPtr o.buf) hin
  rw [Pool.read, Nat.add_zero, hlen] at hbuf
  rw [hbuf] at hread
  rw [Pool.read, hread]
  congr 1
  simp [piece]

end

/-- A channel that receives waits for a new message under `seq`, and has room for it. -/
structure Chan.Awaits (ch : Chan) (c : Conn) (seq : UInt16) : Prop where
  role : ch.role = .receiver
  next : ch.type ≠ .unreliable → seq = ch.rcv.recvSeq
  fresh : ∀ i, (ch.rcv.frags i).active = true → (ch.rcv.frags i).seq ≠ seq
  queue : ¬ ch.rcv.recvQueue.Full
  pool : 2 ≤ c.pool.poolFree.length

theorem Chan.Awaits.find {ch : Chan} {c : Conn} {seq : UInt16} (h : ch.Awaits c seq) :
    fragFind ch.rcv seq = none := by
  cases hf : fragFind ch.rcv seq with
  | none => rfl
  | some i =>
    obtain ⟨ha, hs⟩ := fragFind_spec hf
    exact absurd hs (h.fresh i ha)

/-- **Reassembly needs a free slot**: in every reachable state a new message of several fragments,
fed in index order, enters the queue exactly if one of the four slots is free and its fragments are
no more than a slot can count. -/
theorem reassembly_needs_slot {server : Bool} {sts : List Step} {c : Conn}
    (hrun : runConn server sts = c) {id : ChanId} {ch : Chan} (hc : c.channels id = some ch)
    {seq : UInt16} (hnew : ch.Awaits c seq) {data : List UInt8} (hsmall : data.length ≤ ncMaxMsg)
    (hmany : 1 < pieceCount (maxFragPayload c) data.length) (env : Env) :
    (∃ ms, queued (run (stepFrame env) c (pieceFrames (maxFragPayload c) id seq data)) id =
          queued c id ++ data :: ms ∧
        (ch.type = .unreliable → ms = []) ∧
        ms.Sublist ((c.rx ch).lined (ch.rcv.recvSeq + 1) (c.rx ch).behind)) ↔
      (∃ i, (ch.rcv.frags i).active = false) ∧
        pieceCount (maxFragPayload c) data.length ≤ ncMaxFrags := by
  have hok : (c.rx ch).Ok c id ch := by
    subst hrun
    exact rx_ok_run server sts hc
  have hfp : 0 < maxFragPayload c := by
    by_contra h0
    simp [pieceCount, Nat.eq_zero_of_not_pos h0] at hmany
  have hcut := cut_pieceCount hfp hsmall
  have hruns := run_pieces c id hnew.role env seq
    (pieceCount (maxFragPayload c) data.length) data
    (List.range (pieceCount (maxFragPayload c) data.length)) (c.rx ch)
  have hqueue := queued_withRx c id ch (c.rx ch)
  rw [withRx_self hc] at hruns hqueue
  rw [pieceFrames, hruns, queued_withRx, hqueue]
  generalize pieceCount (maxFragPayload c) data.length = total at *
  obtain ⟨n, rfl⟩ : ∃ n, total = n + 1 := ⟨total - 1, by omega⟩
  refine ⟨fun h => ?_, fun ⟨hslot, hfew⟩ => ?_⟩
  · -- without a slot nothing reaches the queue
    by_contra hno
    obtain ⟨ms, hms, -⟩ := h
    have hnone : fragSlot (c.rx ch) seq (n + 1) = none := by
      refine fragSlot_none.2 ⟨hnew.find, ?_⟩
      by_cases hfew : n + 1 ≤ ncMaxFrags
      · refine .inr (.inl fun i => ?_)
        by_contra hi
        exact hno ⟨⟨i, Bool.eq_false_iff.2 hi⟩, hfew⟩
      · exact .inl (by omega)
    rw [pieces_dropped hmany ch.type _ hnone] at hms
    simpa using congrArg List.length hms
  · have hlt : ∀ k ∈ List.range n, k < n + 1 := fun k hk => by
      have := List.mem_range.1 hk
      omega
    have hall : ∀ k < n + 1, k ∈ List.range n ++ [n] := fun k hk => by
      rw [← List.range_succ]
      exact List.mem_range.2 hk
    obtain ⟨-, i, ms, -, hq, hu, hsub, -⟩ := pieces_whole hok hcut hfp hmany hfew hnew.find hslot
      hnew.queue hnew.pool ch.type hnew.next hlt (Nat.lt_succ_self n) (by simp) hall
    rw [List.range_succ]
    exact ⟨ms, hq, hu, hsub⟩

instance (ch : Chan) (c : Conn) (seq : UInt16) : Decidable (ch.Awaits c seq) :=
  decidable_of_iff (ch.role = .receiver ∧ (ch.type ≠ .unreliable → seq = ch.rcv.recvSeq) ∧
      (∀ i, (ch.rcv.frags i).active = true → (ch.rcv.frags i).seq ≠ seq) ∧
      ¬ ch.rcv.recvQueue.Full ∧ 2 ≤ c.pool.poolFree.length)
    ⟨fun ⟨h1, h2, h3, h4, h5⟩ => ⟨h1, h2, h3, h4, h5⟩, fun h =>
      ⟨h.role, h.next, h.fresh, h.queue, h.pool⟩⟩

/-- A server with an unreliable channel it receives on, cut at 64 bytes, and the first fragments of
`n` messages whose second ones were lost. -/
def orphanSteps (n : Nat) : List Step :=
  [.config { netchanCfgDefault with mtu := 79 }, .frame { entropy := 9 } (.connectInit 7),
    .call .accept, .frame {} (.channelOpen 0 .unreliable .send [])] ++
  (List.range n).map fun k =>
    .frame {} (.data 0 (UInt16.ofNat k) 0 2 (List.replicate 64 (UInt8.ofNat k)))

/-- A message of two fragments there. -/
def twoPieces : List UInt8 := List.replicate 65 9

theorem reassembly_needs_slot_three :
    ∃ ch ms, (runConn true (orphanSteps 3)).channels 0 = some ch ∧
      queued (run (stepFrame {}) (runConn true (orphanSteps 3))
        (pieceFrames (maxFragPayload (runConn true (orphanSteps 3))) 0 3 twoPieces)) 0 =
      queued (runConn true (orphanSteps 3)) 0 ++ twoPieces :: ms := by
  obtain ⟨ch, hch⟩ : ∃ ch, (runConn true (orphanSteps 3)).channels 0 = some ch :=
    Option.isSome_iff_exists.1 (by decide +kernel)
  have hv : (((runConn true (orphanSteps 3)).channels 0).map fun ch =>
      (decide (ch.Awaits (runConn true (orphanSteps 3)) 3), (ch.rcv.frags 3).active)) =
      some (true, false) := by
    decide +kernel
  rw [hch, Option.map_some, Option.some_inj, Prod.mk.injEq] at hv
  have hsmall : twoPieces.length ≤ ncMaxMsg := by decide
  obtain ⟨ms, hms, -⟩ := (reassembly_needs_slot rfl hch (of_decide_eq_true hv.1) hsmall
    (by decide +kernel) {}).2 ⟨⟨3, hv.2⟩, by decide +kernel⟩
  exact ⟨ch, ms, hch, hms⟩

/-- **Four lost fragments**, and the channel takes no message of several fragments any more. -/
theorem orphans_wedge :
    (((runConn true (orphanSteps 4)).channels 0).map fun ch =>
      decide (ch.Awaits (runConn true (orphanSteps 4)) 4)) = some true ∧
    pieceCount (maxFragPayload (runConn true (orphanSteps 4))) twoPieces.length = 2 ∧
    queued (run (stepFrame {}) (runConn true (orphanSteps 4))
      (pieceFrames (maxFragPayload (runConn true (orphanSteps 4))) 0 4 twoPieces)) 0 = [] ∧
    ¬ ∃ ms, [] = queued (runConn true (orphanSteps 4)) 0 ++ twoPieces :: ms := by
  refine ⟨by decide +kernel, by decide +kernel, by decide +kernel, fun ⟨ms, h⟩ => ?_⟩
  simpa using congrArg List.length h

/-! ## Old fragments -/

/-- Some slot records a fragment that arrives under `seq`: the slot of that message, or a new
one. -/
def StoresFragment (fp : Nat) (x : Rx) (seq : UInt16) (idx total len : Nat) : Prop :=
  match fragFind x.rcv seq with
  | some i => (x.rcv.frags i).Takes fp idx len
  | none => total ≤ ncMaxFrags ∧ (∃ i, (x.rcv.frags i).active = false) ∧ x.pool.poolFree ≠ []

section
variable {c : Conn} {id : ChanId} {ch : Chan} {seq : UInt16} {idx total : Nat}
  {payload : List UInt8} {x : Rx} {fp : Nat}

theorem storesFragment_none (h : fragFind x.rcv seq = none) (len : Nat) :
    StoresFragment fp x seq idx total len ↔ fragSlot x seq total ≠ none := by
  rw [StoresFragment, h]
  simp only [ne_eq, fragSlot_none, h, true_and, not_or, Nat.not_lt, not_forall, Bool.not_eq_true]

theorem dataArrived_old (hold : int16 (seq - x.rcv.recvSeq) < 0) (data : List UInt8) :
    dataArrived id x seq data = x := by
  unfold dataArrived
  rw [if_neg]
  · unfold reorderStore
    dsimp only
    rw [if_neg (fun h => by omega)]
  · intro h
    rw [h, UInt16.sub_self] at hold
    exact absurd hold (by decide)

/-- An old fragment that no slot records changes nothing. -/
theorem dataReliable_old (hold : int16 (seq - x.rcv.recvSeq) < 0)
    (h : total ≤ 1 ∨ ¬ StoresFragment fp x seq idx total payload.length) :
    dataReliable fp id x seq idx total payload = x := by
  unfold dataReliable
  by_cases ht : total ≤ 1
  · rw [if_pos ht]
    exact dataArrived_old hold payload
  · rw [if_neg ht]
    have hno := h.resolve_left ht
    have hs : fragStore fp x seq idx total payload = (x, none) := by
      rcases fragStore_cases fp x seq idx total payload with ⟨-, he⟩ | ⟨i, x', hslot, h'⟩
      · exact he
      cases hf : fragFind x.rcv seq with
      | none => exact absurd ((storesFragment_none hf _).2 (by simp [hslot])) hno
      | some k =>
        rw [fragSlot, hf] at hslot
        cases hslot
        rw [StoresFragment, hf] at hno
        rcases h' with ⟨-, he⟩ | ⟨htakes, -⟩
        · exact he
        · exact absurd htakes hno
    rw [hs]

theorem dataReliable_kept (id : ChanId) (ht : 1 < total)
    (h : StoresFragment fp x seq idx total payload.length) :
    (dataReliable fp id x seq idx total payload).rcv.frags ≠ x.rcv.frags := by
  unfold dataReliable
  rw [if_neg (Nat.not_le.2 ht)]
  have hput (y : Rx) (i : Fin ncFragSlots) : (fragPut fp y i idx payload).rcv.frags i =
      (y.rcv.frags i).add idx payload.length := by simp [fragPut]
  have hfree (y : Rx) (i : Fin ncFragSlots) (ha : (x.rcv.frags i).active = true) :
      (fragFree y i).rcv.frags ≠ x.rcv.frags := by
    intro he
    have := congrFun he i
    simp only [fragFree, Function.update_self] at this
    rw [← this] at ha
    cases ha
  rcases fragStore_cases fp x seq idx total payload with ⟨hslot, -⟩ | ⟨i, x', hslot, h'⟩
  · -- there is a slot
    cases hf : fragFind x.rcv seq with
    | none => exact absurd hslot ((storesFragment_none hf _).1 h)
    | some k =>
      rw [fragSlot, hf] at hslot
      cases hslot
  cases hf : fragFind x.rcv seq with
  | some k =>
    rw [fragSlot, hf] at hslot
    cases hslot
    rw [StoresFragment, hf] at h
    rcases h' with ⟨hno, -⟩ | ⟨-, ⟨-, he⟩ | ⟨-, he⟩⟩
    · exact absurd h hno
    · rw [he]
      intro heq
      have hgot := congrArg FragAsm.got ((hput _ _).symm.trans (congrFun heq _))
      simp only [FragAsm.add] at hgot
      omega
    · rw [he]
      exact hfree _ _ (fragFind_spec hf).1
  | none =>
    -- a free slot was taken, and one fragment does not complete it
    rcases fragSlot_cases hslot with ⟨-, ha, hs⟩ | ⟨b, p, -, hidle, -, -, hx'⟩
    · have hnot := List.find?_eq_none.1 hf i (List.mem_finRange i)
      simp [ha, hs] at hnot
    have hact : (x'.rcv.frags i).active = true := by rw [hx']; simp
    have hgot : (x'.rcv.frags i).got = 0 ∧ (x'.rcv.frags i).total = total := by
      rw [hx']
      simp
    have hne {y : Rx} (hy : (y.rcv.frags i).active = true) : y.rcv.frags ≠ x.rcv.frags := by
      intro he
      rw [he, hidle] at hy
      cases hy
    rcases h' with ⟨-, he⟩ | ⟨-, ⟨-, he⟩ | ⟨hdone, -⟩⟩
    · rw [he]
      exact hne hact
    · rw [he]
      exact hne (by rw [hput]; exact hact)
    · have : (x'.rcv.frags i).got + 1 = (x'.rcv.frags i).total := hdone
      omega

/-- **An old duplicate on a reliable channel** leaves the connection as it was, but for the pending
acknowledgement, exactly if it is not a fragment that some slot records. -/
theorem old_duplicate_harmless (hc : c.channels id = some ch) (hr : ch.role = .receiver)
    (ht : ch.type ≠ .unreliable) (hold : int16 (seq - ch.rcv.recvSeq) < 0) :
    (∃ a, dataReceived c id seq idx total payload =
      c.setChan id { ch with rcv := { ch.rcv with needAck := true, ackSeq := a } }) ↔
    total ≤ 1 ∨ ¬ StoresFragment (maxFragPayload c) (c.rx ch) seq idx total payload.length := by
  have hdata := dataReceived_withRx c id hr (c.rx ch) seq idx total payload
  rw [withRx_self hc, Rx.data, if_neg ht] at hdata
  rw [hdata]
  refine ⟨fun ⟨a, ha⟩ => ?_, fun h => ?_⟩
  · by_contra hno
    push Not at hno
    have hkept := dataReliable_kept (x := c.rx ch) id hno.1 hno.2
    have hch := congrArg (fun c : Conn => (c.channels id).map fun ch => ch.rcv.frags) ha
    simp only [Conn.withRx, Conn.setChan, Table.set_same, Option.map_some, Option.some_inj] at hch
    exact hkept hch
  · rw [dataReliable_old (x := c.rx ch) hold h]
    exact ⟨ackFor ch.rcv.recvSeq, rfl⟩

end

/-- The server of `listenSteps` after it got a message. -/
def deliveredSteps : List Step := listenSteps ++ [.frame {} (.data 0 0 0 1 [1])]

theorem old_duplicate_harmless_whole : ∃ ch a,
    (runConn true deliveredSteps).channels 0 = some ch ∧
      dataReceived (runConn true deliveredSteps) 0 0 0 1 [1] =
        (runConn true deliveredSteps).setChan 0
          { ch with rcv := { ch.rcv with needAck := true, ackSeq := a } } := by
  obtain ⟨ch, hch⟩ : ∃ ch, (runConn true deliveredSteps).channels 0 = some ch :=
    Option.isSome_iff_exists.1 (by decide +kernel)
  have hv : (((runConn true deliveredSteps).channels 0).map fun ch =>
      (ch.role, ch.type, ch.rcv.recvSeq)) = some (.receiver, .reliable, 1) := by
    decide +kernel
  rw [hch, Option.map_some, Option.some_inj, Prod.mk.injEq, Prod.mk.injEq] at hv
  obtain ⟨a, ha⟩ : ∃ a, dataReceived (runConn true deliveredSteps) 0 0 0 1 [1] = _ :=
    (old_duplicate_harmless hch hv.1 (by rw [hv.2.1]; decide) (by rw [hv.2.2]; decide)).2
      (.inl (Nat.le_refl 1))
  exact ⟨ch, a, hch, ha⟩

/-- **A stray fragment of a message that was delivered** takes a slot and a buffer. -/
theorem stray_takes_slot :
    (((runConn true deliveredSteps).channels 0).map fun ch =>
      (ch.role, ch.type, decide (int16 (0 - ch.rcv.recvSeq) < 0), (ch.rcv.frags 0).active)) =
      some (.receiver, .reliable, true, false) ∧
    ((dataReceived (runConn true deliveredSteps) 0 0 0 2 [1]).channels 0).map
      (fun ch => (ch.rcv.frags 0).active) = some true ∧
    (dataReceived (runConn true deliveredSteps) 0 0 0 2 [1]).pool.poolFree.length + 1 =
      (runConn true deliveredSteps).pool.poolFree.length := by
  decide +kernel

/-! ## From the sender's slot to the receiver's queue -/

/-- The connection after `process_data` got the fragments `is` of the message in the sender's slot
`o`, as `netchan_send_next` writes them. -/
def fedFragments (c : Conn) (p : Pool) (fp : Nat) (id : ChanId) (o : Outgoing) (is : List Nat) :
    Conn :=
  is.foldl (fun c i => (processData c (dataFrame p fp id { o with fragSent := i })).2) c

theorem processData_encode (env : Env) (c : Conn) (id : ChanId) (seq : UInt16) {idx total : Nat}
    {payload : List UInt8} (hf : (Frame.data id seq idx total payload).Fits) :
    (processData c (Frame.data id seq idx total payload).encode).2 =
      stepFrame env c (.data id seq idx total payload) := by
  have hd := decodeFrame_encode hf []
  rw [List.append_nil] at hd
  have hframe : decodeFrame (Frame.data id seq idx total payload).encode =
      decodeData (Frame.data id seq idx total payload).encode := rfl
  rw [processData_eq env, ← hframe, hd]
  rfl

theorem fedFragments_eq {p : Pool} {fp : Nat} {o : Outgoing} {data : List UInt8} (env : Env)
    (id : ChanId) (hbuf : p.read o.buf 0 o.len = data) (hcut : Cut fp data o.fragTotal)
    (hfew : o.fragTotal ≤ ncMaxFrags) {is : List Nat} (his : ∀ i ∈ is, i < o.fragTotal) :
    ∀ c, fedFragments c p fp id o is =
      run (stepFrame env) c (is.map (pieceFrame fp id o.seq o.fragTotal data)) := by
  induction is with
  | nil => exact fun _ => rfl
  | cons i is ih =>
    intro c
    have hi := his i (.head _)
    have hin := hcut.inside hi
    have hsmall := hcut.small
    have hstep : (processData c (dataFrame p fp id { o with fragSent := i })).2 =
        stepFrame env c (pieceFrame fp id o.seq o.fragTotal data i) := by
      rw [dataFrame_eq, nextData_piece id hbuf hcut hi]
      refine processData_encode env c id o.seq ⟨?_, ?_, ?_⟩
      · simp only [ncMaxFrags] at hfew
        omega
      · simp only [ncMaxFrags] at hfew
        omega
      · simp only [ncMaxMsg] at hsmall
        omega
    rw [List.map_cons, run_cons, ← hstep]
    exact ih (fun k hk => his k (.tail _ hk)) _

/-- **A message that fits one fragment** enters the queue at once. -/
theorem piece_whole {c : Conn} {id : ChanId} {ch : Chan} {x0 : Rx} {fp : Nat} {data : List UInt8}
    {seq : UInt16} (hok : x0.Ok c id ch) (hcut : Cut fp data 1) (hfull : ¬ x0.rcv.recvQueue.Full)
    (hpool : x0.pool.poolFree ≠ []) {type : ChanType} (htype : type = .reliable)
    (hseq : seq = x0.rcv.recvSeq) :
    ∃ ms, (x0.pieces fp type id seq 1 data [0]).queue = x0.queue ++ data :: ms ∧
      ms.Sublist (x0.lined (x0.rcv.recvSeq + 1) x0.behind) ∧
      (x0.pieces fp type id seq 1 data [0]).rcv.frags = x0.rcv.frags := by
  have hpiece : piece fp data 0 = data := by
    have hcovers := hcut.covers
    simp only [piece, Nat.zero_mul, List.drop_zero]
    exact List.take_of_length_le (by omega)
  have hx : x0.pieces fp type id seq 1 data [0] = { dataArrived id x0 seq data with
      rcv := (dataArrived id x0 seq data).rcv.ack } := by
    simp only [Rx.pieces, List.foldl_cons, List.foldl_nil, Rx.data, htype, hpiece, dataReliable]
    rfl
  rw [hx]
  obtain ⟨⟨l, hd, -, -, hms⟩, -⟩ := dataArrived_passed data hok hseq
  obtain ⟨ms, rfl, hsub⟩ := hms ⟨hfull, hcut.small, hpool⟩
  exact ⟨ms, hd.queue, hsub, hd.frags⟩

/-- The slots are free or in use as before, and those in use are unchanged. -/
def SlotsKept (r r' : Receiver) : Prop :=
  ∀ k, (r'.frags k).active = (r.frags k).active ∧
    ((r.frags k).active = true → r'.frags k = r.frags k)

/-- **Any message on a reliable channel**, of one piece or of many. -/
theorem pieces_reliable {c : Conn} {id : ChanId} {ch : Chan} {x0 : Rx} {fp total : Nat}
    {data : List UInt8} {seq : UInt16} {is : List Nat} {last : Nat} (hok : x0.Ok c id ch)
    (hcut : Cut fp data total) (hfp : 0 < fp) (hfew : total ≤ ncMaxFrags)
    (hnew : fragFind x0.rcv seq = none) (hslot : ∃ i, (x0.rcv.frags i).active = false)
    (hfull : ¬ x0.rcv.recvQueue.Full) (hpool : 2 ≤ x0.pool.poolFree.length) {type : ChanType}
    (htype : type = .reliable) (hseq : seq = x0.rcv.recvSeq) (hlt : ∀ k ∈ is ++ [last], k < total)
    (hall : ∀ k < total, k ∈ is ++ [last]) (hlast : last ∉ is) :
    (x0.pieces fp type id seq total data is).queue = x0.queue ∧
    ∃ ms, (x0.pieces fp type id seq total data (is ++ [last])).queue = x0.queue ++ data :: ms ∧
      ms.Sublist (x0.lined (x0.rcv.recvSeq + 1) x0.behind) ∧
      SlotsKept x0.rcv (x0.pieces fp type id seq total data (is ++ [last])).rcv := by
  have hl := hlt last (by simp)
  by_cases hone : total = 1
  · subst hone
    have h0 : last = 0 := by omega
    have his : is = [] := by
      refine List.eq_nil_iff_forall_not_mem.2 fun k hk => hlast ?_
      have := hlt k (List.mem_append_left _ hk)
      rw [h0, ← show k = 0 by omega]
      exact hk
    rw [his, h0]
    obtain ⟨ms, hq, hsub, hf⟩ := piece_whole hok hcut hfull (List.ne_nil_of_length_pos (by omega))
      htype hseq
    exact ⟨rfl, ms, hq, hsub, fun k => by simp only [List.nil_append, hf, implies_true, and_self]⟩
  · obtain ⟨hq0, i, ms, hidle, hq, -, hsub, hf⟩ := pieces_whole hok hcut hfp (by omega) hfew hnew
      hslot hfull hpool type (fun _ => hseq) (fun k hk => hlt k (List.mem_append_left _ hk)) hl
      hlast hall
    refine ⟨hq0, ms, hq, hsub, fun k => ?_⟩
    rw [hf]
    by_cases hk : k = i
    · subst hk
      simp [hidle]
    · simp [Function.update_of_ne hk]

/-- The message `netchan_chan_write` puts into the slot at `out_tail`. -/
def writtenSlot (a : Conn) (cha : Chan) (b : BufIdx) (data : List UInt8) : Outgoing :=
  (writtenChan a cha b data).snd.outgoing cha.snd.outTail

/-- **Fragmentation round trip**: a message of 1 to 2048 bytes is written on one end, and its
fragments reach a reliable channel of the other in any order, `is` with repetitions and then the
last missing one. Until then nothing enters the queue; then the message does, followed only by what
already waited behind it, and the slot is free again. -/
theorem fragments_round_trip {server : Bool} {sts : List Step} {c a : Conn}
    (hrun : runConn server sts = c) {id : ChanId} {ch cha : Chan} (hc : c.channels id = some ch)
    (htype : ch.type = .reliable) (hm : 79 ≤ c.cfg.mtu.toNat) (hmtu : a.cfg.mtu = c.cfg.mtu)
    {b : BufIdx} {p : Pool} {data : List UInt8} (hw : CanWrite a id data cha b p)
    (hnew : ch.Awaits c cha.snd.sendSeq) (hslot : ∃ i, (ch.rcv.frags i).active = false)
    {is : List Nat} {last : Nat}
    (hlt : ∀ i ∈ is ++ [last], i < pieceCount (c.cfg.mtu.toNat - 15) data.length)
    (hall : ∀ i < pieceCount (c.cfg.mtu.toNat - 15) data.length, i ∈ is ++ [last])
    (hlast : last ∉ is) :
    (pieceCount (c.cfg.mtu.toNat - 15) data.length ≤ ncMaxFrags ∧ writeAccepted a id data = true ∧
      (netchanChanWrite a id data).2.channels id = some (writtenChan a cha b data) ∧
      (writtenSlot a cha b data).fragTotal = pieceCount (c.cfg.mtu.toNat - 15) data.length ∧
      ∀ i < (writtenSlot a cha b data).fragTotal,
        dataFrame (netchanChanWrite a id data).2.pool (maxFragPayload a) id
            { writtenSlot a cha b data with fragSent := i } =
          (pieceFrame (c.cfg.mtu.toNat - 15) id cha.snd.sendSeq
            (writtenSlot a cha b data).fragTotal data i).encode) ∧
    queued (fedFragments c (netchanChanWrite a id data).2.pool (maxFragPayload a) id
      (writtenSlot a cha b data) is) id = queued c id ∧
    ∃ ch' ms, (fedFragments c (netchanChanWrite a id data).2.pool (maxFragPayload a) id
        (writtenSlot a cha b data) (is ++ [last])).channels id = some ch' ∧
      queued (fedFragments c (netchanChanWrite a id data).2.pool (maxFragPayload a) id
        (writtenSlot a cha b data) (is ++ [last])) id = queued c id ++ data :: ms ∧
      ms.Sublist ((c.rx ch).lined (ch.rcv.recvSeq + 1) (c.rx ch).behind) ∧
      SlotsKept ch.rcv ch'.rcv := by
  have hok : (c.rx ch).Ok c id ch := by
    subst hrun
    exact rx_ok_run server sts hc
  have hfp : maxFragPayload c = c.cfg.mtu.toNat - 15 := maxFragPayload_eq (by omega)
  have hfpa : maxFragPayload a = maxFragPayload c := by
    unfold maxFragPayload
    rw [hmtu]
  rw [hfpa]
  rw [← hfp] at hlt hall ⊢
  have h64 : 64 ≤ maxFragPayload c := by omega
  have hfew := pieceCount_le h64 hw.small
  have hcut := cut_pieceCount (Nat.lt_of_lt_of_le (by decide) h64) hw.small
  have hcount : fragTotalOf (maxFragPayload a) data.length =
      pieceCount (maxFragPayload c) data.length := by
    rw [hfpa]
    exact fragTotalOf_eq (by omega) hw.pos (by simp only [ncMaxFrags] at hfew; omega)
  have hwrite := netchanChanWrite_taken hw (by rw [hcount]; exact hfew)
  -- what the write leaves on the sender's side
  obtain ⟨hseq, htotal, hbuf⟩ : (writtenSlot a cha b data).seq = cha.snd.sendSeq ∧
      (writtenSlot a cha b data).fragTotal = pieceCount (maxFragPayload c) data.length ∧
      (netchanChanWrite a id data).2.pool.read (writtenSlot a cha b data).buf 0
        (writtenSlot a cha b data).len = data := by
    rw [hwrite, ← hcount]
    simp only [writtenSlot, writtenChan, Function.update_self]
    exact ⟨trivial, trivial, read_write_self p b data⟩
  have hacc : writeAccepted a id data = true := by
    unfold writeAccepted
    rw [hwrite]
    simpa using hw.pos
  have hchan : (netchanChanWrite a id data).2.channels id = some (writtenChan a cha b data) := by
    rw [hwrite]
    exact Table.set_same ..
  generalize writtenSlot a cha b data = o at *
  generalize (netchanChanWrite a id data).2.pool = q at *
  rw [← htotal] at hcut hfew hlt hall ⊢
  have hfed (js : List Nat) (hjs : ∀ i ∈ js, i < o.fragTotal) :
      fedFragments c q (maxFragPayload c) id o js = c.withRx id ch
        ((c.rx ch).pieces (maxFragPayload c) ch.type id o.seq o.fragTotal data js) := by
    rw [fedFragments_eq {} id hbuf hcut hfew hjs c]
    conv_lhs => rw [← withRx_self hc]
    exact run_pieces c id hnew.role {} o.seq o.fragTotal data js (c.rx ch)
  have hqueue := queued_withRx c id ch (c.rx ch)
  rw [withRx_self hc] at hqueue
  refine ⟨⟨hfew, hacc, hchan, rfl, fun i hi => ?_⟩, ?_⟩
  · rw [dataFrame_eq, nextData_piece id hbuf hcut hi, hseq]
  rw [hfed is fun i hi => hlt i (List.mem_append_left _ hi), hfed _ hlt, queued_withRx,
    queued_withRx, hqueue]
  rw [← hseq] at hnew
  obtain ⟨hq0, ms, hq, hsub, hf⟩ := pieces_reliable hok hcut (by omega) hfew hnew.find hslot
    hnew.queue hnew.pool htype (hnew.next (by rw [htype]; decide)) hlt hall hlast
  exact ⟨hq0, _, ms, Table.set_same .., hq, hsub, hf⟩

/-- The server of `listenSteps`, cut at 64 bytes. -/
def smallListenSteps : List Step := .config { netchanCfgDefault with mtu := 79 } :: listenSteps

/-- A client that opened a channel for sending, cut at 64 bytes. -/
def smallClientSteps : List Step :=
  [.config { netchanCfgDefault with mtu := 79 }, .call (.connect { entropy := 7 } [1]),
    .frame {} (.connectAccept 9 ncVersion 30000), .call (.chanOpen .reliable .send [])]

theorem fragments_round_trip_two : ∃ cha b p ch' ms,
    CanWrite (runConn false smallClientSteps) 0 twoPieces cha b p ∧
    (fedFragments (runConn true smallListenSteps)
      (netchanChanWrite (runConn false smallClientSteps) 0 twoPieces).2.pool
      (maxFragPayload (runConn false smallClientSteps)) 0
      (writtenSlot (runConn false smallClientSteps) cha b twoPieces) ([1, 1] ++ [0])).channels 0 =
        some ch' ∧
    queued (fedFragments (runConn true smallListenSteps)
      (netchanChanWrite (runConn false smallClientSteps) 0 twoPieces).2.pool
      (maxFragPayload (runConn false smallClientSteps)) 0
      (writtenSlot (runConn false smallClientSteps) cha b twoPieces) ([1, 1] ++ [0])) 0 =
        queued (runConn true smallListenSteps) 0 ++ twoPieces :: ms := by
  obtain ⟨ch, hch⟩ : ∃ ch, (runConn true smallListenSteps).channels 0 = some ch :=
    Option.isSome_iff_exists.1 (by decide +kernel)
  obtain ⟨cha, hcha⟩ : ∃ cha, (runConn false smallClientSteps).channels 0 = some cha :=
    Option.isSome_iff_exists.1 (by decide +kernel)
  obtain ⟨b, hb⟩ : ∃ b, (poolGet (runConn false smallClientSteps).pool).1 = some b :=
    Option.isSome_iff_exists.1 (by decide +kernel)
  have hv : (((runConn true smallListenSteps).channels 0).map fun ch => (ch.type,
      decide (ch.Awaits (runConn true smallListenSteps) 0), (ch.rcv.frags 3).active)) =
      some (.reliable, true, false) := by
    decide +kernel
  have hva : (((runConn false smallClientSteps).channels 0).map fun ch => (ch.role, ch.state,
      ch.snd.sendSeq, decide (ch.snd.outTail + 1 = ch.snd.outHead))) =
      some (.sender, .opening, 0, false) := by
    decide +kernel
  rw [hch, Option.map_some, Option.some_inj, Prod.mk.injEq, Prod.mk.injEq] at hv
  rw [hcha, Option.map_some, Option.some_inj, Prod.mk.injEq, Prod.mk.injEq, Prod.mk.injEq] at hva
  obtain ⟨hrole, hstate, hseq, hroom⟩ := hva
  have hw : CanWrite (runConn false smallClientSteps) 0 twoPieces cha b
      (poolGet (runConn false smallClientSteps).pool).2 :=
    ⟨hcha, hrole, by rw [hstate]; decide, by decide, by decide, by rw [hstate]; simp,
      of_decide_eq_false hroom, Prod.ext hb rfl⟩
  have hlt : ∀ i ∈ [1, 1] ++ [0],
      i < pieceCount ((runConn true smallListenSteps).cfg.mtu.toNat - 15) twoPieces.length := by
    decide +kernel
  obtain ⟨-, -, ch', ms, hc', hq, -⟩ := fragments_round_trip rfl hch hv.1 (by decide +kernel)
    (by decide +kernel) hw (by rw [hseq]; exact of_decide_eq_true hv.2.1) ⟨3, hv.2.2⟩ hlt
    (by decide +kernel) (by decide)
  exact ⟨cha, b, _, ch', ms, hw, hc', hq⟩

end Netchan
