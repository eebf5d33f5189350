import Netchan.Proof.Change

/-!
# What happens to a channel

`ChanCall c id ch k ch'` and `ChanFrame c id ch f ch'` list everything a call and a frame can do to
the channel at `id`, with the guards that lead there. `call_effect` and `frame_effect`: a channel
that is in the table afterwards is new, or it was there and is as they say.
-/

namespace Netchan

open Lib

/-- The channel a call is about. -/
def Call.chan : Call → Option ChanId
  | .chanClose id => some id
  | .write id _ => some id
  | .read id _ => some id
  | _ => none

/-- The channel a frame is about. -/
def Frame.chan : Frame → Option ChanId
  | .channelOpen id _ _ _ => some id
  | .channelClose id _ => some id
  | .data id _ _ _ _ => some id
  | .ack id _ => some id
  | .windowUpdate id _ => some id
  | _ => none

inductive ChanCall (c : Conn) (id : ChanId) (ch : Chan) : Call → Chan → Prop
  | other {k : Call} (h : k.chan ≠ some id) (hs : ∀ env now, k ≠ .service env now) :
      ChanCall c id ch k ch
  | gaveUp {env : Env} {now : UInt32} (h : GivesUp c now) : ChanCall c id ch (.service env now) ch
  | timed {env : Env} {now : UInt32} (h : ¬ GivesUp c now) :
      ChanCall c id ch (.service env now) (chanTimed c.cfg now ch)
  | unclosed (h : ch.state = .closing ∨ ch.state = .closed) : ChanCall c id ch (.chanClose id) ch
  | closing (h : ¬ (ch.state = .closing ∨ ch.state = .closed)) :
      ChanCall c id ch (.chanClose id) { ch with state := .closing }
  | unread {buflen : Nat} (h : ch.role = .receiver → ch.rcv.recvQueue.Empty) :
      ChanCall c id ch (.read id buflen) ch
  | read {buflen : Nat} (hr : ch.role = .receiver) (hq : ¬ ch.rcv.recvQueue.Empty) :
      ChanCall c id ch (.read id buflen) { ch with rcv := readRcv ch.rcv buflen }
  | unwritten {data : List UInt8} (h : writeAccepted c id data = false) :
      ChanCall c id ch (.write id data) ch
  | written {data : List UInt8} {b : BufIdx} {p : Pool} (hw : CanWrite c id data ch b p)
      (hf : fragTotalOf (maxFragPayload c) data.length ≤ ncMaxFrags)
      (ha : writeAccepted c id data = true) :
      ChanCall c id ch (.write id data) (writtenChan c ch b data)
  | skipped {data : List UInt8} {b : BufIdx} {p : Pool} (hw : CanWrite c id data ch b p)
      (hf : ¬ fragTotalOf (maxFragPayload c) data.length ≤ ncMaxFrags)
      (ha : writeAccepted c id data = false) :
      ChanCall c id ch (.write id data) (skippedChan ch)

/-- The sender state after an acknowledgement. -/
@[irreducible] def ackedSnd (p : Pool) (s : Sender) (acked : UInt16) : Sender :=
  outAdvance ncOutgoingSlots ((List.finRange ncOutgoingSlots).foldl (ackSlot acked) (p, s)).2

inductive ChanFrame (c : Conn) (id : ChanId) (ch : Chan) : Frame → Chan → Prop
  | other {f : Frame} (h : f.chan ≠ some id) : ChanFrame c id ch f ch
  | refused {type : ChanType} {dir : Dir} {ct : List UInt8} :
      ChanFrame c id ch (.channelOpen id type dir ct) ch
  | closed {error : UInt16} : ChanFrame c id ch (.channelClose id error) { ch with state := .closed }
  | ignored {f : Frame} (h : match f with
      | .data _ _ _ _ _ => ch.role ≠ .receiver
      | .ack _ _ | .windowUpdate _ _ => ch.role ≠ .sender
      | _ => False) : ChanFrame c id ch f ch
  | data {seq : UInt16} {idx total : Nat} {payload : List UInt8} (hr : ch.role = .receiver) :
      ChanFrame c id ch (.data id seq idx total payload)
        { ch with rcv := dataRcv c id ch seq idx total payload }
  | ack {seq : UInt16} (hr : ch.role = .sender) :
      ChanFrame c id ch (.ack id seq) { ch with snd := ackedSnd c.pool ch.snd seq }
  | window {w : UInt32} (hr : ch.role = .sender) :
      ChanFrame c id ch (.windowUpdate id w)
        { ch with snd := { ch.snd with sendWindow := w }
                  state := if ch.state = .opening then .opened else ch.state }

/-- A channel as it is created. -/
structure Created (c : Conn) (id : ChanId) (ch : Chan) : Prop where
  id : ch.id = id
  snd : ch.snd = {}
  rcv : ch.rcv = { recvWindow := c.cfg.chanWindow }
  state : ch.state ≠ .closing ∧ ch.state ≠ .closed

/-- Every channel of `c'` is new, or it is a channel of `c` and `Q` relates the two; and `c'` has
every channel of `c`. -/
def ChanKept (c c' : Conn) (id : ChanId) (Q : Chan → Chan → Prop) : Prop :=
  (c'.channels id = none → c.channels id = none) ∧
  ∀ ch', c'.channels id = some ch' →
    (c.channels id = none ∧ Created c id ch') ∨ ∃ ch, c.channels id = some ch ∧ Q ch ch'

section
variable {c c' : Conn} {id j : ChanId} {Q : Chan → Chan → Prop}

theorem ChanKept.chan {ch : Chan} (h : ChanKept c c' id Q) (hc : c.channels id = some ch) :
    ∃ ch', c'.channels id = some ch' ∧ Q ch ch' := by
  cases hc' : c'.channels id with
  | none =>
    rw [h.1 hc'] at hc
    cases hc
  | some ch' =>
    rcases h.2 ch' hc' with ⟨hn, -⟩ | ⟨ch0, hc0, hq⟩
    · rw [hn] at hc
      cases hc
    · rw [hc] at hc0
      cases hc0
      exact ⟨ch', rfl, hq⟩

theorem chanKept_congr (h : c'.channels = c.channels)
    (hQ : ∀ ch, c.channels id = some ch → Q ch ch) : ChanKept c c' id Q := by
  refine ⟨fun hn => h ▸ hn, fun ch' hc' => ?_⟩
  rw [h] at hc'
  exact .inr ⟨ch', hc', hQ ch' hc'⟩

theorem chanKept_set {ch e : Chan} (hc : c.channels j = some ch)
    (ht : c'.channels = Table.set c.channels j e) (hself : id = j → Q ch e)
    (hother : id ≠ j → ∀ d, c.channels id = some d → Q d d) : ChanKept c c' id Q := by
  by_cases he : id = j
  · subst he
    refine ⟨fun hn => ?_, fun d hd => ?_⟩
    · rw [ht, Table.set_same] at hn
      cases hn
    · rw [ht, Table.set_same] at hd
      cases hd
      exact .inr ⟨ch, hc, hself rfl⟩
  · refine ⟨fun hn => ?_, fun d hd => ?_⟩
    · rwa [ht, Table.set_of_ne _ he] at hn
    · rw [ht, Table.set_of_ne _ he] at hd
      exact .inr ⟨d, hd, hother he d hd⟩

theorem chanKept_create {e : Chan} (hc : c.channels j = none) (hnew : Created c j e)
    (ht : c'.channels = Table.set c.channels j e) (hQ : ∀ ch, id ≠ j → Q ch ch) :
    ChanKept c c' id Q := by
  by_cases he : id = j
  · subst he
    refine ⟨fun _ => hc, fun d hd => ?_⟩
    rw [ht, Table.set_same] at hd
    cases hd
    exact .inl ⟨hc, hnew⟩
  · refine ⟨fun hn => ?_, fun d hd => ?_⟩
    · rwa [ht, Table.set_of_ne _ he] at hn
    · rw [ht, Table.set_of_ne _ he] at hd
      exact .inr ⟨d, hd, hQ d he⟩

end

/-- **What a call does to a channel.** -/
theorem call_effect (c : Conn) (k : Call) (id : ChanId) :
    ChanKept c (k.apply c) id fun ch ch' => ChanCall c id ch k ch' := by
  by_cases hs : k.Session
  · refine chanKept_congr (apply_session c hs).1 fun ch _ => .other ?_ ?_
    · cases k <;> simp_all [Call.Session, Call.chan]
    · rintro env now rfl
      exact hs
  cases k with
  | service env now =>
    rcases netchanService_cases env c now with ⟨hg, he⟩ | ⟨hg, n, he⟩
    · exact chanKept_congr (by simp only [Call.apply, he]; rfl) fun ch _ => .gaveUp hg
    · have ht : (Call.apply c (.service env now)).channels =
          fun id => (c.channels id).map (chanTimed c.cfg now) := by
        simp only [Call.apply, he, serviceChans_allIds]
      refine ⟨fun hn => ?_, fun ch' hc' => ?_⟩
      · rw [ht] at hn
        exact Option.map_eq_none_iff.1 hn
      · rw [ht] at hc'
        obtain ⟨ch, hc, rfl⟩ := Option.map_eq_some_iff.1 hc'
        exact .inr ⟨ch, hc, .timed hg⟩
  | chanOpen type dir ct =>
    have hk : ∀ ch, ChanCall c id ch (.chanOpen type dir ct) ch :=
      fun ch => .other (by simp [Call.chan]) (by simp)
    have ho := netchanChanOpen_eq c type dir ct
    simp only [Call.apply]
    split at ho
    · rw [ho]
      exact chanKept_congr rfl fun ch _ => hk ch
    split at ho
    · rw [ho]
      exact chanKept_congr rfl fun ch _ => hk ch
    · rename_i hg _
      rw [not_or] at hg
      rw [ho]
      refine chanKept_create (Option.not_isSome_iff_eq_none.1 hg.2)
        (e := createdChan c type dir ct) ⟨rfl, rfl, rfl, ?_⟩ rfl fun ch _ => hk ch
      simp only [createdChan]
      split <;> simp
  | chanClose j =>
    have hk : ∀ ch, id ≠ j → ChanCall c id ch (.chanClose j) ch := by
      intro ch hne
      exact .other (by simpa [Call.chan] using Ne.symm hne) (by simp)
    simp only [Call.apply, netchanChanClose]
    split
    · rename_i hn
      refine chanKept_congr rfl fun ch hc => hk ch ?_
      rintro rfl
      rw [hn] at hc
      cases hc
    · rename_i ch hc
      split
      · rename_i hst
        refine chanKept_congr rfl fun d hd => ?_
        by_cases he : id = j
        · subst he
          rw [hc] at hd
          cases hd
          exact .unclosed hst
        · exact hk d he
      · rename_i hst
        refine chanKept_set hc (e := { ch with state := .closing }) rfl ?_ fun he d _ => hk d he
        rintro rfl
        exact .closing hst
  | read j buflen =>
    have hk : ∀ ch, id ≠ j → ChanCall c id ch (.read j buflen) ch := by
      intro ch hne
      exact .other (by simpa [Call.chan] using Ne.symm hne) (by simp)
    simp only [Call.apply]
    rcases netchanChanRead_cases c j buflen with ⟨he, -, hempty⟩ | ⟨ch, hc, hr, hq, he⟩
    · rw [he]
      refine chanKept_congr rfl fun ch hc => ?_
      by_cases hj : id = j
      · subst hj
        exact .unread (hempty ch hc)
      · exact hk ch hj
    · rw [he]
      refine chanKept_set hc (e := { ch with rcv := readRcv ch.rcv buflen }) rfl ?_
        fun hj d _ => hk d hj
      rintro rfl
      exact .read hr hq
  | write j data =>
    have hk : ∀ ch, id ≠ j → ChanCall c id ch (.write j data) ch := by
      intro ch hne
      exact .other (by simpa [Call.chan] using Ne.symm hne) (by simp)
    simp only [Call.apply]
    rcases netchanChanWrite_cases c j data with ⟨he, hn⟩ | ⟨ch, b, p, hw, h⟩
    · rw [he]
      refine chanKept_congr rfl fun ch hc => ?_
      by_cases hj : id = j
      · subst hj
        exact .unwritten hn
      · exact hk ch hj
    rcases h with ⟨hf, ha, he⟩ | ⟨hf, hn, he⟩
    · rw [he]
      refine chanKept_set hw.chan (e := writtenChan c ch b data) rfl ?_ fun hj d _ => hk d hj
      rintro rfl
      exact .written hw hf ha
    · rw [he]
      refine chanKept_set hw.chan (e := skippedChan ch) rfl ?_ fun hj d _ => hk d hj
      rintro rfl
      exact .skipped hw hf hn
  | _ => exact absurd trivial hs

/-- **What a frame does to a channel.** -/
theorem frame_effect (env : Env) (c : Conn) (f : Frame) (id : ChanId) :
    ChanKept c (stepFrame env c f) id fun ch ch' => ChanFrame c id ch f ch' := by
  by_cases hs : f.Session
  · refine chanKept_congr (stepFrame_session env c hs).1 fun ch _ => .other ?_
    cases f <;> simp_all [Frame.Session, Frame.chan]
  have hk : ∀ {j : ChanId} {f : Frame}, f.chan = some j → ∀ ch, id ≠ j → ChanFrame c id ch f ch := by
    intro j f hf ch hne
    exact .other fun h => hne (Option.some.inj (h.symm.trans hf))
  cases f with
  | channelOpen j type dir ct =>
    simp only [stepFrame, applyFrame, channelOpened_eq, Option.getD_some]
    split
    · refine chanKept_congr rfl fun ch _ => ?_
      by_cases hj : id = j
      · subst hj
        exact .refused
      · exact hk rfl ch hj
    · rename_i hg
      rw [not_or] at hg
      exact chanKept_create (Option.not_isSome_iff_eq_none.1 hg.1)
        (e := openedChan c j type dir ct) ⟨rfl, rfl, rfl, by simp [openedChan]⟩ rfl
        fun ch hj => hk rfl ch hj
  | channelClose j error =>
    simp only [stepFrame, applyFrame, channelClosed, Option.getD_some]
    split
    · rename_i hn
      refine chanKept_congr rfl fun ch hc => hk rfl ch ?_
      rintro rfl
      rw [hn] at hc
      cases hc
    · rename_i ch hc
      refine chanKept_set hc (e := { ch with state := .closed }) rfl ?_ fun hj d _ => hk rfl d hj
      rintro rfl
      exact .closed
  | data j seq idx total payload =>
    simp only [stepFrame, applyFrame, dataReceived, Option.getD_some]
    split
    · rename_i hn
      refine chanKept_congr rfl fun ch hc => hk rfl ch ?_
      rintro rfl
      rw [hn] at hc
      cases hc
    · rename_i ch hc
      split
      · rename_i hr
        refine chanKept_congr rfl fun d hd => ?_
        by_cases hj : id = j
        · subst hj
          rw [hc] at hd
          cases hd
          exact .ignored hr
        · exact hk rfl d hj
      · rename_i hr
        have hrole : ch.role = .receiver := not_not.1 hr
        have hset : ∀ x : Rx, x.rcv = dataRcv c j ch seq idx total payload →
            ChanKept c (c.withRx j ch x) id
              fun ch ch' => ChanFrame c id ch (.data j seq idx total payload) ch' := by
          intro x hx
          refine chanKept_set hc (e := { ch with rcv := x.rcv }) rfl ?_ fun hj d _ => hk rfl d hj
          rintro rfl
          rw [hx]
          exact .data hrole
        split
        · rename_i ht
          exact hset _ (by rw [dataRcv, if_pos ht])
        · rename_i ht
          exact hset _ (by rw [dataRcv, if_neg ht])
  | ack j seq =>
    simp only [stepFrame, applyFrame, ackReceived, Option.getD_some]
    split
    · rename_i hn
      refine chanKept_congr rfl fun ch hc => hk rfl ch ?_
      rintro rfl
      rw [hn] at hc
      cases hc
    · rename_i ch hc
      split
      · rename_i hr
        refine chanKept_congr rfl fun d hd => ?_
        by_cases hj : id = j
        · subst hj
          rw [hc] at hd
          cases hd
          exact .ignored hr
        · exact hk rfl d hj
      · rename_i hr
        refine chanKept_set hc (e := { ch with snd := ackedSnd c.pool ch.snd seq })
          (by unfold ackedSnd; rfl) ?_ fun hj d _ => hk rfl d hj
        rintro rfl
        exact .ack (not_not.1 hr)
  | windowUpdate j w =>
    simp only [stepFrame, applyFrame, windowUpdated, Option.getD_some]
    split
    · rename_i hn
      refine chanKept_congr rfl fun ch hc => hk rfl ch ?_
      rintro rfl
      rw [hn] at hc
      cases hc
    · rename_i ch hc
      split
      · rename_i hr
        refine chanKept_set hc (e := { ch with
            snd := { ch.snd with sendWindow := w }
            state := if ch.state = .opening then .opened else ch.state }) rfl ?_
          fun hj d _ => hk rfl d hj
        rintro rfl
        exact .window hr
      · rename_i hr
        refine chanKept_congr rfl fun d hd => ?_
        by_cases hj : id = j
        · subst hj
          rw [hc] at hd
          cases hd
          exact .ignored hr
        · exact hk rfl d hj
  | _ => exact absurd trivial hs

/-- What sending a frame does to a channel. -/
inductive ChanEmit (now : UInt32) (c : Conn) (id : ChanId) (ch : Chan) : Frame → Chan → Prop
  | other {f : Frame} (h : f.chan ≠ some id) : ChanEmit now c id ch f ch
  | ack (hn : ch.rcv.needAck = true) :
      ChanEmit now c id ch (.ack id ch.rcv.ackSeq)
        { ch with rcv := { ch.rcv with needAck := false } }
  | window (hn : ch.rcv.needWindowUpdate = true) :
      ChanEmit now c id ch (.windowUpdate id (advertised ch.rcv))
        { ch with rcv := { ch.rcv with needWindowUpdate := false } }
  | data {k : Fin ncOutgoingSlots} (hs : chanSendSlot ch = some k) :
      ChanEmit now c id ch (nextData c.pool (maxFragPayload c) id (ch.snd.outgoing k))
        (chanSent now c.pool ch k).2

/-- **What sending a frame does to a channel.** -/
theorem emit_effect {now : UInt32} {c c' : Conn} {f : Frame} (h : Emit now c f c')
    (hids : ∀ j ch, c.channels j = some ch → ch.id = j) (id : ChanId) :
    ChanKept c c' id fun ch ch' => ChanEmit now c id ch f ch' := by
  have hk : ∀ {j : ChanId} {f : Frame}, f.chan = some j → ∀ ch, id ≠ j → ChanEmit now c id ch f ch := by
    intro j f hf ch hne
    exact .other fun h => hne (Option.some.inj (h.symm.trans hf))
  cases h with
  | @ack j ch hc hn =>
    have hf : Frame.ack ch.id ch.rcv.ackSeq = .ack j ch.rcv.ackSeq := by rw [hids j ch hc]
    rw [hf]
    refine chanKept_set hc (e := { ch with rcv := { ch.rcv with needAck := false } }) rfl ?_
      fun he d _ => hk rfl d he
    rintro rfl
    exact .ack hn
  | @window j ch hc hn =>
    have hf : Frame.windowUpdate ch.id (advertised ch.rcv) = .windowUpdate j (advertised ch.rcv) := by
      rw [hids j ch hc]
    rw [hf]
    refine chanKept_set hc (e := { ch with rcv := { ch.rcv with needWindowUpdate := false } }) rfl
      ?_ fun he d _ => hk rfl d he
    rintro rfl
    exact .window hn
  | @data j ch k hc hs =>
    rw [hids j ch hc]
    refine chanKept_set hc rfl ?_ fun he d _ => hk (by simp [nextData, Frame.chan]) d he
    rintro rfl
    exact .data hs

/-! ## What stays -/

section
variable {c : Conn} {id : ChanId} {ch ch' : Chan}

theorem ChanCall.kind {k : Call} (h : ChanCall c id ch k ch') : SameKind ch ch' := by
  cases h with
  | timed hg => exact (chanTimed_rcv c.cfg _ ch).1
  | _ => exact ⟨rfl, rfl, rfl, rfl⟩

theorem ChanFrame.kind {f : Frame} (h : ChanFrame c id ch f ch') : SameKind ch ch' := by
  cases h <;> exact ⟨rfl, rfl, rfl, rfl⟩

theorem ChanEmit.kind {now : UInt32} {f : Frame} (h : ChanEmit now c id ch f ch') :
    SameKind ch ch' := by
  cases h with
  | data hs => exact (chanSent_rcv now c.pool ch _).1
  | _ => exact ⟨rfl, rfl, rfl, rfl⟩

end

end Netchan
