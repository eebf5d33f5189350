import Mathlib.Algebra.Group.Action.Defs
import Mathlib.Algebra.Order.BigOperators.Group.List
import Netchan.Proof.Store

/-!
# Receive credit

`recv_buffered` should be the number of bytes in the receive queue, so that the window a receiver
advertises is what is left of `recv_window`. A delivery adds the length of the message, but a
`netchan_chan_read` takes off the bytes it copied, which are fewer when the caller's buffer is
small, while the whole message leaves the queue.

* `DeliveryRule.data`: a DATA frame changes the receive queue by deliveries only.
* `credit_exact`: the count is right in every run whose reads have room for the whole message.
* `short_read_drifts`: a read with a small buffer leaves bytes counted that are gone.
-/

namespace Netchan

open Lib

/-! ## What a DATA frame does to the queue -/

/-- The queue, the count of its bytes and the window are as they were. -/
structure Receiver.Aside (r r' : Receiver) : Prop where
  queue : r'.recvQueue = r.recvQueue
  buffered : r'.recvBuffered = r.recvBuffered
  window : r'.recvWindow = r.recvWindow
  pending : r'.needWindowUpdate = r.needWindowUpdate

/-- `R` relates the receiver states around every delivery, and around what leaves the queue alone. -/
structure DeliveryRule (R : Receiver → Receiver → Prop) : Prop where
  trans : ∀ {r r' r'' : Receiver}, R r r' → R r' r'' → R r r''
  aside : ∀ {r r' : Receiver}, r.Aside r' → R r r'
  deliver : ∀ (x : Rx) (id : ChanId) (data : List UInt8), R x.rcv (x.deliver id data).rcv

namespace DeliveryRule

variable {R : Receiver → Receiver → Prop} (h : DeliveryRule R)

include h

theorem deliverLoop (id : ChanId) : ∀ (fuel : Nat) (x : Rx),
    R x.rcv (Netchan.deliverLoop id fuel x).rcv
  | 0, _ => h.aside ⟨rfl, rfl, rfl, rfl⟩
  | fuel + 1, x => by
    unfold Netchan.deliverLoop
    split
    · refine h.trans ?_ (deliverLoop id fuel (deliverNext id x))
      exact h.trans (h.deliver x id _) (h.aside ⟨rfl, rfl, rfl, rfl⟩)
    · exact h.aside ⟨rfl, rfl, rfl, rfl⟩

theorem dataArrived (id : ChanId) (x : Rx) (seq : UInt16) (data : List UInt8) :
    R x.rcv (Netchan.dataArrived id x seq data).rcv := by
  unfold Netchan.dataArrived
  split
  · refine h.trans (h.deliver x id data) (h.trans ?_ (h.deliverLoop id _ _))
    exact h.aside ⟨rfl, rfl, rfl, rfl⟩
  · unfold reorderStore
    dsimp only
    repeat' split
    all_goals exact h.aside ⟨rfl, rfl, rfl, rfl⟩

theorem fragStore (fp : Nat) (x : Rx) (seq : UInt16) (idx total : Nat) (payload : List UInt8) :
    R x.rcv (Netchan.fragStore fp x seq idx total payload).1.rcv := by
  rcases fragStore_cases fp x seq idx total payload with ⟨-, he⟩ | ⟨i, x', hs, h'⟩
  · rw [he]
    exact h.aside ⟨rfl, rfl, rfl, rfl⟩
  have hx : R x.rcv x'.rcv := by
    rcases fragSlot_cases hs with ⟨rfl, -, -⟩ | ⟨b, p, -, -, -, -, rfl⟩
    · exact h.aside ⟨rfl, rfl, rfl, rfl⟩
    · exact h.aside ⟨rfl, rfl, rfl, rfl⟩
  rcases h' with ⟨-, he⟩ | ⟨-, ⟨-, he⟩ | ⟨-, he⟩⟩ <;> rw [he]
  · exact hx
  · exact h.trans hx (h.aside ⟨rfl, rfl, rfl, rfl⟩)
  · exact h.trans hx (h.aside ⟨rfl, rfl, rfl, rfl⟩)

/-- **What holds of every delivery holds of every DATA frame.** -/
theorem data (c : Conn) (id : ChanId) (ch : Chan) (seq : UInt16) (idx total : Nat)
    (payload : List UInt8) : R ch.rcv (dataRcv c id ch seq idx total payload) := by
  have hfrag := h.fragStore (maxFragPayload c) (c.rx ch) seq idx total payload
  unfold dataRcv
  split
  · unfold dataUnreliable
    split
    · exact h.deliver (c.rx ch) id payload
    · split
      · rename_i x' he
        rw [he] at hfrag
        exact hfrag
      · rename_i x' i pos he
        rw [he] at hfrag
        exact h.trans hfrag (h.trans (h.deliver x' id _) (h.aside ⟨rfl, rfl, rfl, rfl⟩))
  · suffices hd : R ch.rcv (dataReliable (maxFragPayload c) id (c.rx ch) seq idx total payload).rcv by
      exact h.trans hd (h.aside ⟨rfl, rfl, rfl, rfl⟩)
    unfold dataReliable
    split
    · exact h.dataArrived id (c.rx ch) seq payload
    · split
      · rename_i x' he
        rw [he] at hfrag
        exact hfrag
      · rename_i x' i pos he
        rw [he] at hfrag
        exact h.trans hfrag (h.trans (h.dataArrived id x' seq _)
          (h.aside ⟨rfl, rfl, rfl, rfl⟩))

end DeliveryRule

/-! ## The bytes in the queue -/

/-- The bytes of the messages in the receive queue. -/
def Receiver.queuedBytes (r : Receiver) : Nat := (r.recvQueue.toList.map RecvEntry.len).sum

/-- The bytes in the queue are counted. -/
structure Receiver.Counted (r : Receiver) : Prop where
  bytes : r.recvBuffered.toNat = r.queuedBytes
  small : ∀ e ∈ r.recvQueue.toList, e.len ≤ ncMaxMsg

namespace Receiver.Counted

variable {r r' : Receiver}

theorem aside (h : r.Counted) (ha : r.Aside r') : r'.Counted := by
  refine ⟨?_, by rw [ha.queue]; exact h.small⟩
  rw [ha.buffered, h.bytes, queuedBytes, queuedBytes, ha.queue]

theorem queued_le (h : r.Counted) : r.queuedBytes ≤ ncRecvQueue * ncMaxMsg := by
  have hle : ∀ n ∈ r.recvQueue.toList.map RecvEntry.len, n ≤ ncMaxMsg := by
    intro n hn
    obtain ⟨e, he, rfl⟩ := List.mem_map.1 hn
    exact h.small e he
  have hsum := List.sum_le_card_nsmul _ _ hle
  have hlen : r.recvQueue.toList.length ≤ ncRecvQueue := by
    rw [Ring.length_toList]
    exact Nat.le_of_lt (Ring.size_lt _)
  rw [List.length_map, smul_eq_mul] at hsum
  exact hsum.trans (Nat.mul_le_mul_right _ hlen)

/-- **A delivery counts the message it queues.** -/
theorem deliver {x : Rx} (h : x.rcv.Counted) (id : ChanId) (data : List UInt8) :
    (x.deliver id data).rcv.Counted := by
  rcases deliver_cases x id data with ⟨hr, b, fs, hf, he⟩ | ⟨-, he⟩
  · rw [he]
    have hq : (x.enqueued id data b fs).rcv.recvQueue.toList =
        x.rcv.recvQueue.toList ++ [⟨some b, data.length⟩] :=
      Ring.toList_push (by decide) hr.queue _
    have hmax := h.queued_le
    have hsmall := hr.small
    simp only [ncRecvQueue, ncMaxMsg] at hmax hsmall
    refine ⟨?_, fun e he => ?_⟩
    · have hsum : (x.enqueued id data b fs).rcv.queuedBytes = x.rcv.queuedBytes + data.length := by
        simp [queuedBytes, hq]
      rw [hsum]
      simp only [Rx.enqueued]
      rw [UInt32.toNat_add, h.bytes, UInt32.toNat_ofNat_of_lt' (by simp only [UInt32.size]; omega),
        Nat.mod_eq_of_lt (by omega)]
    · rw [hq, List.mem_append, List.mem_singleton] at he
      rcases he with he | rfl
      · exact h.small e he
      · exact hr.small
  · rw [he]
    exact h

/-- **A read that takes the whole message takes its bytes off the count.** -/
theorem read (h : r.Counted) (hq : ¬ r.recvQueue.Empty) {buflen : Nat}
    (hb : r.recvQueue.front.len ≤ buflen) : (readRcv r buflen).Counted := by
  have hpop : r.recvQueue.toList = r.recvQueue.front :: (r.recvQueue.pop {}).toList :=
    Ring.toList_pop (by decide) hq {}
  have hsum : r.queuedBytes = r.recvQueue.front.len + (readRcv r buflen).queuedBytes := by
    simp only [queuedBytes, readRcv]
    rw [hpop, List.map_cons, List.sum_cons]
  have hsmall := h.small r.recvQueue.front (by rw [hpop]; exact .head _)
  have hbytes := h.bytes
  simp only [ncMaxMsg] at hsmall
  have hn : (UInt32.ofNat r.recvQueue.front.len).toNat = r.recvQueue.front.len :=
    UInt32.toNat_ofNat_of_lt' (by simp only [UInt32.size]; omega)
  refine ⟨?_, fun e he => h.small e (by rw [hpop]; exact .tail _ he)⟩
  have hleft : (readRcv r buflen).recvBuffered.toNat = r.recvBuffered.toNat - r.recvQueue.front.len := by
    rw [readRcv, Nat.min_eq_left hb, UInt32.toNat_sub_of_le _ _
      (by rw [UInt32.le_iff_toNat_le, hn]; omega), hn]
  omega

/-- The window that is advertised is what the queue leaves of it. -/
theorem advertised (h : r.Counted) :
    (Netchan.advertised r).toNat = r.recvWindow.toNat - r.queuedBytes := by
  have hb := h.bytes
  unfold Netchan.advertised
  split
  · rename_i hlt
    rw [UInt32.toNat_sub_of_le _ _ (UInt32.le_of_lt hlt), hb]
  · rename_i hle
    rw [gt_iff_lt, UInt32.lt_iff_toNat_lt] at hle
    rw [show (0 : UInt32).toNat = 0 from rfl]
    omega

end Receiver.Counted

theorem counted_rule : DeliveryRule fun r r' => r.Counted → r'.Counted where
  trans h1 h2 h := h2 (h1 h)
  aside ha h := h.aside ha
  deliver _ id data h := h.deliver id data

/-! ## Every run -/

/-- A read has room for the whole message. -/
def Step.ReadsWhole (c : Conn) : Step → Prop
  | .call (.read id buflen) => ∀ ch ∈ c.channels id, ch.role = .receiver →
      ¬ ch.rcv.recvQueue.Empty → ch.rcv.recvQueue.front.len ≤ buflen
  | _ => True

instance (c : Conn) (st : Step) : Decidable (st.ReadsWhole c) := by
  unfold Step.ReadsWhole
  split <;> infer_instance

/-- The bytes in every receive queue are counted. -/
def CreditOk (c : Conn) : Prop := ∀ id ch, c.channels id = some ch → ch.rcv.Counted

theorem credit_step {c : Conn} {st : Step} (h : CreditOk c) (hst : st.ReadsWhole c) :
    CreditOk (st.apply c) := by
  intro id ch' hc'
  have hch := step_chan c st id
  rw [hc'] at hch
  generalize hc : c.channels id = o at hch
  cases hch with
  | created hid hs hr =>
    rw [hr]
    exact ⟨rfl, by simp⟩
  | @kept ch _ hk hr =>
    have hold := h id ch hc
    generalize ch'.rcv = r' at hr ⊢
    cases hr with
    | flags hf =>
      obtain ⟨a, w, rfl, -, -⟩ := hf
      exact ⟨hold.bytes, hold.small⟩
    | read buflen hrole hq => exact hold.read hq (hst ch hc hrole hq)
    | data env seq idx total payload hrole =>
      exact counted_rule.data c id ch seq idx total payload hold

/-- **Receive credit is exact** in every run whose reads have room for the whole message: the bytes
counted are those in the queue, and the window advertised is what they leave of it. -/
theorem credit_exact {server : Bool} {steps : List Step}
    (h : Along Step.apply (fun c st => st.ReadsWhole c) (netchanOpen server) steps) {id : ChanId}
    {ch : Chan} (hc : (runConn server steps).channels id = some ch) :
    ch.rcv.recvBuffered.toNat = ch.rcv.queuedBytes ∧
      (advertised ch.rcv).toNat = ch.rcv.recvWindow.toNat - ch.rcv.queuedBytes ∧
      (ch.rcv.recvQueue.Empty → advertised ch.rcv = ch.rcv.recvWindow) := by
  have hok : CreditOk (runConn server steps) := run_invariant (I := CreditOk)
    (fun _ _ hi hst => credit_step hi hst) (by rintro id ch ⟨⟩) h
  have hcount := hok id ch hc
  refine ⟨hcount.bytes, hcount.advertised, fun hempty => ?_⟩
  have hnil := (Ring.toList_eq_nil _).2 hempty
  refine UInt32.toNat.inj ?_
  rw [hcount.advertised, Receiver.queuedBytes, hnil]
  rfl

/-- A server receives a message of three bytes and one of two, and reads the first. -/
def readSteps (buflen : Nat) : List Step :=
  [.frame { entropy := 9 } (.connectInit 7), .call .accept,
    .frame {} (.channelOpen 0 .reliable .send []), .frame {} (.data 0 0 0 1 [1, 2, 3]),
    .frame {} (.data 0 1 0 1 [4, 5]), .call (.read 0 buflen)]

theorem credit_exact_read :
    let c := runConn true (readSteps 3)
    Along Step.apply (fun c st => st.ReadsWhole c) (netchanOpen true) (readSteps 3) ∧
      (c.channels 0).isSome ∧
      ∀ ch ∈ c.channels 0, ch.rcv.recvBuffered.toNat = ch.rcv.queuedBytes ∧
        ch.rcv.queuedBytes = 2 := by
  intro c
  have h : Along Step.apply (fun c st => st.ReadsWhole c) (netchanOpen true) (readSteps 3) := by
    decide +kernel
  have hq : ∀ ch ∈ c.channels 0, ch.rcv.queuedBytes = 2 := by decide +kernel
  exact ⟨h, by decide +kernel, fun ch hc => ⟨(credit_exact h hc).1, hq ch hc⟩⟩

/-- **A read with a small buffer loses credit for good**: the queue is empty, and a byte is still
counted. -/
theorem short_read_drifts :
    let c := runConn true (readSteps 2 ++ [.call (.read 0 2)])
    (c.channels 0).isSome ∧
    ∀ ch ∈ c.channels 0, ch.rcv.recvQueue.Empty ∧ ch.rcv.queuedBytes = 0 ∧
      ch.rcv.recvBuffered = 1 ∧ advertised ch.rcv ≠ ch.rcv.recvWindow := by
  decide +kernel

end Netchan
