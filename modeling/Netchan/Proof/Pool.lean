import Netchan.Lib.Tokens
import Netchan.Proof.Owners
import Mathlib.Tactic.Abel

/-!
# The pool is conserved

Each buffer index is on the free stack or in one slot of a channel, in every state a connection can
reach, whatever bytes it is fed (`pool_conserved`). The indices are the tokens of `Lib.Tokens`: a
step moves them between the stack and the slots. That a slot in use has a buffer and a slot that is
not in use has none (`SndSlots`, `RcvSlots`) is what makes the moves balance.
-/

namespace Netchan

open Lib

/-! ## The slots of a channel -/

instance {n : Nat} (h t k : Fin n) : Decidable (Between h t k) :=
  inferInstanceAs (Decidable (_ < _))

/-- An outgoing slot has a buffer exactly if it is in use, and is in use only between head and
tail. -/
structure SndSlots (s : Sender) : Prop where
  buf : ∀ k, (s.outgoing k).buf.isSome = (s.outgoing k).active
  window : ∀ k, (s.outgoing k).active = true → Between s.outHead s.outTail k

/-- A slot of the receiver state has a buffer exactly if it is in use. -/
structure RcvSlots (r : Receiver) : Prop where
  queue : ∀ k, (r.recvQueue.slots k).buf.isSome =
    decide (Between r.recvQueue.head r.recvQueue.tail k)
  reorder : ∀ k, (r.reorder k).buf.isSome = (r.reorder k).valid
  frags : ∀ i, (r.frags i).buf.isSome = (r.frags i).active

def sndTokens (s : Sender) : Multiset BufIdx := tokens fun k => (s.outgoing k).buf

def rcvTokens (r : Receiver) : Multiset BufIdx :=
  tokens (fun k => (r.recvQueue.slots k).buf) + tokens (fun k => (r.reorder k).buf) +
    tokens fun i => (r.frags i).buf

/-- The buffers of a pool and a receiver state. -/
def Rx.tokens (x : Rx) : Multiset BufIdx := (x.pool.poolFree : Multiset BufIdx) + rcvTokens x.rcv

theorem poolFree_put (p : Pool) (b : Option BufIdx) :
    ((poolPut p b).poolFree : Multiset BufIdx) = token b + p.poolFree := by
  cases b with
  | none => simp [poolPut]
  | some b => rfl

/-! ## The receiving side -/

/-- What happens on the receiving side keeps the slots in order and loses no buffer. -/
def Rx.Balances (x x' : Rx) : Prop := RcvSlots x.rcv → RcvSlots x'.rcv ∧ x'.tokens = x.tokens

namespace Rx.Balances

variable {x x' x'' : Rx}

theorem refl (x : Rx) : x.Balances x := fun h => ⟨h, rfl⟩

theorem trans (h1 : x.Balances x') (h2 : x'.Balances x'') : x.Balances x'' := fun h =>
  ⟨(h2 (h1 h).1).1, (h2 (h1 h).1).2.trans (h1 h).2⟩

theorem same (hf : x'.pool.poolFree = x.pool.poolFree)
    (hq : x'.rcv.recvQueue = x.rcv.recvQueue) (hr : x'.rcv.reorder = x.rcv.reorder)
    (hfr : ∀ i, (x'.rcv.frags i).buf = (x.rcv.frags i).buf ∧
      (x'.rcv.frags i).active = (x.rcv.frags i).active) : x.Balances x' := by
  refine fun h => ⟨⟨by rw [hq]; exact h.queue, by rw [hr]; exact h.reorder, fun i => ?_⟩, ?_⟩
  · rw [(hfr i).1, (hfr i).2]
    exact h.frags i
  · simp only [Rx.tokens, rcvTokens, hf, hq, hr, hfr]

theorem deliver (x : Rx) (id : ChanId) (data : List UInt8) : x.Balances (x.deliver id data) := by
  rcases deliver_cases x id data with ⟨hr, b, fs, hf, he⟩ | ⟨-, he⟩ <;> rw [he]
  · intro h
    have hnone : (x.rcv.recvQueue.slots x.rcv.recvQueue.tail).buf = none := by
      have := h.queue x.rcv.recvQueue.tail
      rw [decide_eq_false not_between_end] at this
      simpa using this
    have hother : ∀ k, k ≠ x.rcv.recvQueue.tail →
        (x.rcv.recvQueue.push ⟨some b, data.length⟩).slots k = x.rcv.recvQueue.slots k :=
      fun k hk => Function.update_of_ne hk ..
    refine ⟨⟨fun k => ?_, h.reorder, h.frags⟩, ?_⟩
    · have hpush := between_push (h := x.rcv.recvQueue.head) (t := x.rcv.recvQueue.tail) (k := k)
        (by decide) hr.queue
      by_cases hk : k = x.rcv.recvQueue.tail
      · subst hk
        simp only [Rx.enqueued, Ring.push, Function.update_self, Option.isSome_some]
        exact (decide_eq_true (hpush.2 (.inr rfl))).symm
      · simp only [Rx.enqueued, hother k hk, h.queue k]
        exact decide_eq_decide.2 (hpush.trans (or_iff_left hk)).symm
    · have hq := tokens_set (f := fun k => (x.rcv.recvQueue.slots k).buf)
        (g := fun k => ((x.rcv.recvQueue.push ⟨some b, data.length⟩).slots k).buf) hnone
        (b := b) (by simp [Ring.push]) fun k hk => by rw [hother k hk]
      simp only [Rx.tokens, rcvTokens, Rx.enqueued, Pool.write, hq, hf, ← Multiset.cons_coe,
        ← Multiset.singleton_add]
      abel
  · exact same rfl rfl rfl fun _ => ⟨rfl, rfl⟩

theorem deliverNext (id : ChanId) (x : Rx) :
    x.Balances (Netchan.deliverNext id x) := by
  have hre : ∀ data, (x.deliver id data).rcv.reorder = x.rcv.reorder := by
    intro data
    rcases deliver_cases x id data with ⟨-, b, fs, -, he⟩ | ⟨-, he⟩
    · rw [he]
      rfl
    · rw [he]
  refine .trans (.deliver x id (x.pool.read (x.rcv.reorder (reorderSlot x.rcv.recvSeq)).buf 0
    (x.rcv.reorder (reorderSlot x.rcv.recvSeq)).len)) fun h => ?_
  replace hre := hre (x.pool.read (x.rcv.reorder (reorderSlot x.rcv.recvSeq)).buf 0
    (x.rcv.reorder (reorderSlot x.rcv.recvSeq)).len)
  unfold Netchan.deliverNext
  dsimp only
  generalize x.deliver id _ = y at h hre ⊢
  have hother : ∀ k, k ≠ reorderSlot x.rcv.recvSeq → Function.update y.rcv.reorder
      (reorderSlot x.rcv.recvSeq) { x.rcv.reorder (reorderSlot x.rcv.recvSeq) with
        buf := none, valid := false } k = y.rcv.reorder k :=
    fun k hk => Function.update_of_ne hk ..
  refine ⟨⟨h.queue, fun k => ?_, h.frags⟩, ?_⟩
  · by_cases hk : k = reorderSlot x.rcv.recvSeq
    · subst hk
      simp
    · simp only [hother k hk]
      exact h.reorder k
  · have hclear := tokens_clear (f := fun k => (y.rcv.reorder k).buf)
      (g := fun k => (Function.update y.rcv.reorder (reorderSlot x.rcv.recvSeq)
        { x.rcv.reorder (reorderSlot x.rcv.recvSeq) with buf := none, valid := false } k).buf)
      (i := reorderSlot x.rcv.recvSeq) (by simp) fun k hk => by rw [hother k hk]
    have hbuf : (x.rcv.reorder (reorderSlot x.rcv.recvSeq)).buf =
        (y.rcv.reorder (reorderSlot x.rcv.recvSeq)).buf := by rw [hre]
    simp only [Rx.tokens, rcvTokens, poolFree_put, hbuf, ← hclear]
    abel

theorem deliverLoop (id : ChanId) : ∀ (fuel : Nat) (x : Rx),
    x.Balances (Netchan.deliverLoop id fuel x)
  | 0, x => .refl x
  | fuel + 1, x => by
    unfold Netchan.deliverLoop
    split
    · exact .trans (.deliverNext id x) (deliverLoop id fuel (Netchan.deliverNext id x))
    · exact .refl x

theorem reorderStore (x : Rx) (seq : UInt16) (data : List UInt8) :
    x.Balances (Netchan.reorderStore x seq data) := by
  unfold Netchan.reorderStore
  dsimp only
  split
  · split
    · rename_i hv
      split
      · exact .refl x
      · rename_i b p hg
        intro h
        have hnone : (x.rcv.reorder (reorderSlot seq)).buf = none := by
          have := h.reorder (reorderSlot seq)
          rw [hv.1] at this
          simpa using this
        have hother : ∀ k, k ≠ reorderSlot seq → Function.update x.rcv.reorder (reorderSlot seq)
            ⟨seq, some b, data.length, true⟩ k = x.rcv.reorder k :=
          fun k hk => Function.update_of_ne hk ..
        refine ⟨⟨h.queue, fun k => ?_, h.frags⟩, ?_⟩
        · by_cases hk : k = reorderSlot seq
          · subst hk
            simp
          · simp only [hother k hk]
            exact h.reorder k
        · have hset := tokens_set (f := fun k => (x.rcv.reorder k).buf)
            (g := fun k => (Function.update x.rcv.reorder (reorderSlot seq)
              ⟨seq, some b, data.length, true⟩ k).buf) hnone (b := b) (by simp)
            fun k hk => by rw [hother k hk]
          simp only [Rx.tokens, rcvTokens, Pool.write, hset, poolGet_free hg, ← Multiset.cons_coe,
            ← Multiset.singleton_add]
          abel
    · exact .refl x
  · exact .refl x

theorem dataArrived (id : ChanId) (x : Rx) (seq : UInt16) (data : List UInt8) :
    x.Balances (Netchan.dataArrived id x seq data) := by
  unfold Netchan.dataArrived
  split
  · refine .trans (.deliver x id data) (.trans ?_ (.deliverLoop id ncReorderSlots _))
    exact .same rfl rfl rfl fun _ => ⟨rfl, rfl⟩
  · exact .reorderStore x seq data

theorem fragStore (fp : Nat) (x : Rx) (seq : UInt16) (idx total : Nat) (payload : List UInt8) :
    x.Balances (Netchan.fragStore fp x seq idx total payload).1 := by
  rcases fragStore_cases fp x seq idx total payload with ⟨-, he⟩ | ⟨i, x', hs, h'⟩
  · rw [he]
    exact .refl x
  have hx : x.Balances x' := by
    rcases fragSlot_cases hs with ⟨rfl, -, -⟩ | ⟨b, p, -, hact, -, hg, rfl⟩
    · exact .refl x'
    · intro h
      have hnone : (x.rcv.frags i).buf = none := by
        have := h.frags i
        rw [hact] at this
        simpa using this
      have hother : ∀ k, k ≠ i → Function.update x.rcv.frags i
          { seq, total, active := true, buf := some b } k = x.rcv.frags k :=
        fun k hk => Function.update_of_ne hk ..
      refine ⟨⟨h.queue, h.reorder, fun k => ?_⟩, ?_⟩
      · by_cases hk : k = i
        · subst hk
          simp
        · simp only [hother k hk]
          exact h.frags k
      · have hset := tokens_set (f := fun k => (x.rcv.frags k).buf)
          (g := fun k => (Function.update x.rcv.frags i
            { seq, total, active := true, buf := some b } k).buf) hnone (b := b) (by simp)
          fun k hk => by rw [hother k hk]
        simp only [Rx.tokens, rcvTokens, hset, poolGet_free hg, ← Multiset.cons_coe,
          ← Multiset.singleton_add]
        abel
  have hput : x'.Balances (fragPut fp x' i idx payload) := by
    refine .same rfl rfl rfl fun k => ?_
    by_cases hk : k = i
    · subst hk
      simp [fragPut, FragAsm.add]
    · simp [fragPut, Function.update_of_ne hk]
  rcases h' with ⟨-, he⟩ | ⟨-, ⟨-, he⟩ | ⟨-, he⟩⟩ <;> rw [he]
  · exact hx
  · exact hx.trans hput
  · refine hx.trans (hput.trans ?_)
    exact .same rfl rfl rfl fun _ => ⟨rfl, rfl⟩

theorem fragFree (x : Rx) (i : Fin ncFragSlots) : x.Balances (Netchan.fragFree x i) := by
  intro h
  have hother : ∀ k, k ≠ i → Function.update x.rcv.frags i {} k = x.rcv.frags k :=
    fun k hk => Function.update_of_ne hk ..
  refine ⟨⟨h.queue, h.reorder, fun k => ?_⟩, ?_⟩
  · by_cases hk : k = i
    · subst hk
      simp [Netchan.fragFree]
    · simp only [Netchan.fragFree, hother k hk]
      exact h.frags k
  · have hclear := tokens_clear (f := fun k => (x.rcv.frags k).buf)
      (g := fun k => (Function.update x.rcv.frags i {} k).buf) (i := i) (by simp)
      fun k hk => by rw [hother k hk]
    simp only [Rx.tokens, rcvTokens, Netchan.fragFree, poolFree_put, ← hclear]
    abel

/-- **A DATA frame** loses no buffer. -/
theorem data (c : Conn) (id : ChanId) (ch : Chan) (seq : UInt16) (idx total : Nat)
    (payload : List UInt8) :
    (c.rx ch).Balances (dataUnreliable (maxFragPayload c) id (c.rx ch) seq idx total payload) ∧
    (c.rx ch).Balances (dataReliable (maxFragPayload c) id (c.rx ch) seq idx total payload) := by
  have hfrag := fragStore (maxFragPayload c) (c.rx ch) seq idx total payload
  refine ⟨?_, ?_⟩
  · unfold dataUnreliable
    split
    · exact .deliver (c.rx ch) id payload
    · split
      · rename_i x' he
        rw [he] at hfrag
        exact hfrag
      · rename_i x' i pos he
        rw [he] at hfrag
        exact hfrag.trans (.trans (.deliver x' id _) (.fragFree _ i))
  · unfold dataReliable
    split
    · exact .dataArrived id (c.rx ch) seq payload
    · split
      · rename_i x' he
        rw [he] at hfrag
        exact hfrag
      · rename_i x' i pos he
        rw [he] at hfrag
        exact hfrag.trans (.trans (.dataArrived id x' seq _) (.fragFree _ i))

end Rx.Balances

/-! ## The sending side -/

/-- What happens to a pool and a sender state keeps the slots in order and loses no buffer. -/
def SndBalances (x x' : Pool × Sender) : Prop :=
  SndSlots x.2 → SndSlots x'.2 ∧
    (x'.1.poolFree : Multiset BufIdx) + sndTokens x'.2 = x.1.poolFree + sndTokens x.2

namespace SndBalances

variable {x x' x'' : Pool × Sender} {p : Pool} {s : Sender}

theorem refl (x : Pool × Sender) : SndBalances x x := fun h => ⟨h, rfl⟩

theorem trans (h1 : SndBalances x x') (h2 : SndBalances x' x'') : SndBalances x x'' := fun h =>
  ⟨(h2 (h1 h).1).1, (h2 (h1 h).1).2.trans (h1 h).2⟩

theorem same {p' : Pool} {s' : Sender} (hf : p'.poolFree = p.poolFree)
    (ho : ∀ k, (s'.outgoing k).buf = (s.outgoing k).buf ∧
      (s'.outgoing k).active = (s.outgoing k).active)
    (hw : ∀ k, Between s.outHead s.outTail k → Between s'.outHead s'.outTail k) :
    SndBalances (p, s) (p', s') := by
  refine fun h => ⟨⟨fun k => ?_, fun k hk => hw k (h.window k ((ho k).2 ▸ hk))⟩, ?_⟩
  · rw [(ho k).1, (ho k).2]
    exact h.buf k
  · simp only [sndTokens, hf, ho]

theorem advance (fuel : Nat) : SndBalances (p, s) (p, outAdvance fuel s) := by
  intro h
  obtain ⟨-, -, ht, ho⟩ := outAdvance_fields fuel s
  refine ⟨⟨?_, ?_⟩, ?_⟩
  · rw [ho]
    exact h.buf
  · rw [ho, ht]
    exact outAdvance_window fuel s h.window
  · simp only [sndTokens, ho]

theorem release {s' : Sender} {o : Outgoing} {k : Fin ncOutgoingSlots} {b : Option BufIdx}
    (hb : b = (s.outgoing k).buf)
    (ho : s'.outgoing = Function.update s.outgoing k o) (hbuf : o.buf = none)
    (ha : o.active = false) (hh : s'.outHead = s.outHead) (ht : s'.outTail = s.outTail) :
    SndBalances (p, s) (poolPut p b, s') := by
  intro h
  have hother : ∀ i, i ≠ k → s'.outgoing i = s.outgoing i := by
    intro i hi
    rw [ho]
    exact Function.update_of_ne hi ..
  have hk : s'.outgoing k = o := by
    rw [ho]
    exact Function.update_self ..
  refine ⟨⟨fun i => ?_, fun i hi => ?_⟩, ?_⟩
  · by_cases he : i = k
    · subst he
      simp [hk, hbuf, ha]
    · rw [hother i he]
      exact h.buf i
  · rw [hh, ht]
    by_cases he : i = k
    · subst he
      rw [hk, ha] at hi
      cases hi
    · exact h.window i (hother i he ▸ hi)
  · have hclear := tokens_clear (f := fun i => (s.outgoing i).buf) (g := fun i => (s'.outgoing i).buf)
      (i := k) (by rw [hk, hbuf]) fun i hi => by rw [hother i hi]
    simp only [sndTokens, poolFree_put, hb, ← hclear]
    abel

theorem ackScan (acked : UInt16) : ∀ (l : List (Fin ncOutgoingSlots)) (x : Pool × Sender),
    SndBalances x (l.foldl (ackSlot acked) x)
  | [], x => .refl x
  | k :: l, (p, s) => by
    refine .trans ?_ (ackScan acked l (ackSlot acked (p, s) k))
    unfold ackSlot
    dsimp only
    split
    · exact .release rfl rfl rfl rfl rfl rfl
    · exact .refl _

theorem sent (now : UInt32) (p : Pool) (ch : Chan) (k : Fin ncOutgoingSlots) :
    SndBalances (p, ch.snd) ((chanSent now p ch k).1, (chanSent now p ch k).2.snd) := by
  unfold chanSent
  dsimp only
  split
  · refine .trans ?_ (.advance _)
    exact .release (k := k) rfl rfl rfl rfl rfl rfl
  · refine .same rfl (fun i => ?_) fun _ hi => hi
    by_cases hi : i = k
    · subst hi
      simp [Outgoing.sent]
    · simp [Function.update_of_ne hi]

theorem timed (cfg : Cfg) (now : UInt32) (p : Pool) (ch : Chan) :
    SndBalances (p, ch.snd) (p, (chanTimed cfg now ch).snd) := by
  unfold chanTimed
  split
  · exact .refl _
  · obtain ⟨hslots, ⟨m, he⟩, -⟩ := serviceSlots_cases cfg now _ ch.snd 0
      (List.nodup_finRange ncOutgoingSlots)
    refine .same rfl (fun k => ?_) fun k hk => ?_
    · rcases hslots k with h | ⟨-, -, -, h⟩ <;> dsimp only <;> rw [h] <;> exact ⟨rfl, rfl⟩
    · dsimp only
      rw [he]
      exact hk

theorem tail_idle (h : SndSlots s) : (s.outgoing s.outTail).active = false := by
  by_contra hc
  exact not_between_end (h.window _ (by simpa using hc))

theorem written {c : Conn} {id : ChanId} {ch : Chan} {data : List UInt8} {b : BufIdx}
    (hw : CanWrite c id data ch b p) :
    SndBalances (c.pool, ch.snd) (p.write (some b) 0 data, (writtenChan c ch b data).snd) := by
  intro h
  have htail := tail_idle h
  have hnone : (ch.snd.outgoing ch.snd.outTail).buf = none := by
    have := h.buf ch.snd.outTail
    rw [htail] at this
    simpa using this
  have hother : ∀ k, k ≠ ch.snd.outTail →
      (writtenChan c ch b data).snd.outgoing k = ch.snd.outgoing k :=
    fun k hk => Function.update_of_ne hk ..
  refine ⟨⟨fun k => ?_, fun k hk => ?_⟩, ?_⟩
  · by_cases he : k = ch.snd.outTail
    · subst he
      simp [writtenChan]
    · rw [hother k he]
      exact h.buf k
  · refine (between_push (by decide) hw.room).2 ?_
    by_cases he : k = ch.snd.outTail
    · exact .inr he
    · exact .inl (h.window k (hother k he ▸ hk))
  · have hset := tokens_set (f := fun k => (ch.snd.outgoing k).buf)
      (g := fun k => ((writtenChan c ch b data).snd.outgoing k).buf) hnone (b := b)
      (by simp [writtenChan]) fun k hk => by rw [hother k hk]
    simp only [sndTokens, hset, Pool.write, poolGet_free hw.get, ← Multiset.cons_coe,
      ← Multiset.singleton_add]
    abel

theorem skipped {c : Conn} {id : ChanId} {ch : Chan} {data : List UInt8} {b : BufIdx}
    (hw : CanWrite c id data ch b p) :
    SndBalances (c.pool, ch.snd)
      (poolPut (p.write (some b) 0 data) (some b), (skippedChan ch).snd) := by
  intro h
  have hfree : (poolPut (p.write (some b) 0 data) (some b)).poolFree = c.pool.poolFree := by
    rw [poolGet_free hw.get]
    rfl
  have htail := tail_idle h
  refine same hfree (fun k => ?_) (fun k hk => hk) h
  by_cases he : k = ch.snd.outTail
  · subst he
    have := h.buf ch.snd.outTail
    rw [htail] at this
    have hnone : (ch.snd.outgoing ch.snd.outTail).buf = none := by simpa using this
    simp only [skippedChan, Function.update_self, hnone]
    exact ⟨trivial, htail.symm⟩
  · simp [skippedChan, Function.update_of_ne he]

end SndBalances

/-! ## The connection -/

/-- The buffers a channel holds. -/
def chanTokens (o : Option Chan) : Multiset BufIdx :=
  o.elim 0 fun ch => sndTokens ch.snd + rcvTokens ch.rcv

/-- All buffers of a connection. -/
def Conn.tokens (c : Conn) : Multiset BufIdx :=
  (c.pool.poolFree : Multiset BufIdx) + ∑ id, chanTokens (c.channels id)

/-- Every buffer is in one place, and the slots of every channel are in order. -/
structure PoolOk (c : Conn) : Prop where
  total : c.tokens = Finset.univ.val
  snd : ∀ id ch, c.channels id = some ch → SndSlots ch.snd
  rcv : ∀ id ch, c.channels id = some ch → RcvSlots ch.rcv

section
variable {c c' : Conn} {id : ChanId} {ch ch' : Chan}

theorem PoolOk.congr (h : PoolOk c) (hp : c'.pool.poolFree = c.pool.poolFree)
    (ht : c'.channels = c.channels) : PoolOk c' := by
  refine ⟨?_, by rw [ht]; exact h.snd, by rw [ht]; exact h.rcv⟩
  unfold Conn.tokens
  rw [hp, ht]
  exact h.total

theorem PoolOk.set (h : PoolOk c) (hc : c.channels id = some ch)
    (ht : c'.channels = Table.set c.channels id ch') (hs : SndSlots ch'.snd) (hr : RcvSlots ch'.rcv)
    (hb : (c'.pool.poolFree : Multiset BufIdx) + (sndTokens ch'.snd + rcvTokens ch'.rcv) =
      c.pool.poolFree + (sndTokens ch.snd + rcvTokens ch.rcv)) : PoolOk c' := by
  have hother : ∀ j, j ≠ id → c'.channels j = c.channels j := by
    intro j hj
    rw [ht, Table.set_of_ne _ hj]
  have hid : c'.channels id = some ch' := by rw [ht, Table.set_same]
  refine ⟨?_, fun j d hd => ?_, fun j d hd => ?_⟩
  · have hsum := sum_slot (fun j => chanTokens (c.channels j)) id
      (fun j => chanTokens (c'.channels j)) fun j hj => by rw [hother j hj]
    have h1 : chanTokens (c.channels id) = sndTokens ch.snd + rcvTokens ch.rcv := by rw [hc]; rfl
    have h2 : chanTokens (c'.channels id) = sndTokens ch'.snd + rcvTokens ch'.rcv := by rw [hid]; rfl
    rw [← h.total]
    unfold Conn.tokens
    rw [← h1, ← h2] at hb
    refine add_right_cancel (b := chanTokens (c.channels id)) ?_
    calc (c'.pool.poolFree : Multiset BufIdx) + ∑ j, chanTokens (c'.channels j) +
          chanTokens (c.channels id)
        = c'.pool.poolFree + (chanTokens (c.channels id) + ∑ j, chanTokens (c'.channels j)) := by abel
      _ = c'.pool.poolFree + chanTokens (c'.channels id) + ∑ j, chanTokens (c.channels j) := by
          rw [hsum]
          abel
      _ = c.pool.poolFree + ∑ j, chanTokens (c.channels j) + chanTokens (c.channels id) := by
          rw [hb]
          abel
  · by_cases hj : j = id
    · subst hj
      rw [hid] at hd
      cases hd
      exact hs
    · exact h.snd j d (hother j hj ▸ hd)
  · by_cases hj : j = id
    · subst hj
      rw [hid] at hd
      cases hd
      exact hr
    · exact h.rcv j d (hother j hj ▸ hd)

theorem PoolOk.setSnd (h : PoolOk c) (hc : c.channels id = some ch)
    (ht : c'.channels = Table.set c.channels id ch') (hr : ch'.rcv = ch.rcv)
    (hb : SndBalances (c.pool, ch.snd) (c'.pool, ch'.snd)) : PoolOk c' := by
  obtain ⟨hs, htok⟩ := hb (h.snd id ch hc)
  refine h.set hc ht hs (hr ▸ h.rcv id ch hc) ?_
  rw [hr, ← add_assoc, htok, add_assoc]

theorem PoolOk.setRcv (h : PoolOk c) (hc : c.channels id = some ch)
    (ht : c'.channels = Table.set c.channels id ch') (hs : ch'.snd = ch.snd)
    {x : Rx} (hp : c'.pool = x.pool) (hr : ch'.rcv = x.rcv) (hb : (c.rx ch).Balances x) :
    PoolOk c' := by
  obtain ⟨hw, htok⟩ := hb (h.rcv id ch hc)
  refine h.set hc ht (hs ▸ h.snd id ch hc) (hr ▸ hw) ?_
  simp only [Rx.tokens, Conn.rx] at htok
  rw [hs, hp, hr, add_left_comm, htok, add_left_comm]

theorem PoolOk.create (h : PoolOk c) (hn : c.channels id = none)
    (ht : c'.channels = Table.set c.channels id ch') (hs : ch'.snd = {})
    (hr : ∃ w, ch'.rcv = { recvWindow := w }) (hp : c'.pool = c.pool) : PoolOk c' := by
  obtain ⟨w, hr⟩ := hr
  have hother : ∀ j, j ≠ id → c'.channels j = c.channels j := by
    intro j hj
    rw [ht, Table.set_of_ne _ hj]
  have hid : c'.channels id = some ch' := by rw [ht, Table.set_same]
  have hS : SndSlots ch'.snd := by
    rw [hs]
    exact ⟨fun _ => rfl, fun _ h => by cases h⟩
  have hR : RcvSlots ch'.rcv := by
    rw [hr]
    exact ⟨fun _ => (decide_eq_false (Nat.not_lt_zero _)).symm, fun _ => rfl, fun _ => rfl⟩
  refine ⟨?_, fun j d hd => ?_, fun j d hd => ?_⟩
  · have hsum := sum_slot (fun j => chanTokens (c.channels j)) id
      (fun j => chanTokens (c'.channels j)) fun j hj => by rw [hother j hj]
    have h0 : chanTokens (c'.channels id) = 0 := by
      rw [hid]
      show sndTokens ch'.snd + rcvTokens ch'.rcv = 0
      rw [hs, hr]
      have hq : tokens (fun k => (({ recvWindow := w } : Receiver).recvQueue.slots k).buf) = 0 :=
        tokens_none fun _ => rfl
      unfold sndTokens rcvTokens
      rw [hq, tokens_none fun _ => rfl, tokens_none fun _ => rfl]
      rfl
    rw [hn, h0, zero_add] at hsum
    rw [← h.total]
    unfold Conn.tokens
    rw [hp]
    exact congrArg _ ((zero_add _).symm.trans hsum)
  · by_cases hj : j = id
    · subst hj
      rw [hid] at hd
      cases hd
      exact hS
    · exact h.snd j d (hother j hj ▸ hd)
  · by_cases hj : j = id
    · subst hj
      rw [hid] at hd
      cases hd
      exact hR
    · exact h.rcv j d (hother j hj ▸ hd)

/-! ## Every step -/

theorem pool_call (h : PoolOk c) (k : Call) : PoolOk (k.apply c) := by
  by_cases hs : k.Session
  · obtain ⟨h1, h2, -⟩ := apply_session c hs
    exact h.congr (by rw [h2]) h1
  cases k with
  | service env now =>
    simp only [Call.apply]
    rcases netchanService_cases env c now with ⟨-, he⟩ | ⟨-, n, he⟩
    · rw [he]
      exact h.congr rfl rfl
    · rw [he, serviceChans_allIds]
      have hp : (serviced env c now).pool = c.pool := by
        unfold serviced
        repeat' split
        all_goals rfl
      have hrcv := fun ch => (chanTimed_rcv c.cfg now ch).2
      refine ⟨?_, fun j d hd => ?_, fun j d hd => ?_⟩
      · rw [← h.total]
        unfold Conn.tokens
        refine congrArg₂ _ (by rw [← hp]) (Finset.sum_congr rfl fun j _ => ?_)
        cases hj : c.channels j with
        | none => simp [hj]
        | some ch =>
          have hb := (SndBalances.timed c.cfg now c.pool ch (h.snd j ch hj)).2
          simp only [hj, Option.map_some]
          show sndTokens (chanTimed c.cfg now ch).snd + rcvTokens (chanTimed c.cfg now ch).rcv =
            sndTokens ch.snd + rcvTokens ch.rcv
          rw [hrcv, add_left_cancel hb]
      · obtain ⟨ch, hch, rfl⟩ := Option.map_eq_some_iff.1 hd
        exact (SndBalances.timed c.cfg now c.pool ch (h.snd j ch hch)).1
      · obtain ⟨ch, hch, rfl⟩ := Option.map_eq_some_iff.1 hd
        rw [hrcv]
        exact h.rcv j ch hch
  | chanOpen type dir ct =>
    simp only [Call.apply, netchanChanOpen_eq]
    split
    · exact h
    split
    · exact h.congr rfl rfl
    · rename_i hg _
      rw [not_or] at hg
      exact h.create (Option.not_isSome_iff_eq_none.1 hg.2) rfl rfl ⟨_, rfl⟩ rfl
  | chanClose j =>
    simp only [Call.apply, netchanChanClose]
    split
    · exact h
    · rename_i ch hc
      split
      · exact h
      · exact h.setSnd hc rfl rfl (.refl _)
  | write j data =>
    simp only [Call.apply]
    rcases netchanChanWrite_cases c j data with ⟨he, -⟩ | ⟨ch, b, p, hw, ⟨-, -, he⟩ | ⟨-, -, he⟩⟩ <;>
      rw [he]
    · exact h
    · exact h.setSnd hw.chan rfl rfl (.written hw)
    · exact h.setSnd hw.chan rfl rfl (.skipped hw)
  | read j buflen =>
    simp only [Call.apply]
    rcases netchanChanRead_cases c j buflen with ⟨he, -⟩ | ⟨ch, hc, -, hq, he⟩ <;> rw [he]
    · exact h
    · refine h.setRcv hc rfl rfl (x := ⟨poolPut c.pool ch.rcv.recvQueue.front.buf, c.events, _⟩) rfl rfl
        fun hr => ?_
      -- the entry at the head is taken off and its slot emptied
      have hother : ∀ k, k ≠ ch.rcv.recvQueue.head →
          (ch.rcv.recvQueue.pop {}).slots k = ch.rcv.recvQueue.slots k :=
        fun k hk => Function.update_of_ne hk ..
      have hadv := fun k => between_advance (k := k) (by decide) hq
      refine ⟨⟨fun k => ?_, hr.reorder, hr.frags⟩, ?_⟩
      · by_cases hk : k = ch.rcv.recvQueue.head
        · subst hk
          have hnot : ¬ Between (ch.rcv.recvQueue.head + 1) ch.rcv.recvQueue.tail
              ch.rcv.recvQueue.head := by
            simp only [Between, fin_sub_val, fin_add_val, fin_one_val (show 2 ≤ ncRecvQueue by decide)]
            have h1 := ch.rcv.recvQueue.head.isLt
            have h2 := ch.rcv.recvQueue.tail.isLt
            repeat' split
            all_goals omega
          simp only [Ring.pop, Function.update_self]
          exact (decide_eq_false hnot).symm
        · rw [show ((ch.rcv.recvQueue.pop {}).slots k).buf = (ch.rcv.recvQueue.slots k).buf by
            rw [hother k hk]]
          exact (hr.queue k).trans (decide_eq_decide.2 ((hadv k).trans (or_iff_right hk)))
      · have hclear := tokens_clear (f := fun k => (ch.rcv.recvQueue.slots k).buf)
          (g := fun k => ((ch.rcv.recvQueue.pop {}).slots k).buf) (i := ch.rcv.recvQueue.head)
          (by simp [Ring.pop]) fun k hk => by rw [hother k hk]
        simp only [Rx.tokens, rcvTokens, Conn.rx, poolFree_put, ← hclear, Ring.front]
        abel
  | _ => exact absurd trivial hs

theorem pool_frame (h : PoolOk c) (env : Env) (f : Frame) : PoolOk (stepFrame env c f) := by
  by_cases hs : f.Session
  · obtain ⟨h1, h2, -⟩ := stepFrame_session env c hs
    exact h.congr (by rw [h2]) h1
  cases f with
  | channelOpen j type dir ct =>
    simp only [stepFrame, applyFrame, channelOpened_eq, Option.getD_some]
    split
    · exact h.congr rfl rfl
    · rename_i hg
      rw [not_or] at hg
      exact h.create (Option.not_isSome_iff_eq_none.1 hg.1) rfl rfl ⟨_, rfl⟩ rfl
  | channelClose j error =>
    simp only [stepFrame, applyFrame, channelClosed, Option.getD_some]
    split
    · exact h
    · rename_i ch hc
      exact h.setSnd hc rfl rfl (.refl _)
  | data j seq idx total payload =>
    simp only [stepFrame, applyFrame, dataReceived, Option.getD_some]
    split
    · exact h
    · rename_i ch hc
      obtain ⟨hu, hr⟩ := Rx.Balances.data c j ch seq idx total payload
      split
      · exact h
      split
      · exact h.setRcv hc rfl rfl rfl rfl hu
      · generalize dataReliable (maxFragPayload c) j (c.rx ch) seq idx total payload = x at hr ⊢
        refine h.setRcv hc rfl rfl (x := { x with rcv := x.rcv.ack }) rfl rfl (hr.trans ?_)
        exact .same rfl rfl rfl fun _ => ⟨rfl, rfl⟩
  | ack j seq =>
    simp only [stepFrame, applyFrame, ackReceived, Option.getD_some]
    split
    · exact h
    · rename_i ch hc
      split
      · exact h
      · have hb := SndBalances.ackScan seq (List.finRange ncOutgoingSlots) (c.pool, ch.snd)
        generalize (List.finRange ncOutgoingSlots).foldl (ackSlot seq) (c.pool, ch.snd) = r at hb ⊢
        exact h.setSnd hc rfl rfl (hb.trans (.advance _))
  | windowUpdate j w =>
    simp only [stepFrame, applyFrame, windowUpdated, Option.getD_some]
    split
    · exact h
    · rename_i ch hc
      split
      · refine h.setSnd hc rfl rfl ?_
        exact .same rfl (fun _ => ⟨rfl, rfl⟩) fun _ hk => hk
      · exact h
  | _ => exact absurd trivial hs

theorem pool_emit {now : UInt32} {f : Frame} (h : PoolOk c) (he : Emit now c f c') : PoolOk c' := by
  cases he with
  | ack hc _ =>
    exact h.setRcv hc rfl rfl (x := ⟨c.pool, c.events, _⟩) rfl rfl
      (.same rfl rfl rfl fun _ => ⟨rfl, rfl⟩)
  | window hc _ =>
    exact h.setRcv hc rfl rfl (x := ⟨c.pool, c.events, _⟩) rfl rfl
      (.same rfl rfl rfl fun _ => ⟨rfl, rfl⟩)
  | @data j ch k hc _ =>
    exact h.setSnd hc rfl (chanSent_rcv now c.pool ch k).2 (.sent now c.pool ch k)

/-- **Every step loses no buffer.** -/
theorem pool_step (h : PoolOk c) (st : Step) : PoolOk (st.apply c) := by
  cases st with
  | config cfg => exact h.congr rfl rfl
  | call k => exact pool_call h k
  | sendNext env buflen =>
    simp only [Step.apply]
    rcases netchanSendNext_cases env c buflen with he | ⟨-, fs, c', hem, he⟩ <;> rw [he]
    · exact h
    · have h1 : PoolOk (ctrlFlushed c buflen) := h.congr rfl rfl
      have h2 : PoolOk c' := hem.invariant (fun _ _ _ hd he => pool_emit hd he) h1
      exact h2.congr rfl rfl
  | header env pkt source =>
    exact h.congr (by rw [show (Step.apply c (.header env pkt source)).pool = c.pool from
      updatePeer_pool c _ source]) (updatePeer_channels c _ source)
  | frame env f => exact pool_frame h env f

theorem pool_open (server : Bool) : PoolOk (netchanOpen server) := by
  refine ⟨?_, fun id ch hc => (by cases hc), fun id ch hc => (by cases hc)⟩
  have h0 : ∑ id, chanTokens ((netchanOpen server).channels id) = 0 :=
    Finset.sum_eq_zero fun _ _ => rfl
  unfold Conn.tokens
  rw [h0, add_zero]
  show (((List.finRange ncPoolBufs).reverse : List BufIdx) : Multiset BufIdx) = Finset.univ.val
  rw [Multiset.coe_reverse]
  rfl

end

/-! ## Room on the stack -/

/-- The message that a DATA frame completes, and the state then. -/
inductive Completes (fp : Nat) (x : Rx) (seq : UInt16) (idx total : Nat) (payload : List UInt8) :
    Rx → List UInt8 → Prop
  | whole (h : total ≤ 1) : Completes fp x seq idx total payload x payload
  | last {x' : Rx} {i : Fin ncFragSlots} {pos : Nat} (h : ¬ total ≤ 1)
      (hs : fragStore fp x seq idx total payload = (x', some (i, pos))) :
      Completes fp x seq idx total payload x' (assembled x' i pos)

/-- The calls of `pool_put` that a step makes: the pool at the call, and the argument. -/
inductive Puts (c : Conn) : Step → Pool → Option BufIdx → Prop
  | read {id : ChanId} {buflen : Nat} {ch : Chan} (hc : c.channels id = some ch)
      (hr : ch.role = .receiver) (hq : ¬ ch.rcv.recvQueue.Empty) :
      Puts c (.call (.read id buflen)) c.pool ch.rcv.recvQueue.front.buf
  | refused {id : ChanId} {data : List UInt8} {ch : Chan} {b : BufIdx} {p : Pool}
      (hw : CanWrite c id data ch b p) :
      Puts c (.call (.write id data)) (p.write (some b) 0 data) (some b)
  | sent {env : Env} {buflen : Nat} {fs : List Frame} {d : Conn} {id : ChanId} {ch : Chan}
      {k : Fin ncOutgoingSlots} (he : Emits env.now (ctrlFlushed c buflen) fs d)
      (hc : d.channels id = some ch) (hs : chanSendSlot ch = some k) :
      Puts c (.sendNext env buflen) d.pool (ch.snd.outgoing k).buf
  | acked {env : Env} {id : ChanId} {seq : UInt16} {ch : Chan} {l l' : List (Fin ncOutgoingSlots)}
      {k : Fin ncOutgoingSlots} (hc : c.channels id = some ch) (hr : ch.role = .sender)
      (hl : List.finRange ncOutgoingSlots = l ++ k :: l') :
      Puts c (.frame env (.ack id seq)) (l.foldl (ackSlot seq) (c.pool, ch.snd)).1
        ((l.foldl (ackSlot seq) (c.pool, ch.snd)).2.outgoing k).buf
  | reordered {env : Env} {id : ChanId} {seq : UInt16} {idx total n : Nat} {payload data : List UInt8}
      {ch : Chan} {x y : Rx} (hc : c.channels id = some ch) (hr : ch.role = .receiver)
      (hd : Completes (maxFragPayload c) (c.rx ch) seq idx total payload x data)
      (hy : y = (deliverNext id)^[n] { x.deliver id data with
        rcv := { (x.deliver id data).rcv with recvSeq := x.rcv.recvSeq + 1 } }) :
      Puts c (.frame env (.data id seq idx total payload))
        (y.deliver id (y.pool.read (y.rcv.reorder (reorderSlot y.rcv.recvSeq)).buf 0
          (y.rcv.reorder (reorderSlot y.rcv.recvSeq)).len)).pool
        (y.rcv.reorder (reorderSlot y.rcv.recvSeq)).buf
  | assembled {env : Env} {id : ChanId} {seq : UInt16} {idx total pos : Nat} {payload : List UInt8}
      {ch : Chan} {x y : Rx} {i : Fin ncFragSlots} (hc : c.channels id = some ch)
      (hr : ch.role = .receiver)
      (hs : fragStore (maxFragPayload c) (c.rx ch) seq idx total payload = (x, some (i, pos)))
      (hy : y = x.deliver id (Netchan.assembled x i pos) ∨
        y = dataArrived id x seq (Netchan.assembled x i pos)) :
      Puts c (.frame env (.data id seq idx total payload)) y.pool (y.rcv.frags i).buf

section
variable {c : Conn} {id : ChanId} {ch : Chan} {b : BufIdx}

theorem PoolOk.card (h : PoolOk c) (hc : c.channels id = some ch) :
    c.pool.poolFree.length + (sndTokens ch.snd).card + (rcvTokens ch.rcv).card ≤ ncPoolBufs := by
  have htot := congrArg Multiset.card h.total
  rw [show (Finset.univ : Finset BufIdx).val.card = ncPoolBufs from Finset.card_fin _] at htot
  unfold Conn.tokens at htot
  rw [← Finset.add_sum_erase _ _ (Finset.mem_univ id), hc] at htot
  simp only [chanTokens, Option.elim_some, Multiset.card_add, Multiset.coe_card] at htot
  omega

/-- While a slot of the receiver state holds a buffer, there is room on the stack. -/
theorem PoolOk.roomRcv (h : PoolOk c) (hc : c.channels id = some ch) {x : Rx}
    (hb : (c.rx ch).Balances x) (hm : b ∈ rcvTokens x.rcv) : x.pool.poolFree.length < ncPoolBufs := by
  have hcard := h.card hc
  have htok := congrArg Multiset.card (hb (h.rcv id ch hc)).2
  have hpos := Multiset.card_pos_iff_exists_mem.2 ⟨b, hm⟩
  simp only [Rx.tokens, Conn.rx, Multiset.card_add, Multiset.coe_card] at htok
  omega

/-- While an outgoing slot holds a buffer, there is room on the stack. -/
theorem PoolOk.roomSnd (h : PoolOk c) (hc : c.channels id = some ch) {x : Pool × Sender}
    (hb : SndBalances (c.pool, ch.snd) x) (hm : b ∈ sndTokens x.2) :
    x.1.poolFree.length < ncPoolBufs := by
  have hcard := h.card hc
  have htok := congrArg Multiset.card (hb (h.snd id ch hc)).2
  have hpos := Multiset.card_pos_iff_exists_mem.2 ⟨b, hm⟩
  simp only [Multiset.card_add, Multiset.coe_card] at htok
  omega

theorem mem_reorder {r : Receiver} {k : Fin ncReorderSlots} (h : (r.reorder k).buf = some b) :
    b ∈ rcvTokens r :=
  Multiset.mem_add.2 (.inl (Multiset.mem_add.2 (.inr
    (mem_tokens (f := fun k => (r.reorder k).buf) h))))

theorem mem_frags {r : Receiver} {i : Fin ncFragSlots} (h : (r.frags i).buf = some b) :
    b ∈ rcvTokens r :=
  Multiset.mem_add.2 (.inr (mem_tokens (f := fun i => (r.frags i).buf) h))

theorem Completes.balances {fp : Nat} {x x' : Rx} {seq : UInt16} {idx total : Nat}
    {payload data : List UInt8} (h : Completes fp x seq idx total payload x' data) : x.Balances x' := by
  cases h with
  | whole h => exact .refl x
  | last h hs =>
    have := Rx.Balances.fragStore fp x seq idx total payload
    rwa [hs] at this

theorem balances_iterate (id : ChanId) (x : Rx) : ∀ n, x.Balances ((deliverNext id)^[n] x)
  | 0 => .refl x
  | n + 1 => by
    rw [Function.iterate_succ_apply']
    exact (balances_iterate id x n).trans (.deliverNext id _)

/-- **`pool_put` has room on the stack**, at every call. -/
theorem puts_room (h : PoolOk c) {st : Step} {p : Pool} (hp : Puts c st p (some b)) :
    p.poolFree.length < ncPoolBufs := by
  generalize hob : some b = ob at hp
  cases hp with
  | @read id buflen ch hc hr hq =>
    refine h.roomRcv hc (.refl _) (b := b) (Multiset.mem_add.2 (.inl (Multiset.mem_add.2 (.inl ?_))))
    exact mem_tokens (f := fun k => (ch.rcv.recvQueue.slots k).buf) hob.symm
  | refused hw =>
    have := h.card hw.chan
    rw [poolGet_free hw.get, List.length_cons] at this
    show _ < _
    simp only [Pool.write]
    omega
  | @sent env buflen fs d id ch k he hc hs =>
    have h1 : PoolOk (ctrlFlushed c buflen) := h.congr rfl rfl
    have h2 : PoolOk d := he.invariant (fun _ _ _ hd he => pool_emit hd he) h1
    exact h2.roomSnd hc (.refl _) (mem_tokens (f := fun k => (ch.snd.outgoing k).buf) hob.symm)
  | @acked env id seq ch l l' k hc hr hl =>
    exact h.roomSnd hc (.ackScan seq l (c.pool, ch.snd))
      (mem_tokens (f := fun k => ((l.foldl (ackSlot seq) (c.pool, ch.snd)).2.outgoing k).buf) hob.symm)
  | @reordered env id seq idx total n payload data ch x y hc hr hd hy =>
    have hx : (c.rx ch).Balances y := by
      rw [hy]
      refine hd.balances.trans (.trans (.deliver x id data) (.trans ?_ (balances_iterate id _ n)))
      exact .same rfl rfl rfl fun _ => ⟨rfl, rfl⟩
    have hre : ∀ d, (y.deliver id d).rcv.reorder = y.rcv.reorder := by
      intro d
      rcases deliver_cases y id d with ⟨-, b', fs, -, he⟩ | ⟨-, he⟩
      · rw [he]
        rfl
      · rw [he]
    exact h.roomRcv hc (hx.trans (.deliver y id _)) (mem_reorder (by rw [hre]; exact hob.symm))
  | @assembled env id seq idx total pos payload ch x y i hc hr hs hy =>
    have hx : (c.rx ch).Balances x := by
      have := Rx.Balances.fragStore (maxFragPayload c) (c.rx ch) seq idx total payload
      rwa [hs] at this
    refine h.roomRcv hc (x := y) ?_ (mem_frags hob.symm)
    rcases hy with rfl | rfl
    · exact hx.trans (.deliver x id _)
    · exact hx.trans (.dataArrived id x seq _)

end

/-! ## Conservation -/

/-- The buffers in the slots of a channel that are in use: active outgoing slots, entries of the
receive queue, valid reorder slots and active reassembly slots. -/
def Chan.heldBufs (ch : Chan) : List (Option BufIdx) :=
  ((List.finRange ncOutgoingSlots).filter fun k => (ch.snd.outgoing k).active).map
      (fun k => (ch.snd.outgoing k).buf) ++
    ((List.finRange ncRecvQueue).filter fun k =>
      decide (Between ch.rcv.recvQueue.head ch.rcv.recvQueue.tail k)).map
      (fun k => (ch.rcv.recvQueue.slots k).buf) ++
    ((List.finRange ncReorderSlots).filter fun k => (ch.rcv.reorder k).valid).map
      (fun k => (ch.rcv.reorder k).buf) ++
    ((List.finRange ncFragSlots).filter fun i => (ch.rcv.frags i).active).map
      (fun i => (ch.rcv.frags i).buf)

/-- The buffers on the free stack and in the slots in use of all channels. -/
def Conn.allBufs (c : Conn) : List (Option BufIdx) :=
  c.pool.poolFree.map some ++ allIds.flatMap fun id => ((c.channels id).map Chan.heldBufs).getD []

/-- The slots of a channel that are not in use hold no buffer. -/
structure Chan.IdleEmpty (ch : Chan) : Prop where
  out : ∀ k, (ch.snd.outgoing k).active = false → (ch.snd.outgoing k).buf = none
  queue : ∀ k, ¬ Between ch.rcv.recvQueue.head ch.rcv.recvQueue.tail k →
    (ch.rcv.recvQueue.slots k).buf = none
  reorder : ∀ k, (ch.rcv.reorder k).valid = false → (ch.rcv.reorder k).buf = none
  frags : ∀ i, (ch.rcv.frags i).active = false → (ch.rcv.frags i).buf = none

theorem coe_heldBufs {ch : Chan} (hs : SndSlots ch.snd) (hr : RcvSlots ch.rcv) :
    (ch.heldBufs : Multiset (Option BufIdx)) = (sndTokens ch.snd + rcvTokens ch.rcv).map some := by
  unfold Chan.heldBufs sndTokens rcvTokens
  rw [Multiset.map_add, Multiset.map_add, Multiset.map_add, map_some_tokens hs.buf,
    map_some_tokens hr.queue, map_some_tokens hr.reorder, map_some_tokens hr.frags]
  simp only [← Multiset.coe_add, add_assoc]

theorem PoolOk.perm {c : Conn} (h : PoolOk c) :
    c.allBufs.Perm ((List.finRange ncPoolBufs).map some) := by
  rw [← Multiset.coe_eq_coe]
  have hsum : ∀ l : List ChanId,
      ((l.flatMap fun id => ((c.channels id).map Chan.heldBufs).getD [] : List (Option BufIdx)) :
        Multiset (Option BufIdx)) = ((l.map fun id => chanTokens (c.channels id)).sum).map some := by
    intro l
    induction l with
    | nil => rfl
    | cons id l ih =>
      rw [List.flatMap_cons, ← Multiset.coe_add, ih, List.map_cons, List.sum_cons, Multiset.map_add]
      congr 1
      cases hc : c.channels id with
      | none => rfl
      | some ch => exact coe_heldBufs (h.snd id ch hc) (h.rcv id ch hc)
  unfold Conn.allBufs
  rw [← Multiset.coe_add, hsum, show allIds = List.finRange ncMaxChannels from rfl,
    ← Fin.sum_univ_def, ← Multiset.map_coe, ← Multiset.map_add, ← Multiset.map_coe]
  exact congrArg _ h.total

theorem PoolOk.idleEmpty {c : Conn} (h : PoolOk c) {id : ChanId} {ch : Chan}
    (hc : c.channels id = some ch) : ch.IdleEmpty := by
  have hs := h.snd id ch hc
  have hr := h.rcv id ch hc
  refine ⟨fun k hk => ?_, fun k hk => ?_, fun k hk => ?_, fun i hi => ?_⟩
  · have := hs.buf k
    rw [hk] at this
    simpa using this
  · have := hr.queue k
    rw [decide_eq_false hk] at this
    simpa using this
  · have := hr.reorder k
    rw [hk] at this
    simpa using this
  · have := hr.frags i
    rw [hi] at this
    simpa using this

/-- **The pool is conserved**: in every state a connection can reach, the free stack and the slots
in use hold every buffer once, the other slots hold none, `pool_put` finds room on the stack at
each of its calls, and the slot `netchan_chan_write` fills is not in use. -/
theorem pool_conserved (server : Bool) (sts : List Step) :
    let c := runConn server sts
    c.allBufs.Perm ((List.finRange ncPoolBufs).map some) ∧
      (∀ id, ∀ ch ∈ c.channels id, ch.IdleEmpty) ∧
      (∀ st p b, Puts c st p (some b) → p.poolFree.length < ncPoolBufs) ∧
      ∀ id, ∀ ch ∈ c.channels id, (ch.snd.outgoing ch.snd.outTail).active = false := by
  have h : PoolOk (runConn server sts) :=
    run_invariant (I := PoolOk) (A := fun _ _ => True) (fun c st hc _ => pool_step hc st)
      (pool_open server) (along_true sts)
  exact ⟨h.perm, fun id ch hc => h.idleEmpty hc, fun st p b hp => puts_room h hp,
    fun id ch hc => SndBalances.tail_idle (h.snd id ch hc)⟩

end Netchan
