import Netchan.Pair.Order
import Netchan.Pair.Tape

/-!
# What is read

`netchan_chan_read` takes the messages of a reliable channel from the receive queue in the order in
which they were placed there: what was read and what still waits in the queue are, together, what was
placed (`Reading`).
-/

namespace Netchan

open Lib

/-- The message that a `netchan_chan_read` returns. -/
def messageRead (c : Conn) (id : ChanId) (buflen : Nat) : List (List UInt8) :=
  match (netchanChanRead c id buflen).1 with
  | .ok (b :: m) => [b :: m]
  | _ => []

section
variable {c : Conn} {id : ChanId}

/-- **A step leaves a receive queue alone** that it neither reads from nor brings DATA for. -/
theorem queued_left (h : StoreOk c) {st : Step} (hfit : FramesFit c st) (hst : ¬ Receives id st) :
    queued (st.apply c) id = queued c id := by
  obtain ⟨-, hch⟩ := step_store h hfit
  have hkind := step_chan c st id
  generalize hc : c.channels id = o at hkind
  generalize hc' : (st.apply c).channels id = o' at hkind
  cases hkind with
  | absent => simp only [queued, hc, hc']
  | created hid hsnd hrcv =>
    simp only [queued, hc, hc', hrcv]
    rfl
  | @kept ch ch' hk hrc =>
    rw [queued_rx hc, queued_rx hc']
    obtain ⟨-, hS⟩ := not_receives (g := {}) (c := c) hst
    generalize hr : ch'.rcv = r at hrc
    cases hrc with
    | flags hf =>
      obtain ⟨a, w, hf, -⟩ := hf
      exact queue_frame h hc hch (fun k => (hS k).1) (by rw [hr, hf])
    | read buflen => exact absurd (.read buflen) hst
    | data env seq idx total payload => exact absurd (.data env seq idx total payload) hst

theorem queued_emit {c' : Conn} (h : StoreOk c) (hids : ∀ j d, c.channels j = some d → d.id = j)
    {now : UInt32} {f : Frame} (he : Emit now c f c') : queued c' id = queued c id := by
  obtain ⟨-, hch⟩ := store_emit h he
  have hS (k : Fin ncRecvQueue) : (id, Loc.queue k) ∉ bestEffort c.channels := by
    intro hm
    obtain ⟨d, -, -, i, hi⟩ := hm
    cases hi
  have hkept := emit_effect he hids id
  cases hc' : c'.channels id with
  | none => simp only [queued, hc', hkept.1 hc']
  | some ch' =>
    rcases hkept.2 ch' hc' with ⟨hn, hnew⟩ | ⟨ch, hc, hq⟩
    · simp only [queued, hc', hn, hnew.rcv]
      rfl
    · rw [queued_rx hc, queued_rx hc']
      refine queue_frame h hc hch hS ?_
      cases hq with
      | @data k hs => rw [(chanSent_rcv now c.pool ch k).2]
      | _ => rfl

/-- **A DATA frame** adds to the end of the receive queue. -/
theorem queued_data (h : StoreOk c) (hrel : ∀ ch, c.channels id = some ch → ch.type = .reliable)
    (env : Env) {seq : UInt16} {idx total : Nat} {payload : List UInt8}
    (hfit : FramesFit c (.frame env (.data id seq idx total payload))) :
    queued c id <+: queued (stepFrame env c (.data id seq idx total payload)) id := by
  by_cases hr : ∃ ch, c.channels id = some ch ∧ ch.role = .receiver
  · obtain ⟨ch, hc, hr⟩ := hr
    have htype : ch.type ≠ .unreliable := by
      rw [hrel ch hc]
      nofun
    have hspec := dataReliable_spec seq idx total payload (rx_ok h hc) (hfit ch hc hr)
    obtain ⟨l, hq, -⟩ := hspec.queue
    rw [stepFrame_data env hc hr htype, queued_rx hc]
    refine ⟨l, hq.symm.trans ?_⟩
    rw [queued_rx (Table.set_same ..)]
    rfl
  · rw [data_unheard env fun ch hc hrole => hr ⟨ch, hc, hrole⟩]

/-- **A read** takes the oldest message, if there is room for it. -/
theorem queued_read {buflen : Nat} (hwhole : (Call.read id buflen).TakesWhole c id)
    (hpos : ∀ m ∈ queued c id, m ≠ []) :
    messageRead c id buflen ++ queued ((Call.read id buflen).apply c) id = queued c id := by
  rcases netchanChanRead_cases c id buflen with ⟨he, hnil, -⟩ | ⟨ch, hc, hr, hne, he⟩
  · have hnone : messageRead c id buflen = [] := by
      unfold messageRead
      split
      · rename_i b m hread
        cases hnil _ hread
      · rfl
    rw [hnone, List.nil_append, Call.apply, he]
  · obtain ⟨m, hm⟩ := queue_read c hne buflen
    have hq : queued c id = m :: _ := (queued_rx hc).trans hm
    have hlen : m.length ≤ buflen := hwhole rfl m (by rw [hq]; rfl)
    have hfront := read_front hc hr hm buflen
    rw [List.take_of_length_le hlen] at hfront
    have hread : messageRead c id buflen = [m] := by
      obtain ⟨b, m', rfl⟩ := List.exists_cons_of_ne_nil (hpos m (by rw [hq]; exact .head _))
      rw [messageRead, hfront]
    rw [hread, hq, Call.apply, he, queued_rx (Table.set_same ..)]
    rfl

end

/-! ## The promise -/

/-- `R` is what was read so far. -/
def Reading (R : Side → ChanId → List (List UInt8)) : Promise where
  inv x := Ordered.inv x ∧ ∀ s id, R s id ++ queued (x.conn s) id = x.log.placed s id
  queued := Ordered.queued
  carried := Ordered.carried

section
variable {R : Side → ChanId → List (List UInt8)} {x : Ends} {s : Side}

/-- One end changes: what its channels read and queue is what they placed. -/
theorem Reading.stepped (h : (Reading R).inv x) {c' : Conn} {l' : Log}
    (hord : Ordered.inv ⟨Function.update x.conn s c', l'⟩)
    (hs : ∀ id, R s id ++ queued c' id = l'.placed s id)
    (hq : l'.placed s.other = x.log.placed s.other) :
    (Reading R).inv ⟨Function.update x.conn s c', l'⟩ := by
  refine ⟨hord, fun t id => ?_⟩
  by_cases ht : t = s
  · subst ht
    simp only [Function.update_self]
    exact hs id
  · simp only [Function.update_of_ne ht]
    obtain rfl : t = s.other := (Side.eq_or_eq_other s t).resolve_left ht
    rw [hq]
    exact h.2 s.other id

theorem reading_called {k : Call} (h : (Reading R).inv x) (hk : k.Plain (x.conn s))
    (hread : ∀ id buflen, k ≠ .read id buflen) : (Reading R).inv (x.called s k) := by
  obtain ⟨-, hplaced, -⟩ := Log.called_messages x.log s (x.conn s) k
  refine Reading.stepped h (ordered_called h.1 hk).1 (fun id => ?_) (by rw [hplaced])
  have hno : ¬ Receives id (.call k) := by
    intro hr
    cases hr with
    | read buflen => exact hread id buflen rfl
  have hfit : FramesFit (x.conn s) (.call k) := trivial
  rw [hplaced]
  exact (congrArg _ (queued_left (h.1 s).store hfit hno)).trans (h.2 s id)

theorem reading_heard {env : Env} {stamp : Log} {f : Frame} (h : (Reading R).inv x)
    (hle : stamp.Le x.log) (hf : f.InOrder s.other stamp) (hrec : x.log.Recent stamp) :
    (Reading R).inv (x.heard s env stamp f) := by
  obtain ⟨-, hothers, hidle⟩ :=
    Log.frameHeard_messages x.log s stamp (x.conn s) (stepFrame env (x.conn s) f) f
  refine Reading.stepped h (ordered_heard h.1 hle hf hrec) (fun id => ?_) (hothers s.other s.other_ne).2
  have hfit : FramesFit (x.conn s) (.frame env f) := by
    cases f with
    | data j seq idx total payload =>
      intro ch hc hr htotal
      have := hf.1
      omega
    | _ => trivial
  by_cases hdata : ∃ seq idx total payload, f = .data id seq idx total payload
  · obtain ⟨seq, idx, total, payload, rfl⟩ := hdata
    obtain ⟨l, hl⟩ := queued_data (h.1 s).store ((h.1 s).reliable id) env hfit
    simp only [Log.frameHeard, onChan_same]
    rw [← hl, List.drop_left, ← h.2 s id, List.append_assoc]
  · have hno : ¬ Receives id (.frame env f) := by
      intro hr
      cases hr with
      | data env seq idx total payload => exact hdata ⟨_, _, _, _, rfl⟩
    rw [(hidle id fun seq idx total payload he => absurd ⟨_, _, _, _, he⟩ hdata).2]
    exact (congrArg _ (queued_left (h.1 s).store hfit hno)).trans (h.2 s id)

theorem reading_kept (R : Side → ChanId → List (List UInt8)) : (Reading R).Kept
    (fun x s k => k.Plain (x.conn s) ∧ ∀ id buflen, k ≠ .read id buflen)
    (fun x _ stamp _ => x.log.Recent stamp) where
  grow _ h := h
  alike := by
    intro x y h hl ha
    refine ⟨ordered_kept.alike h.1 hl ha, fun s id => ?_⟩
    rw [hl, ← h.2 s id, queued, queued, (ha s).channels, (ha s).pool]
  called _ h hk := ⟨reading_called h hk.1 hk.2, (ordered_called h.1 hk.1).2⟩
  heard _ h hle hf hrec :=
    ⟨reading_heard h hle hf hrec, fun g hq => by cases hq <;> trivial⟩
  flushed := by
    intro x s f h hq
    obtain ⟨h1, h2⟩ := ordered_kept.flushed h.1 hq
    refine ⟨Reading.stepped h h1 (fun id => ?_) ?_, h2⟩
    · rw [(Log.frameSent_messages x.log s f).2.2]
      exact h.2 s id
    · rw [(Log.frameSent_messages x.log s f).2.2]
  emitted := by
    intro x s now f c' hs h he
    obtain ⟨h1, h2⟩ := ordered_emitted hs h.1 he
    refine ⟨Reading.stepped h h1 (fun id => ?_) ?_, h2⟩
    · rw [queued_emit (h.1 s).store (hs s).ids he, (Log.frameSent_messages x.log s f).2.2]
      exact h.2 s id
    · rw [(Log.frameSent_messages x.log s f).2.2]
  transmitted h := ⟨ordered_kept.transmitted h.1, h.2⟩

/-- **A read** moves the oldest message of the queue to what was read. -/
theorem reading_read {id : ChanId} {buflen : Nat} (h : (Reading R).inv x)
    (hwhole : (Call.read id buflen).TakesWhole (x.conn s) id)
    (hpos : ∀ m ∈ queued (x.conn s) id, m ≠ []) :
    (Reading (onChan R s id (R s id ++ messageRead (x.conn s) id buflen))).inv
      (x.called s (.read id buflen)) := by
  have hplain : (Call.read id buflen).Plain (x.conn s) := trivial
  refine ⟨(ordered_called h.1 hplain).1, fun t j => ?_⟩
  change _ ++ queued (Function.update x.conn s _ t) j = x.log.placed t j
  by_cases ht : t = s
  · subst ht
    rw [Function.update_self]
    by_cases hj : j = id
    · subst hj
      rw [onChan_same, List.append_assoc, queued_read hwhole hpos]
      exact h.2 t j
    · have hno : ¬ Receives j (.call (.read id buflen)) := by
        intro hr
        cases hr
        exact hj rfl
      rw [onChan_of_id _ _ _ _ _ hj]
      have hfit : FramesFit (x.conn t) (.call (.read id buflen)) := trivial
      exact (congrArg _ (queued_left (h.1 t).store hfit hno)).trans (h.2 t j)
  · rw [Function.update_of_ne ht, onChan_of_side _ _ _ _ ht]
    exact h.2 t j

end

end Netchan
