import Netchan.Pair.Order

/-!
# What an end has seen of its peer

An end knows of its peer what the datagrams tell it that it got. `Log.seen` is a log as far as an end
knows it: its own entries, and of the peer those of an earlier log, its horizon. `Within` says that
both ends are in order even by what they have seen. So an end writes at most 16 messages more than
its horizon says were passed (`Within.near`), and it passes only messages that were written by then
(`Within.le`).
-/

namespace Netchan

open Lib

/-! ## Horizons -/

/-- The log as far as end `s` knows it, whose horizon is `h`. -/
def Log.seen (l h : Log) (s : Side) : Log :=
  { l with
    written := fun t => if t = s then l.written t else h.written t
    passed := fun t => if t = s then l.passed t else h.passed t }

/-- What `h` says of end `t` was so before `l`. -/
def Log.Covers (l h : Log) (t : Side) : Prop :=
  ∀ id, h.written t id <+: l.written t id ∧ h.passed t id ≤ l.passed t id

section
variable {l l' h h' : Log} {s t : Side}

theorem Log.Covers.refl (l : Log) (t : Side) : l.Covers l t :=
  fun _ => ⟨List.prefix_rfl, Nat.le_refl _⟩

theorem Log.Covers.trans (h1 : l.Covers h t) (h2 : h.Covers h' t) : l.Covers h' t :=
  fun id => ⟨(h2 id).1.trans (h1 id).1, (h2 id).2.trans (h1 id).2⟩

theorem Log.Le.covers (h : l.Le l') (t : Side) : l'.Covers l t :=
  fun id => ⟨h.written t id, h.passed t id⟩

@[simp] theorem Log.seen_written_self (l h : Log) (s : Side) : (l.seen h s).written s = l.written s :=
  if_pos rfl

@[simp] theorem Log.seen_passed_self (l h : Log) (s : Side) : (l.seen h s).passed s = l.passed s :=
  if_pos rfl

@[simp] theorem Log.seen_written_other (l h : Log) (s : Side) :
    (l.seen h s).written s.other = h.written s.other := if_neg s.other_ne

@[simp] theorem Log.seen_passed_other (l h : Log) (s : Side) :
    (l.seen h s).passed s.other = h.passed s.other := if_neg s.other_ne

/-- What an end notes of itself does not depend on its horizon. -/
theorem onChan_seen {α : Type} (f g : Side → ChanId → α) (s : Side) (id : ChanId) (x : α) :
    (fun t => if t = s then onChan f s id x t else g t) =
      onChan (fun t => if t = s then f t else g t) s id x := by
  funext t j
  by_cases ht : t = s
  · simp only [ht, onChan, if_true]
  · simp only [ht, onChan, if_false, false_and]

/-- A call adds to what an end has seen as it adds to the log. -/
theorem Log.called_seen (l h : Log) (s : Side) (c : Conn) (k : Call) :
    ((l.called s c k).seen h s).written = ((l.seen h s).called s c k).written ∧
      ((l.called s c k).seen h s).passed = ((l.seen h s).called s c k).passed ∧
      ((l.called s c k).seen h s).placed = ((l.seen h s).called s c k).placed := by
  cases k with
  | write id data =>
    simp only [called]
    split
    · refine ⟨(onChan_seen ..).trans ?_, rfl, rfl⟩
      simp only [seen_written_self]
      rfl
    · exact ⟨rfl, rfl, rfl⟩
  | _ =>
    unfold Log.called
    dsimp only
    repeat' split
    all_goals exact ⟨rfl, rfl, rfl⟩

/-- A frame adds to what an end has seen as it adds to the log. -/
theorem Log.frameHeard_seen (l h : Log) (s : Side) (stamp : Log) (c c' : Conn) (f : Frame) :
    ((l.frameHeard s stamp c c' f).seen h s).written =
        ((l.seen h s).frameHeard s stamp c c' f).written ∧
      ((l.frameHeard s stamp c c' f).seen h s).passed =
        ((l.seen h s).frameHeard s stamp c c' f).passed ∧
      ((l.frameHeard s stamp c c' f).seen h s).placed =
        ((l.seen h s).frameHeard s stamp c c' f).placed := by
  cases f with
  | data id seq idx total payload =>
    refine ⟨rfl, (onChan_seen ..).trans ?_, rfl⟩
    simp only [frameHeard, seen_passed_self]
    rfl
  | _ =>
    unfold Log.frameHeard
    dsimp only
    repeat' split
    all_goals exact ⟨rfl, rfl, rfl⟩

/-- The ends' logs agree on messages, so what is seen of them does. -/
theorem EndInOrder.seen_congr {c : Conn} (he : EndInOrder (l.seen h s) s c)
    (hw : l'.written = l.written) (hp : l'.passed = l.passed) (hq : l'.placed = l.placed) :
    EndInOrder (l'.seen h s) s c :=
  he.congr (by simp only [Log.seen, hw]) (by simp only [Log.seen, hp]) hq

theorem EndInOrder.seen_more {c : Conn} (he : EndInOrder (l.seen h s) s c)
    (hh : h'.Covers h s.other) : EndInOrder (l.seen h' s) s c := by
  refine he.theirs (by simp) (by simp) rfl (fun id => ?_) fun id => ?_
  · simp only [Log.seen_written_other]
    exact (hh id).1
  · simp only [Log.seen_passed_other]
    exact (hh id).2

/-- An end that is in order by what it has seen is in order. -/
theorem EndInOrder.of_seen {c : Conn} (he : EndInOrder (l.seen h s) s c) (hh : l.Covers h s.other) :
    EndInOrder l s c := by
  refine he.theirs (by simp) (by simp) rfl (fun id => ?_) fun id => ?_
  · rw [Log.seen_written_other]
    exact (hh id).1
  · rw [Log.seen_passed_other]
    exact (hh id).2

/-- The states of an end matter only up to what `Alike` compares. -/
theorem EndInOrder.alike {c c' : Conn} (he : EndInOrder l s c) (ha : c.Alike c') :
    EndInOrder l s c' := by
  obtain ⟨h1, h2, h3, h4, h5, h6⟩ := he
  have hfp : maxFragPayload c' = maxFragPayload c := maxFragPayload_congr ha.cfg
  refine ⟨(store_congr (S := ∅) h1 ha.pool ha.channels).1, ?_, ?_, ?_, ?_, ?_⟩
  · rw [ha.channels]
    exact h2
  · rw [ha.channels, ha.pool, hfp]
    exact h3
  · rw [ha.channels]
    exact h4
  · rw [ha.channels]
    intro id ch hc hr
    refine (h5 id ch hc hr).same rfl rfl (fun k _ => ?_) fun hn => ⟨hn, rfl⟩
    simp only [Rx.slotBytes, Conn.rx, ha.pool]
  · rw [ha.channels]
    exact h6

end

/-! ## The promise -/

/-- Both ends are in order by what they have seen of each other. -/
def Within (H : Side → Log) : Promise where
  inv x := ∀ s, x.log.Covers (H s) s.other ∧ EndInOrder (x.log.seen (H s) s) s (x.conn s)
  queued := Ordered.queued
  carried := Ordered.carried

section
variable {H H' : Side → Log} {x : Ends} {s : Side}

theorem Within.ordered (h : (Within H).inv x) : Ordered.inv x := fun s => (h s).2.of_seen (h s).1

/-- **An end writes** at most 16 messages more than it has seen passed. -/
theorem Within.near (h : (Within H).inv x) (s : Side) (id : ChanId) :
    (x.log.written s id).length ≤ (H s).passed s.other id + ncOutgoingSlots := by
  have hnear := (h s).2.near id
  rwa [Log.seen_written_self, Log.seen_passed_other] at hnear

/-- **An end passes** only messages that it has seen written. -/
theorem Within.le (h : (Within H).inv x) (s : Side) (id : ChanId) :
    x.log.passed s id ≤ ((H s).written s.other id).length := by
  have hle := (h s).2.le id
  rwa [Log.seen_passed_self, Log.seen_written_other] at hle

/-- The ends see more of each other. -/
theorem Within.advance (h : (Within H).inv x) (hH : ∀ s, (H' s).Covers (H s) s.other)
    (hx : ∀ s, x.log.Covers (H' s) s.other) : (Within H').inv x :=
  fun s => ⟨hx s, (h s).2.seen_more (hH s)⟩

/-- One end changes, and what the other one knows of itself does not. -/
theorem Within.stepped (h : (Within H).inv x) {c' : Conn} {l' : Log}
    (hs : EndInOrder (l'.seen (H s) s) s c') (hle : x.log.Le l')
    (hw : l'.written s.other = x.log.written s.other) (hp : l'.passed s.other = x.log.passed s.other)
    (hq : l'.placed s.other = x.log.placed s.other) :
    (Within H).inv ⟨Function.update x.conn s c', l'⟩ := by
  intro t
  refine ⟨(hle.covers t.other).trans (h t).1, ?_⟩
  by_cases ht : t = s
  · subst ht
    simp only [Function.update_self]
    exact hs
  · simp only [Function.update_of_ne ht]
    obtain rfl : t = s.other := (Side.eq_or_eq_other s t).resolve_left ht
    refine (h s.other).2.theirs ?_ ?_ hq (fun id => ?_) fun id => ?_
    · simpa using hw
    · simpa using hp
    · rw [Log.seen_written_other, Log.seen_written_other]
    · rw [Log.seen_passed_other, Log.seen_passed_other]

theorem Within.few (h : (Within H).inv x) (s : Side) (id : ChanId) :
    ((x.log.seen (H s) s).written s.other id).length ≤
      (x.log.seen (H s) s).passed s id + ncOutgoingSlots := by
  have hnear := Ordered.near (Within.ordered h) s id
  have hle := ((h s).1 id).1.length_le
  rw [Log.seen_written_other, Log.seen_passed_self]
  omega

/-- What an end can rely on when a frame reaches it whose datagram its horizon covers. -/
theorem Within.expected (h : (Within H).inv x) {stamp : Log} {f : Frame}
    (hf : f.InOrder s.other stamp) (hrec : x.log.Recent stamp) (hH : (H s).Covers stamp s.other) :
    f.Expected (x.log.seen (H s) s) s where
  chan := by
    intro id type dir ct he
    subst he
    exact hf
  data := by
    intro id seq idx total payload he
    subst he
    obtain ⟨htotal, n, hseq, hn, hlen⟩ := hf
    have hage := hrec s.other id
    have hpass := (Within.ordered h s).le id
    refine ⟨htotal.le, n, hseq, ?_, ?_⟩
    · rw [Log.seen_written_other]
      exact getElem?_of_prefix (hH id).1 hn
    · rw [Log.seen_passed_self]
      simp only [ncOutgoingSlots, maxAge] at *
      omega
  ack := by
    intro id acked he n hlt hn
    subst he
    obtain ⟨rfl, hlen⟩ := hf
    rw [Side.other_other] at hlen
    rw [Log.seen_written_self] at hlt
    rw [Log.seen_passed_other]
    have hage := hrec s id
    refine (acked_passed ?_ hn).trans (hH id).2
    simp only [ncOutgoingSlots, maxAge] at *
    omega

theorem within_called {k : Call} (h : (Within H).inv x) (hk : k.Plain (x.conn s)) :
    (Within H).inv (x.called s k) := by
  obtain ⟨hpassed, hplaced, -⟩ := x.log.called_messages s (x.conn s) k
  obtain ⟨h1, h2, h3⟩ := x.log.called_seen (H s) s (x.conn s) k
  refine Within.stepped h ?_ (Log.le_called ..) (funext fun id => ?_) (by rw [hpassed])
    (by rw [hplaced])
  · exact (endInOrder_call (h s).2 hk).congr h1 h2 h3
  · exact x.log.called_written s s.other (x.conn s) k id fun he => absurd he s.other_ne

theorem within_heard {env : Env} {stamp : Log} {f : Frame} (h : (Within H).inv x)
    (hf : f.InOrder s.other stamp) (hrec : x.log.Recent stamp) (hH : (H s).Covers stamp s.other) :
    (Within H).inv (x.heard s env stamp f) := by
  obtain ⟨hwritten, hothers, -⟩ :=
    Log.frameHeard_messages x.log s stamp (x.conn s) (stepFrame env (x.conn s) f) f
  obtain ⟨hp, hq⟩ := hothers s.other s.other_ne
  obtain ⟨h1, h2, h3⟩ :=
    x.log.frameHeard_seen (H s) s stamp (x.conn s) (stepFrame env (x.conn s) f) f
  refine Within.stepped h ?_ (Log.le_frameHeard ..) (by rw [hwritten]) hp hq
  have hexp := Within.expected h hf hrec hH
  exact (endInOrder_frame (h s).2 (Within.few h s) env stamp hexp).congr h1 h2 h3

theorem within_emitted {now : UInt32} {f : Frame} {c' : Conn} (hsound : x.Sound)
    (h : (Within H).inv x) (he : Emit now (x.conn s) f c') : (Within H).inv (x.sent s c' f) := by
  obtain ⟨hwritten, hpassed, hplaced⟩ := Log.frameSent_messages x.log s f
  obtain ⟨h1, h2, h3⟩ := Log.frameSent_messages (x.log.seen (H s) s) s f
  have hend := (endInOrder_emit (h s).2 (hsound s).ids (Within.few h s) he).1
  refine Within.stepped h ?_ (Log.le_frameSent ..) (by rw [hwritten]) (by rw [hpassed])
    (by rw [hplaced])
  exact (hend.congr h1.symm h2.symm h3.symm).seen_congr hwritten hpassed hplaced

end

theorem within_kept (H : Side → Log) : (Within H).Kept (fun x s k => k.Plain (x.conn s))
    (fun x s stamp _ => x.log.Recent stamp ∧ (H s).Covers stamp s.other) where
  grow _ h := h
  alike := by
    intro x y h hl ha s
    rw [hl]
    exact ⟨(h s).1, (h s).2.alike (ha s)⟩
  called _ h hk := ⟨within_called h hk, (ordered_called (Within.ordered h) hk).2⟩
  heard _ h _ hf hok :=
    ⟨within_heard h hf hok.1 hok.2, fun g hq => by cases hq <;> trivial⟩
  flushed := by
    intro x s f h hq
    obtain ⟨hwritten, hpassed, hplaced⟩ := Log.frameSent_messages x.log s f
    refine ⟨Within.stepped h ?_ (Log.le_frameSent ..) (by rw [hwritten]) (by rw [hpassed])
      (by rw [hplaced]), ?_⟩
    · exact (h s).2.seen_congr hwritten hpassed hplaced
    · cases f with
      | channelOpen id type dir ct => exact hq
      | data id seq idx total payload => exact hq.elim
      | ack id acked => exact hq.elim
      | _ => trivial
  emitted hs h he := ⟨within_emitted hs h he, (ordered_emitted hs (Within.ordered h) he).2⟩
  transmitted h s := ⟨(h s).1, (h s).2.seen_congr rfl rfl rfl⟩

end Netchan
