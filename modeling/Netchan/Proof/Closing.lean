import Netchan.Proof.Effect
import Netchan.Proof.Session

/-!
# The end of a channel

Two places report the end of a channel: a CHANNEL_CLOSE of the peer, and a `netchan_service` that
gives up on a message. Neither looks whether the channel is closed already, so both report it again
when they are reached again (`close_reported_twice`). `close_once`: in every run in which they are
reached only for channels that are not closed, each channel's end is reported at most once. A
channel that is closed stays closed, and every report closes its channel.
-/

namespace Netchan

open Lib

/-! ## Giving up on a message -/

/-- A message was sent `NC_MAX_RT_ATTEMPTS` times and its timer has run out. -/
def Chan.Exhausted (ch : Chan) (cfg : Cfg) (now : UInt32) : Prop :=
  (ch.role = .sender ∧ ch.type = .reliable) ∧
    ∃ k, (ch.snd.outgoing k).Due cfg now ∧ ncMaxRtAttempts ≤ (ch.snd.outgoing k).attempts

instance (ch : Chan) (cfg : Cfg) (now : UInt32) : Decidable (ch.Exhausted cfg now) :=
  inferInstanceAs (Decidable (_ ∧ _))

/-- The CHAN_CLOSE events of the timers: at most one for a channel, and only for one that is closed
by it. -/
theorem serviceChans_closes (cfg : Cfg) (now : UInt32) (id : ChanId) : ∀ (is : List ChanId)
    (ev : Events) (t : Table) (n : Int), is.Nodup →
    ∃ l, (serviceChans cfg now is (ev, t) n).1.1.toList = ev.toList ++ l ∧
      l.count (.chanClose id) ≤ 1 ∧
      (0 < l.count (.chanClose id) → id ∈ is ∧ ∃ ch, t id = some ch ∧ ch.Exhausted cfg now ∧
        (chanTimed cfg now ch).state = .closed)
  | [], ev, t, n, _ => ⟨[], by simp [serviceChans], by simp, by simp⟩
  | i :: is, ev, t, n, h => by
    obtain ⟨hi, hn⟩ := List.nodup_cons.1 h
    -- the rest of the table, after a write to the channel at `i`
    have rest : ∀ (ev' : Events) (t' : Table) (m : Int), (∀ j, j ≠ i → t' j = t j) →
        ∃ l, (serviceChans cfg now is (ev', t') m).1.1.toList = ev'.toList ++ l ∧
          l.count (.chanClose id) ≤ 1 ∧ (0 < l.count (.chanClose id) → id ≠ i ∧ id ∈ i :: is ∧
            ∃ ch, t id = some ch ∧ ch.Exhausted cfg now ∧
              (chanTimed cfg now ch).state = .closed) := by
      intro ev' t' m ht
      obtain ⟨l, hl, h1, h2⟩ := serviceChans_closes cfg now id is ev' t' m hn
      refine ⟨l, hl, h1, fun hpos => ?_⟩
      obtain ⟨hmem, ch, hch, h3⟩ := h2 hpos
      have hne : id ≠ i := fun he => hi (he ▸ hmem)
      exact ⟨hne, .tail _ hmem, ch, (ht id hne).symm.trans hch, h3⟩
    have skip : ∀ (t' : Table) (m : Int), (∀ j, j ≠ i → t' j = t j) →
        ∃ l, (serviceChans cfg now is (ev, t') m).1.1.toList = ev.toList ++ l ∧
          l.count (.chanClose id) ≤ 1 ∧ (0 < l.count (.chanClose id) → id ∈ i :: is ∧
            ∃ ch, t id = some ch ∧ ch.Exhausted cfg now ∧
              (chanTimed cfg now ch).state = .closed) := by
      intro t' m ht
      obtain ⟨l, hl, h1, h2⟩ := rest ev t' m ht
      exact ⟨l, hl, h1, fun hpos => (h2 hpos).2⟩
    unfold serviceChans
    split
    · exact skip t n fun _ _ => rfl
    · rename_i ch hc
      split
      · exact skip t n fun _ _ => rfl
      · rename_i hr
        rw [not_or, not_not, not_not] at hr
        split
        · rename_i s m hs
          obtain ⟨l, hl, h1, h2⟩ := rest (ev.offer (.chanClose i)) (Table.set t i _) m
            fun j hj => Table.set_of_ne _ hj { ch with snd := s, state := .closed }
          rw [Ring.toList_offer (by decide)] at hl
          split at hl
          · exact ⟨l, hl, h1, fun hpos => (h2 hpos).2⟩
          refine ⟨.chanClose i :: l, by rw [hl]; simp, ?_⟩
          by_cases he : id = i
          · subst he
            have hzero : l.count (.chanClose id) = 0 := by
              by_contra hpos
              exact (h2 (Nat.pos_of_ne_zero hpos)).1 rfl
            refine ⟨by simp [hzero], fun _ => ⟨.head _, ch, hc, ⟨hr, ?_⟩, ?_⟩⟩
            · obtain ⟨-, -, hdead⟩ := serviceSlots_cases cfg now (List.finRange ncOutgoingSlots)
                ch.snd n (List.nodup_finRange _)
              rw [hs] at hdead
              obtain ⟨k, -, hdue, hmax⟩ := hdead rfl
              exact ⟨k, hdue, hmax⟩
            · have hwait := (serviceSlots_wait cfg now (List.finRange ncOutgoingSlots) ch.snd n 0).2
              rw [hs] at hwait
              have hr' : ¬ (ch.role ≠ .sender ∨ ch.type ≠ .reliable) := by simp [hr]
              rw [chanTimed, if_neg hr']
              exact if_pos hwait.symm
          · have hne : Event.chanClose i ≠ Event.chanClose id := by
              intro h'
              cases h'
              exact he rfl
            rw [List.count_cons_of_ne hne]
            exact ⟨h1, fun hpos => (h2 hpos).2⟩
        · rename_i s m hs
          exact skip _ _ fun j hj => Table.set_of_ne _ hj _

/-! ## Every step -/

/-- What reports the end of a channel is reached only for channels that are not closed. -/
def Step.ClosesOnce (c : Conn) : Step → Prop
  | .frame _ (.channelClose id _) => ∀ ch ∈ c.channels id, ch.state ≠ .closed
  | .call (.service _ now) => ¬ GivesUp c now →
    ∀ id, ∀ ch ∈ c.channels id, ch.state = .closed → ¬ ch.Exhausted c.cfg now
  | _ => True

instance (c : Conn) : ∀ st : Step, Decidable (st.ClosesOnce c)
  | .frame _ (.channelClose id _) =>
    inferInstanceAs (Decidable (∀ ch ∈ c.channels id, ch.state ≠ .closed))
  | .call (.service _ now) => inferInstanceAs (Decidable (¬ GivesUp c now →
      ∀ id, ∀ ch ∈ c.channels id, ch.state = .closed → ¬ ch.Exhausted c.cfg now))
  | .frame _ (.connectInit _) | .frame _ (.connectAccept _ _ _) | .frame _ (.connectRedirect _ _)
  | .frame _ (.disconnect _) | .frame _ (.ping _) | .frame _ (.pong _)
  | .frame _ (.channelOpen _ _ _ _) | .frame _ (.data _ _ _ _ _) | .frame _ (.ack _ _)
  | .frame _ (.windowUpdate _ _) | .config _ | .sendNext _ _ | .header _ _ _
  | .call (.connect _ _) | .call .accept | .call .disconnect | .call (.chanOpen _ _ _)
  | .call (.chanClose _) | .call (.write _ _) | .call (.read _ _) | .call .poll =>
    .isTrue trivial

/-- The channel is closed. -/
def Closed (c : Conn) (id : ChanId) : Prop := ∃ ch, c.channels id = some ch ∧ ch.state = .closed

instance (c : Conn) (id : ChanId) : Decidable (Closed c id) :=
  decidable_of_iff ((c.channels id).any fun ch => decide (ch.state = .closed)) (by
    simp [Option.any_eq_true, Closed])

section
variable {c c' : Conn} {id : ChanId}

theorem closed_kept {Q : Chan → Chan → Prop} (h : Closed c id)
    (hk : ChanKept c c' id Q) (hQ : ∀ ch ch', Q ch ch' → ch.state = .closed → ch'.state = .closed) :
    Closed c' id := by
  obtain ⟨ch, hc, hs⟩ := h
  obtain ⟨ch', hc', hq⟩ := hk.chan hc
  exact ⟨ch', hc', hQ _ _ hq hs⟩

theorem chanTimed_closed {cfg : Cfg} {now : UInt32} {ch : Chan} (h : ch.state = .closed) :
    (chanTimed cfg now ch).state = .closed := by
  unfold chanTimed
  split
  · exact h
  · dsimp only
    split
    · rfl
    · exact h

theorem emit_closed {now : UInt32} {f : Frame} (he : Emit now c f c')
    (h : Closed c id) : Closed c' id := by
  obtain ⟨ch, hc, hs⟩ := h
  have set {t : Table} {j : ChanId} {d d' : Chan} (ht : t = Table.set c.channels j d')
      (hd : c.channels j = some d) (hst : d'.state = d.state) :
      ∃ ch', t id = some ch' ∧ ch'.state = .closed := by
    rw [ht]
    by_cases hj : id = j
    · subst hj
      rw [hc] at hd
      cases hd
      exact ⟨d', Table.set_same .., hst.trans hs⟩
    · exact ⟨ch, (Table.set_of_ne _ hj _).trans hc, hs⟩
  cases he with
  | ack hd hn => exact set rfl hd rfl
  | window hd hn => exact set rfl hd rfl
  | @data j d k hd hsl =>
    refine set rfl hd ?_
    unfold chanSent
    dsimp only
    split <;> rfl

/-- **A closed channel stays closed.** -/
theorem closed_step (h : Closed c id) (st : Step) : Closed (st.apply c) id := by
  cases st with
  | config cfg => exact h
  | call k =>
    refine closed_kept h (call_effect c k id) fun ch ch' hq hs => ?_
    cases hq with
    | timed hg => exact chanTimed_closed hs
    | closing hn => exact absurd (.inr hs) hn
    | written hw hf ha => exact hs
    | skipped hw hf ha => exact hs
    | _ => exact hs
  | sendNext env buflen =>
    simp only [Step.apply]
    rcases netchanSendNext_cases env c buflen with he | ⟨-, fs, c', hem, he⟩
    · rw [he]
      exact h
    · rw [he]
      have hinv : Closed c' id :=
        hem.invariant (I := fun d => Closed d id) (fun _ _ _ hi he => emit_closed he hi) h
      exact hinv
  | header env pkt source =>
    simp only [Step.apply, fedConn, Closed]
    rw [updatePeer_channels]
    exact h
  | frame env f =>
    refine closed_kept h (frame_effect env c f id) fun ch ch' hq hs => ?_
    cases hq with
    | closed => rfl
    | window hr => simp [hs]
    | _ => exact hs

/-- A frame that is not a CHANNEL_CLOSE of the channel does not report its end. -/
theorem frame_spares (env : Env) (c : Conn) {f : Frame} (hf : ∀ error, f ≠ .channelClose id error) :
    Grows (· ≠ .chanClose id) c.events (stepFrame env c f).events := by
  cases f with
  | connectInit j =>
    simp only [stepFrame, applyFrame, initReceived]
    by_cases h1 : c.server <;> by_cases h2 : c.state = .new <;> simp only [h1, h2, ↓reduceIte] <;>
      exact .refl _
  | connectAccept j v idle =>
    simp only [stepFrame, applyFrame]
    split
    · exact .refl _
    · exact .offer _ Event.noConfusion
  | connectRedirect j addr => exact .offer _ Event.noConfusion
  | disconnect reason =>
    simp only [stepFrame, applyFrame, disconnectReceived, Option.getD_some]
    split
    · exact .offer _ Event.noConfusion
    · exact .offer _ Event.noConfusion
    · exact .refl _
    · exact .refl _
    · exact .refl _
  | ping opaq => exact .refl _
  | pong opaq =>
    simp only [stepFrame, applyFrame, pongReceived, Option.getD_some]
    split <;> exact .refl _
  | channelOpen j type dir ct =>
    simp only [stepFrame, applyFrame, channelOpened_eq, Option.getD_some]
    split
    · exact .refl _
    · exact .offer _ Event.noConfusion
  | channelClose j error =>
    have hj : j ≠ id := fun he => hf error (he ▸ rfl)
    simp only [stepFrame, applyFrame, channelClosed, Option.getD_some]
    split
    · exact .refl _
    · exact .offer _ fun he => hj (by cases he; rfl)
  | data j seq fragIdx fragTotal payload =>
    have hd : Event.data j ≠ .chanClose id := Event.noConfusion
    simp only [stepFrame, applyFrame, dataReceived, Option.getD_some]
    repeat' split
    · exact .refl _
    · exact .refl _
    · exact dataUnreliable_events hd _ _ _ _ _ _
    · exact dataReliable_events hd _ _ _ _ _ _
  | ack j seq =>
    simp only [stepFrame, applyFrame, ackReceived, Option.getD_some]
    repeat' split
    all_goals exact .refl _
  | windowUpdate j w =>
    simp only [stepFrame, applyFrame, windowUpdated, Option.getD_some]
    repeat' split
    all_goals exact .refl _

theorem call_spares (c : Conn) {k : Call} (hp : k ≠ .poll) (hs : ∀ env now, k ≠ .service env now) :
    Grows (· ≠ .chanClose id) c.events (k.apply c).events := by
  cases k with
  | connect env addr =>
    simp only [Call.apply, netchanConnect]
    repeat' split
    all_goals exact .refl _
  | accept =>
    simp only [Call.apply, netchanAccept]
    repeat' split
    · exact .refl _
    · exact .refl _
    · exact .offer _ Event.noConfusion
  | disconnect =>
    simp only [Call.apply, netchanDisconnect]
    split <;> exact .refl _
  | service env now => exact absurd rfl (hs env now)
  | chanOpen type dir ct =>
    simp only [Call.apply, netchanChanOpen_eq]
    repeat' split
    all_goals exact .refl _
  | chanClose j =>
    simp only [Call.apply, netchanChanClose]
    repeat' split
    all_goals exact .refl _
  | write j data =>
    simp only [Call.apply, netchanChanWrite]
    repeat' split
    all_goals exact .refl _
  | read j buflen =>
    simp only [Call.apply, netchanChanRead]
    repeat' split
    all_goals exact .refl _
  | poll => exact absurd rfl hp

/-- The reports of a channel's end still to come at most. -/
def closesDue (c : Conn) (id : ChanId) : Nat := if Closed c id then 0 else 1

theorem closesDue_le (h : Closed c id → Closed c' id) : closesDue c' id ≤ closesDue c id := by
  unfold closesDue
  split
  · exact Nat.zero_le _
  · rename_i hc
    rw [if_neg fun h' => hc (h h')]

theorem spared (hg : Grows (· ≠ .chanClose id) c.events c'.events) (h : Closed c id → Closed c' id) :
    (appended c.events c'.events).count (.chanClose id) + closesDue c' id ≤ closesDue c id := by
  obtain ⟨l, hl, hq⟩ := hg
  rw [appended, hl, List.drop_left, List.count_eq_zero.2 fun he => hq _ he rfl, Nat.zero_add]
  exact closesDue_le h

theorem reported {l : List Event} (hl : c'.events.toList = c.events.toList ++ l)
    (h1 : l.count (.chanClose id) ≤ 1)
    (h2 : 0 < l.count (.chanClose id) → ¬ Closed c id ∧ Closed c' id)
    (h : Closed c id → Closed c' id) :
    (appended c.events c'.events).count (.chanClose id) + closesDue c' id ≤ closesDue c id := by
  rw [appended, hl, List.drop_left]
  rcases Nat.eq_zero_or_pos (l.count (.chanClose id)) with hz | hpos
  · rw [hz, Nat.zero_add]
    exact closesDue_le h
  · obtain ⟨hn, hc⟩ := h2 hpos
    rw [closesDue, closesDue, if_pos hc, if_neg hn]
    exact h1

/-- **What a step does to a channel's end**: a report of it was due, and none is due any more. -/
theorem step_closes {st : Step} (hok : st.ClosesOnce c) (id : ChanId) :
    (pushed c st).count (.chanClose id) + closesDue (st.apply c) id ≤ closesDue c id := by
  have hkeep : Closed c id → Closed (st.apply c) id := fun h => closed_step h st
  by_cases hpoll : st = .call .poll
  · subst hpoll
    simpa [pushed] using closesDue_le hkeep
  rw [pushed_of_ne hpoll]
  cases st with
  | config cfg => exact spared (.refl _) hkeep
  | sendNext env buflen =>
    refine spared ?_ hkeep
    simp only [Step.apply, (sendNext_same env c buflen).2]
    exact .refl _
  | header env pkt source =>
    refine spared ?_ hkeep
    show Grows _ _ (updatePeer c _ source).events
    rw [(updatePeer_session c _ source).2]
    exact .refl _
  | frame env f =>
    by_cases hf : ∃ error, f = .channelClose id error
    · obtain ⟨error, rfl⟩ := hf
      cases hc : c.channels id with
      | none =>
        refine spared ?_ hkeep
        simp only [Step.apply, stepFrame, applyFrame, channelClosed, hc, Option.getD_some]
        exact .refl _
      | some ch =>
        have hstep : stepFrame env c (.channelClose id error) =
            evPush (c.setChan id { ch with state := .closed }) (.chanClose id) := by
          simp only [stepFrame, applyFrame, channelClosed, hc, Option.getD_some]
        have hnew : Closed (stepFrame env c (.channelClose id error)) id := by
          rw [hstep]
          exact ⟨{ ch with state := .closed }, Table.set_same .., rfl⟩
        have hopen : ¬ Closed c id := by
          rintro ⟨d, hd, hst⟩
          exact hok d hd hst
        have hpush : Pushes (.chanClose id) c.events (stepFrame env c (.channelClose id error)).events := by
          rw [hstep]
          exact pushes_offer _ _
        rcases hpush with hl | hl
        · exact reported (l := []) (by rw [List.append_nil]; exact hl) (by simp) (by simp) hkeep
        · exact reported hl (by simp) (fun _ => ⟨hopen, hnew⟩) hkeep
    · push Not at hf
      exact spared (frame_spares env c hf) hkeep
  | call k =>
    by_cases hs : ∃ env now, k = .service env now
    · obtain ⟨env, now, rfl⟩ := hs
      simp only [Step.apply, Call.apply] at hkeep ⊢
      rcases netchanService_cases env c now with ⟨-, he⟩ | ⟨hg, n, he⟩ <;> rw [he] at hkeep ⊢
      · exact spared (.offer _ Event.noConfusion) hkeep
      · obtain ⟨l, hl, h1, h2⟩ := serviceChans_closes c.cfg now id allIds c.events c.channels n
          (List.nodup_finRange _)
        refine reported hl h1 (fun hpos => ?_) hkeep
        obtain ⟨-, ch, hch, hex, hst⟩ := h2 hpos
        refine ⟨?_, chanTimed c.cfg now ch, ?_, hst⟩
        · rintro ⟨d, hd, hclosed⟩
          rw [hch] at hd
          cases hd
          exact hok hg id ch hch hclosed hex
        · simp only [serviceChans_allIds, hch, Option.map_some]
    · push Not at hs
      exact spared (call_spares c (fun he => hpoll (by rw [he])) hs) hkeep

theorem run_closes (id : ChanId) : ∀ {c : Conn} {sts : List Step},
    Along Step.apply (fun c st => st.ClosesOnce c) c sts →
    (pushedAlong c sts).count (.chanClose id) ≤ closesDue c id
  | _, [], _ => by simp [pushedAlong]
  | c, st :: sts, h => by
    have h1 := step_closes h.1 id
    have h2 := run_closes id h.2
    rw [pushedAlong, List.count_append]
    omega

end

/-- **A channel's end is reported once**, along every run in which a CHANNEL_CLOSE and a timer that
gives up meet only channels that are not closed. -/
theorem close_once {server : Bool} {sts : List Step}
    (h : Along Step.apply (fun c st => st.ClosesOnce c) (netchanOpen server) sts) (id : ChanId) :
    (pushedAlong (netchanOpen server) sts).count (.chanClose id) ≤ 1 := by
  refine (run_closes id h).trans ?_
  unfold closesDue
  split <;> decide

/-- A channel that both ends close. -/
def closingSteps : List Step :=
  [.frame { entropy := 9 } (.connectInit 7), .call .accept,
    .frame {} (.channelOpen 0 .reliable .send []), .call (.chanClose 0),
    .frame {} (.channelClose 0 0)]

theorem close_once_both :
    Along Step.apply (fun c st => st.ClosesOnce c) (netchanOpen true) closingSteps ∧
      (pushedAlong (netchanOpen true) closingSteps).count (.chanClose 0) ≤ 1 ∧
      pushedAlong (netchanOpen true) closingSteps = [.connected, .chanOpen 0, .chanClose 0] := by
  have h : Along Step.apply (fun c st => st.ClosesOnce c) (netchanOpen true) closingSteps := by
    decide +kernel
  exact ⟨h, close_once h 0, by decide +kernel⟩

/-- **A duplicate of the CHANNEL_CLOSE reports the end again.** -/
theorem close_reported_twice :
    (pushedAlong (netchanOpen true) (closingSteps ++ [.frame {} (.channelClose 0 0)])).count
      (.chanClose 0) = 2 := by
  decide +kernel

end Netchan
