import Netchan.Pair.Promise

/-!
# Attempts and transmissions

`attempts` of an outgoing slot counts the times `netchan_service` queued its message, not the times
the message went out. The two agree as long as `netchan_service` never finds a message whose timer
has run out before its last fragment was sent again (`AllSent`): then a message that is given up
after `NC_MAX_RT_ATTEMPTS` attempts was transmitted that often.
-/

namespace Netchan

open Lib

/-- Neither closed nor being closed. -/
def Chan.Live (ch : Chan) : Prop := ch.state ≠ .closing ∧ ch.state ≠ .closed

instance (ch : Chan) : Decidable ch.Live := inferInstanceAs (Decidable (_ ∧ _))

/-- Every attempt was a transmission, except for the one under way. -/
def Outgoing.Counted (o : Outgoing) (transmissions : Nat) : Prop :=
  o.attempts ≤ transmissions + if o.fragSent < o.fragTotal then 1 else 0

theorem Outgoing.counted_requeued {o : Outgoing} {n : Nat} (h : o.attempts ≤ n)
    (hpos : 0 < o.fragTotal) (now : UInt32) : (o.requeued now).Counted n := by
  unfold Outgoing.Counted
  rw [if_pos (show (o.requeued now).fragSent < (o.requeued now).fragTotal from hpos)]
  exact Nat.succ_le_succ h

/-- The attempts of an end are counted by `tx`, and `ex` marks the channels that used them up. -/
structure AttemptsOk (c : Conn) (tx : ChanId → Fin ncOutgoingSlots → Nat) (ex : ChanId → Bool) :
    Prop where
  counted : ∀ id ch, c.channels id = some ch → ch.Live → ∀ k, (ch.snd.outgoing k).active = true →
    (ch.snd.outgoing k).Counted (tx id k)
  exhausted : ∀ id k, ncMaxRtAttempts ≤ tx id k → ex id = true

/-- `netchan_service` at time `now` finds no message on a live channel whose timer has run out
before its last fragment was sent. -/
def AllSent (c : Conn) (now : UInt32) : Prop :=
  ∀ id, ∀ ch ∈ c.channels id, ch.Live → ch.role = .sender → ch.type = .reliable →
    ∀ k, (ch.snd.outgoing k).Due c.cfg now → (ch.snd.outgoing k).fragTotal ≤ (ch.snd.outgoing k).fragSent

instance (c : Conn) (now : UInt32) : Decidable (AllSent c now) :=
  inferInstanceAs (Decidable (∀ id, ∀ ch ∈ c.channels id, _))

section
variable {c c' : Conn} {tx tx' : ChanId → Fin ncOutgoingSlots → Nat} {ex : ChanId → Bool}

/-- A step: what it does to a channel is related by `Q`. -/
theorem counted_kept {Q : ChanId → Chan → Chan → Prop} (h : AttemptsOk c tx ex)
    (hk : ∀ id, ChanKept c c' id (Q id))
    (hQ : ∀ id ch ch', c.channels id = some ch → Q id ch ch' → ch'.Live → ch.Live ∧
      ∀ k, (ch'.snd.outgoing k).active = true →
        ((ch.snd.outgoing k).active = true → (ch.snd.outgoing k).Counted (tx id k)) →
        (ch'.snd.outgoing k).Counted (tx' id k)) :
    ∀ id ch', c'.channels id = some ch' → ch'.Live → ∀ k, (ch'.snd.outgoing k).active = true →
      (ch'.snd.outgoing k).Counted (tx' id k) := by
  intro id ch' hc' hlive k ha
  rcases (hk id).2 ch' hc' with ⟨-, hnew⟩ | ⟨ch, hc, hq⟩
  · rw [hnew.snd] at ha
    cases ha
  · obtain ⟨hl, hcount⟩ := hQ id ch ch' hc hq hlive
    exact hcount k ha (h.counted id ch hc hl k)

theorem called_tx (l : Log) (s : Side) (c : Conn) (k : Call) (id : ChanId)
    (i : Fin ncOutgoingSlots) :
    (l.called s c k).transmissions s id i = l.transmissions s id i ∨
    (∃ data, k = .write id data ∧ writeAccepted c id data = true) ∧ outTailOf c id = some i ∧
      (l.called s c k).transmissions s id i = 0 := by
  cases k with
  | write j data =>
    simp only [Log.called]
    split
    · rename_i ha
      by_cases hj : id = j
      · subst hj
        simp only [onChan_same]
        split
        · rename_i ht
          exact .inr ⟨⟨data, rfl, ha⟩, ht, rfl⟩
        · exact .inl rfl
      · exact .inl (congrFun (onChan_of_id _ _ _ _ _ hj) i)
    · exact .inl rfl
  | _ =>
    refine .inl ?_
    simp only [Log.called]
    repeat' split
    all_goals rfl

theorem called_exhausted (l : Log) (s : Side) (c : Conn) (k : Call) :
    (l.called s c k).exhausted = l.exhausted := by
  unfold Log.called
  repeat' split
  all_goals rfl

/-- **A call keeps the count**, if `netchan_service` finds everything sent. -/
theorem attempts_call {server : Bool} {l : Log} {s : Side} {k : Call} (hs : Sound server c)
    (h : AttemptsOk c (l.transmissions s) (l.exhausted s))
    (hsent : ∀ env now, k = .service env now → AllSent c now) :
    AttemptsOk (k.apply c) ((l.called s c k).transmissions s) ((l.called s c k).exhausted s) := by
  refine ⟨counted_kept h (fun id => call_effect c k id) fun id ch ch' hc hq hlive => ?_,
    fun id i hi => ?_⟩
  · -- the count of a slot is as before unless a message is written to it
    have hsame : ∀ i, ((∃ data, k = .write id data ∧ writeAccepted c id data = true) →
        i ≠ ch.snd.outTail) → (l.called s c k).transmissions s id i = l.transmissions s id i := by
      intro i hi
      rcases called_tx l s c k id i with he | ⟨hw, ht, -⟩
      · exact he
      · simp only [outTailOf, hc, Option.map_some, Option.some_inj] at ht
        exact absurd ht.symm (hi hw)
    cases hq with
    | @timed env now hg =>
      have hl : ch.Live := by
        unfold chanTimed at hlive
        split at hlive
        · exact hlive
        · unfold Chan.Live at hlive
          dsimp only at hlive
          split at hlive
          · exact absurd rfl hlive.2
          · exact hlive
      refine ⟨hl, fun i ha hcount => ?_⟩
      rw [hsame i (by rintro ⟨data, he, -⟩; cases he)]
      rcases chanTimed_slots c.cfg now ch i with he | ⟨hr, ht, ⟨hdue, -⟩, he⟩
      · rw [he] at ha ⊢
        exact hcount ha
      · have hall := hsent env now rfl id ch hc hl hr ht i hdue
        have := hcount hdue.1
        rw [he]
        unfold Outgoing.Counted at this
        rw [if_neg (Nat.not_lt.2 hall)] at this
        have hpos : 0 < (ch.snd.outgoing i).fragTotal := by
          rw [(hs.cut id ch hc i hdue.1).total]
          exact fragTotalOf_pos ..
        exact Outgoing.counted_requeued this hpos now
    | closing _ => exact absurd rfl hlive.1
    | @written data b p hw hf ha =>
      refine ⟨hlive, fun i hact hcount => ?_⟩
      by_cases hi : i = ch.snd.outTail
      · subst hi
        simp [writtenChan, Outgoing.Counted]
      · rw [hsame i fun _ => hi]
        simp only [writtenChan, Function.update_of_ne hi] at hact ⊢
        exact hcount hact
    | @skipped data b p hw hf ha =>
      refine ⟨hlive, fun i hact hcount => ?_⟩
      by_cases hi : i = ch.snd.outTail
      · subst hi
        simp [skippedChan] at hact
      · rw [hsame i fun _ => hi]
        simp only [skippedChan, Function.update_of_ne hi] at hact ⊢
        exact hcount hact
    | unwritten ha =>
      refine ⟨hlive, fun i hact hcount => ?_⟩
      rw [hsame i (by rintro ⟨data, he, hw⟩; cases he; rw [ha] at hw; cases hw)]
      exact hcount hact
    | other hne _ =>
      refine ⟨hlive, fun i hact hcount => ?_⟩
      rw [hsame i (by rintro ⟨data, he, -⟩; exact absurd (by rw [he]; rfl) hne)]
      exact hcount hact
    | _ =>
      refine ⟨hlive, fun i hact hcount => ?_⟩
      rw [hsame i (by rintro ⟨data, he, -⟩; cases he)]
      exact hcount hact
  · rw [called_exhausted]
    rcases called_tx l s c k id i with he | ⟨-, -, he⟩ <;> rw [he] at hi
    · exact h.exhausted id i hi
    · cases hi

theorem attempts_frame (h : AttemptsOk c tx ex) (env : Env) (f : Frame) :
    AttemptsOk (stepFrame env c f) tx ex := by
  refine ⟨counted_kept h (fun id => frame_effect env c f id) fun id ch ch' hc hq hlive => ?_,
    h.exhausted⟩
  cases hq with
  | closed => exact absurd rfl hlive.2
  | @ack seq hr =>
    refine ⟨hlive, fun i ha hcount => ?_⟩
    have he := ackedSnd_active ha
    dsimp only at ha ⊢
    rw [he] at ha ⊢
    exact hcount ha
  | window hr =>
    refine ⟨?_, fun i ha hcount => hcount ha⟩
    unfold Chan.Live at hlive ⊢
    dsimp only at hlive
    split at hlive
    · rename_i ho
      simp [ho]
    · exact hlive
  | _ => exact ⟨hlive, fun i ha hcount => hcount ha⟩

/-! ## Sending -/

/-- Some of the fragments of a slot went out. -/
structure Outgoing.Progress (o o' : Outgoing) : Prop where
  total : o'.fragTotal = o.fragTotal
  sent : o.fragSent = o'.fragSent ∧ o'.attempts = o.attempts ∨
    o.fragSent < o'.fragSent ∧ o'.fragSent ≤ o.fragTotal ∧ o'.attempts ≤ max o.attempts 1

/-- The slots in use of `c'` are in use in `c`, and some of their fragments went out since. -/
def SlotsSent (c c' : Conn) : Prop :=
  ∀ id ch' k, c'.channels id = some ch' → (ch'.snd.outgoing k).active = true →
    ∃ ch, c.channels id = some ch ∧ ch'.state = ch.state ∧ (ch.snd.outgoing k).active = true ∧
      (ch.snd.outgoing k).Progress (ch'.snd.outgoing k)

theorem Outgoing.Progress.refl (o : Outgoing) : o.Progress o := ⟨rfl, .inl ⟨rfl, rfl⟩⟩

theorem Outgoing.Progress.next {o o' : Outgoing} (h : o.Progress o') (now : UInt32)
    (hs : o'.fragSent < o'.fragTotal) : o.Progress (o'.sent now) := by
  obtain ⟨ht, hp⟩ := h
  refine ⟨ht, .inr ?_⟩
  rw [ht] at hs
  unfold Outgoing.sent
  dsimp only
  split <;> omega

theorem SlotsSent.refl (c : Conn) : SlotsSent c c :=
  fun _ ch _ h ha => ⟨ch, h, rfl, ha, .refl _⟩

theorem SlotsSent.emit {c'' : Conn} {now : UInt32} {f : Frame} (h : SlotsSent c c')
    (hids : ∀ j ch, c'.channels j = some ch → ch.id = j) (he : Emit now c' f c'') :
    SlotsSent c c'' := by
  intro id ch'' i hc'' ha
  rcases (emit_effect he hids id).2 ch'' hc'' with ⟨-, hnew⟩ | ⟨ch', hc', hq⟩
  · rw [hnew.snd] at ha
    cases ha
  cases hq with
  | @data k hsl =>
    obtain ⟨-, hact, hlt⟩ := chanNextSendable_spec (chanSendSlot_spec hsl).2.2
    have hst : (chanSent now c'.pool ch' k).2.state = ch'.state := by
      unfold chanSent
      dsimp only
      split <;> rfl
    have hslot := chanSent_slots ha
    rw [hst]
    by_cases hik : i = k
    · subst hik
      obtain ⟨ch, hc, hs, ha', hp⟩ := h id ch' i hc' hact
      rw [hslot, if_pos rfl]
      exact ⟨ch, hc, hs, ha', hp.next now hlt⟩
    · rw [if_neg hik] at hslot
      rw [hslot] at ha ⊢
      exact h id ch' i hc' ha
  | other hf => exact h id ch'' i hc' ha
  | _ => exact h id ch' i hc' ha

theorem emits_sent {server : Bool} {now : UInt32} {fs : List Frame} (hs : Sound server c)
    (he : Emits now c fs c') : SlotsSent c c' := by
  refine (he.invariant (I := fun d => Sound server d ∧ SlotsSent c d) (fun d f d' hd h => ?_)
    ⟨hs, .refl c⟩).2
  exact ⟨sound_emit hd.1 h, hd.2.emit hd.1.ids h⟩

/-- **A `netchan_send_next` keeps the count**: a message whose last fragment went out was
transmitted once more. -/
theorem attempts_sent {l : Log} {s : Side} (h : AttemptsOk c (l.transmissions s) (l.exhausted s))
    (hs : SlotsSent c c') : AttemptsOk c' ((l.transmitted s c c').transmissions s)
      ((l.transmitted s c c').exhausted s) := by
  refine ⟨fun id ch' hc' hlive k ha => ?_, fun id k hk => ?_⟩
  · obtain ⟨ch, hc, hst, hact, ht, hp⟩ := hs id ch' k hc' ha
    have hcount := h.counted id ch hc (by unfold Chan.Live at hlive ⊢; rwa [← hst]) k hact
    simp only [Log.transmitted, if_pos, slotsOf, hc, hc', wentOut]
    unfold Outgoing.Counted at hcount ⊢
    rw [ht]
    rcases hp with ⟨hsame, ha'⟩ | ⟨hlt, hle, ha'⟩
    · simp only [← hsame, Nat.lt_irrefl, decide_false, Bool.false_and, Bool.false_eq_true, if_false]
      rw [ha']
      exact hcount
    · rw [if_pos (by omega)] at hcount
      by_cases hdone : (ch'.snd.outgoing k).fragSent = (ch.snd.outgoing k).fragTotal
      · simp only [hdone, hdone ▸ hlt, decide_true, beq_self_eq_true, Bool.and_self, if_true]
        omega
      · rw [if_pos (show (ch'.snd.outgoing k).fragSent < (ch.snd.outgoing k).fragTotal by omega)]
        split <;> omega
  · simp only [Log.transmitted, if_pos] at hk ⊢
    by_cases hold : ncMaxRtAttempts ≤ l.transmissions s id k
    · simp [h.exhausted id k hold]
    · simp only [beq_self_eq_true, Bool.true_and, Bool.or_eq_true, List.any_eq_true,
        decide_eq_true_eq]
      exact .inr ⟨k, List.mem_finRange k, hk⟩

end

/-! ## Every step -/

/-- The attempts of both ends are counted. -/
def AttemptsHold (w : World) : Prop :=
  ∀ s, AttemptsOk (w.conn s) (w.log.transmissions s) (w.log.exhausted s)

/-- The counts of two logs agree for end `s`. -/
def Log.SameCount (l l' : Log) (s : Side) : Prop :=
  l'.transmissions s = l.transmissions s ∧ l'.exhausted s = l.exhausted s

theorem sameCount_called {s t : Side} (h : t ≠ s) (l : Log) (c : Conn) (k : Call) :
    l.SameCount (l.called s c k) t := by
  refine ⟨?_, by rw [called_exhausted]⟩
  unfold Log.called
  repeat' split
  all_goals first | rfl | exact funext fun j => onChan_of_side _ _ _ _ h j

theorem sameCount_sent (l : Log) (s t : Side) : ∀ fs : List Frame,
    l.SameCount (fs.foldl (fun l f => l.frameSent s f) l) t := by
  intro fs
  induction fs generalizing l with
  | nil => exact ⟨rfl, rfl⟩
  | cons f fs ih =>
    obtain ⟨h1, h2⟩ := ih (l.frameSent s f)
    cases f <;> exact ⟨h1, h2⟩

theorem sameCount_heard (s t : Side) (env : Env) : ∀ (fs : List Frame) (x : Ends × Log),
    x.1.log.SameCount (run (hearFrame s env) x fs).1.log t
  | [], _ => ⟨rfl, rfl⟩
  | f :: fs, x => by
    obtain ⟨h1, h2⟩ := sameCount_heard s t env fs (hearFrame s env x f)
    have hf : x.1.log.SameCount (hearFrame s env x f).1.log t := by
      simp only [hearFrame, Ends.heard]
      unfold Log.frameHeard
      repeat' split
      all_goals exact ⟨rfl, rfl⟩
    exact ⟨h1.trans hf.1, h2.trans hf.2⟩

theorem AttemptsOk.congr {c c' : Conn} {l l' : Log} {s : Side}
    (h : AttemptsOk c (l.transmissions s) (l.exhausted s)) (hc : c'.channels = c.channels)
    (hl : l.SameCount l' s) : AttemptsOk c' (l'.transmissions s) (l'.exhausted s) := by
  rw [hl.1, hl.2]
  exact ⟨fun id ch hid => h.counted id ch (hc ▸ hid), h.exhausted⟩

theorem attempts_feed {c : Conn} {tx : ChanId → Fin ncOutgoingSlots → Nat} {ex : ChanId → Bool}
    (h : AttemptsOk c tx ex) (env : Env) (pkt : List UInt8) (source : Option Addr) :
    AttemptsOk (netchanFeed env c pkt source).2 tx ex := by
  rw [netchanFeed_run]
  unfold feedSteps
  split
  · rw [run_cons, run_frames]
    refine run_invariant (I := fun d => AttemptsOk d tx ex) (A := fun _ _ => True)
      (fun d f hd _ => attempts_frame hd env f) ?_ (along_true _)
    have hc : (fedConn env c pkt source).channels = c.channels := updatePeer_channels ..
    exact ⟨fun id ch hid => h.counted id ch (hc ▸ hid), h.exhausted⟩
  · exact h

theorem attempts_transmit {w : World} {s : Side} {env : Env} {buflen : Nat} (hs : w.toEnds.Sound)
    (h : AttemptsHold w) : AttemptsHold (w.transmit s env buflen) := by
  rcases netchanSendNext_cases env (w.conn s) buflen with he | ⟨-, fs, c', hem, he⟩
  · rw [show w.transmit s env buflen = w by
      simp only [World.transmit, he, Function.update_eq_self]]
    exact h
  · have hs' : Netchan.Sound s.isServer (ctrlFlushed (w.conn s) buflen) :=
      (hs s).congr rfl rfl rfl
    intro t
    simp only [World.transmit, he]
    rcases Side.eq_or_eq_other s t with rfl | rfl
    · simp only [Function.update_self]
      refine attempts_sent ((h t).congr rfl (sameCount_sent ..)) fun id ch' k hc ha => ?_
      exact emits_sent hs' hem id ch' k hc ha
    · simp only [Function.update_of_ne s.other_ne]
      refine (h s.other).congr rfl ?_
      obtain ⟨h1, h2⟩ := sameCount_sent w.log s s.other
        (packetFrames (headerOf (w.conn s) ++ (w.conn s).ctrlBuf.take (ctrlSent (w.conn s) buflen) ++
          encodeAll fs))
      refine ⟨?_, ?_⟩
      · rw [← h1]
        funext id
        exact if_neg s.other_ne
      · rw [← h2]
        funext id
        simp [Log.transmitted, s.other_ne]

/-- **Every step keeps the count**, if `netchan_service` finds everything sent. -/
theorem attempts_step {w : World} {op : Op} (hs : w.toEnds.Sound) (h : AttemptsHold w)
    (hop : ∀ s env now, op = .call s (.service env now) → AllSent (w.conn s) now) :
    AttemptsHold (w.step op) := by
  cases op with
  | call s k =>
    intro t
    rcases Side.eq_or_eq_other s t with rfl | rfl
    · simp only [World.step, Ends.called, Function.update_self]
      exact attempts_call (hs t) (h t) fun env now hk => hop t env now (hk ▸ rfl)
    · simp only [World.step, Ends.called, Function.update_of_ne s.other_ne]
      exact (h s.other).congr rfl (sameCount_called s.other_ne ..)
  | send s env buflen => exact attempts_transmit hs h
  | deliver s i env source =>
    simp only [World.step]
    split
    · exact h
    · rename_i pkt _
      intro t
      have hl : w.log.SameCount
          ((if headerOk (w.conn s) pkt.bytes then
            (run (hearFrame s env) ((framesFed w.toEnds s pkt env source).1, pkt.stamp)
              (framesFed w.toEnds s pkt env source).2).1.log
            else w.log)) t := by
        split
        · exact sameCount_heard ..
        · exact ⟨rfl, rfl⟩
      rcases Side.eq_or_eq_other s t with rfl | rfl
      · simp only [World.receive, Function.update_self]
        exact AttemptsOk.congr (attempts_feed (h t) env pkt.bytes source) rfl hl
      · simp only [World.receive, Function.update_of_ne s.other_ne]
        exact (h s.other).congr rfl hl
  | dup s i =>
    simp only [World.step]
    split <;> exact h
  | drop s i => exact h

end Netchan
