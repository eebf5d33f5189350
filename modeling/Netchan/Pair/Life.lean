import Netchan.Pair.Attempts

/-!
# Life and death of a channel

A channel is closed by an application or given up after `NC_MAX_RT_ATTEMPTS` transmissions of one
message. `no_accidental_close`: nothing else closes it, provided no CHANNEL_OPEN is processed twice
and every message that `netchan_service` queues again goes out before its next timeout.
`duplicate_open_closes`: a second copy of a CHANNEL_OPEN closes the channel.
-/

namespace Netchan

open Lib

/-! ## The channels of an end -/

/-- The same channels exist. -/
structure Conn.SameChans (c c' : Conn) : Prop where
  channels : ∀ j, (c'.channels j).isSome = (c.channels j).isSome
  used : c'.chanUsed = c.chanUsed

/-- The channel `id` was added. -/
structure Conn.AddsChan (c c' : Conn) (id : ChanId) : Prop where
  channels : ∀ j, (c'.channels j).isSome = true ↔ (c.channels j).isSome = true ∨ j = id
  absent : c.channels id = none
  used : c'.chanUsed = c.chanUsed + 1

section
variable {c c' : Conn}

theorem isSome_set {t : Table} {id : ChanId} (h : (t id).isSome) (ch : Chan) (j : ChanId) :
    (t.set id ch j).isSome = (t j).isSome := by
  by_cases hj : j = id
  · subst hj
    simp [h]
  · rw [Table.set_of_ne _ hj]

theorem sameChans_set {id : ChanId} {ch ch' : Chan} (hc : c.channels id = some ch)
    (ht : c'.channels = Table.set c.channels id ch') (hu : c'.chanUsed = c.chanUsed) :
    c.SameChans c' :=
  ⟨fun j => by rw [ht]; exact isSome_set (by simp [hc]) ch' j, hu⟩

theorem sameChans_congr (ht : c'.channels = c.channels) (hu : c'.chanUsed = c.chanUsed) :
    c.SameChans c' :=
  ⟨fun j => by rw [ht], hu⟩

theorem addsChan_set {id : ChanId} {ch : Chan} (hn : c.channels id = none)
    (ht : c'.channels = Table.set c.channels id ch) (hu : c'.chanUsed = c.chanUsed + 1) :
    c.AddsChan c' id := by
  refine ⟨fun j => ?_, hn, hu⟩
  rw [ht]
  by_cases hj : j = id
  · subst hj
    simp
  · simp [Table.set_of_ne _ hj, hj]

/-- **The channels after a call**: `netchan_chan_open` adds the one it returns. -/
theorem call_chans (c : Conn) (k : Call) :
    c.SameChans (k.apply c) ∨ ∃ type dir ct, k = .chanOpen type dir ct ∧
      (netchanChanOpen c type dir ct).1 = some c.nextChanId ∧
      c.AddsChan (k.apply c) c.nextChanId := by
  by_cases hs : k.Session
  · obtain ⟨h1, -, h2, -⟩ := apply_session c hs
    exact .inl (sameChans_congr h1 h2)
  cases k with
  | service env now =>
    refine .inl ?_
    simp only [Call.apply]
    rcases netchanService_cases env c now with ⟨-, he⟩ | ⟨-, n, he⟩ <;> rw [he]
    · exact sameChans_congr rfl rfl
    · refine ⟨fun j => ?_, ?_⟩
      · dsimp only
        rw [serviceChans_table c.cfg now allIds _ _ _ (List.nodup_finRange _)]
        dsimp only
        split <;> simp
      · unfold serviced
        repeat' split
        all_goals rfl
  | chanOpen type dir ct =>
    simp only [Call.apply, netchanChanOpen_eq]
    split
    · exact .inl (sameChans_congr rfl rfl)
    split
    · exact .inl (sameChans_congr rfl rfl)
    · rename_i hg hu
      rw [not_or] at hg
      exact .inr ⟨type, dir, ct, rfl, rfl, addsChan_set (Option.not_isSome_iff_eq_none.1 hg.2) rfl rfl⟩
  | chanClose j =>
    refine .inl ?_
    simp only [Call.apply, netchanChanClose]
    split
    · exact sameChans_congr rfl rfl
    · rename_i ch hc
      split
      · exact sameChans_congr rfl rfl
      · exact sameChans_set hc rfl rfl
  | write j data =>
    refine .inl ?_
    simp only [Call.apply]
    rcases netchanChanWrite_cases c j data with ⟨h, -⟩ | ⟨ch, b, p, hw, ⟨-, -, h⟩ | ⟨-, -, h⟩⟩ <;> rw [h]
    · exact sameChans_congr rfl rfl
    · exact sameChans_set hw.chan rfl rfl
    · exact sameChans_set hw.chan rfl rfl
  | read j buflen =>
    refine .inl ?_
    simp only [Call.apply]
    rcases netchanChanRead_cases c j buflen with ⟨h, -⟩ | ⟨ch, hc, -, -, h⟩ <;> rw [h]
    · exact sameChans_congr rfl rfl
    · exact sameChans_set hc rfl rfl
  | _ => exact absurd trivial hs

/-- **The channels after a frame**: a CHANNEL_OPEN adds its own. -/
theorem frame_chans (env : Env) (c : Conn) (f : Frame) :
    c.SameChans (stepFrame env c f) ∨ ∃ id type dir ct, f = .channelOpen id type dir ct ∧
      c.AddsChan (stepFrame env c f) id := by
  by_cases hs : f.Session
  · obtain ⟨h1, -, h2⟩ := stepFrame_session env c hs
    exact .inl (sameChans_congr h1 h2)
  cases f with
  | channelOpen id type dir ct =>
    simp only [stepFrame, applyFrame, channelOpened_eq, Option.getD_some]
    split
    · exact .inl (sameChans_congr rfl rfl)
    · rename_i hg
      rw [not_or] at hg
      exact .inr ⟨id, type, dir, ct, rfl, addsChan_set (Option.not_isSome_iff_eq_none.1 hg.1) rfl rfl⟩
  | channelClose j error =>
    refine .inl ?_
    simp only [stepFrame, applyFrame, channelClosed, Option.getD_some]
    split
    · exact sameChans_congr rfl rfl
    · rename_i ch hc
      exact sameChans_set hc rfl rfl
  | data j seq idx total payload =>
    refine .inl ?_
    simp only [stepFrame, applyFrame, dataReceived, Option.getD_some]
    split
    · exact sameChans_congr rfl rfl
    · rename_i ch hc
      repeat' split
      · exact sameChans_congr rfl rfl
      · exact sameChans_set hc rfl rfl
      · exact sameChans_set hc rfl rfl
  | ack j seq =>
    refine .inl ?_
    simp only [stepFrame, applyFrame, ackReceived, Option.getD_some]
    split
    · exact sameChans_congr rfl rfl
    · rename_i ch hc
      split
      · exact sameChans_congr rfl rfl
      · exact sameChans_set hc rfl rfl
  | windowUpdate j w =>
    refine .inl ?_
    simp only [stepFrame, applyFrame, windowUpdated, Option.getD_some]
    split
    · exact sameChans_congr rfl rfl
    · rename_i ch hc
      split
      · exact sameChans_set hc rfl rfl
      · exact sameChans_congr rfl rfl
  | _ => exact absurd trivial hs

theorem emit_chans {now : UInt32} {f : Frame} (h : Emit now c f c') : c.SameChans c' := by
  cases h with
  | ack hc _ => exact sameChans_set hc rfl rfl
  | window hc _ => exact sameChans_set hc rfl rfl
  | data hc _ => exact sameChans_set hc rfl rfl

end

/-! ## The promise -/

/-- Fewer than `NC_MAX_CHAN` channels were opened. -/
def Log.Few (l : Log) : Prop := (l.opened .client).length + (l.opened .server).length < ncMaxChan

instance (l : Log) : Decidable l.Few := inferInstanceAs (Decidable (_ < _))

theorem Log.Few.anti {l l' : Log} (h : l'.Few) (hl : l.Le l') : l.Few := by
  have h1 := (hl.opened .client).length_le
  have h2 := (hl.opened .server).length_le
  unfold Log.Few at h ⊢
  omega

theorem Log.Few.side {l : Log} (h : l.Few) (s : Side) :
    (l.opened s).length + (l.opened s.other).length < ncMaxChan := by
  unfold Log.Few at h
  cases s <;> simp only [Side.other] <;> omega

/-- The channels of an end were opened by one of the two, and those that are closed were closed by
an application or given up. -/
structure EndLife (c : Conn) (mine theirs : List ChanId) (appClosed exhausted : ChanId → Bool) :
    Prop where
  opened : ∀ id, (c.channels id).isSome = true → id ∈ mine ∨ id ∈ theirs
  used : c.chanUsed = (Finset.univ.filter fun id => (c.channels id).isSome = true).card
  closing : ∀ id ch, c.channels id = some ch → ch.state = .closing → appClosed id = true
  closed : ∀ id ch, c.channels id = some ch → ch.state = .closed →
    appClosed id = true ∨ exhausted id = true

section
variable {c c' : Conn} {mine theirs mine' theirs' : List ChanId}
  {appClosed exhausted appClosed' exhausted' : ChanId → Bool}

/-- There is room for another channel. -/
theorem EndLife.few (h : EndLife c mine theirs appClosed exhausted)
    (hf : mine.length + theirs.length < ncMaxChan) : c.chanUsed < ncMaxChan := by
  have hsub : (Finset.univ.filter fun id => (c.channels id).isSome = true) ⊆
      (mine ++ theirs).toFinset := by
    intro id hid
    have := h.opened id (Finset.mem_filter.1 hid).2
    simpa using this
  have hcard := (Finset.card_le_card hsub).trans (List.toFinset_card_le _)
  rw [List.length_append] at hcard
  rw [h.used]
  omega

theorem EndLife.same {Q : ChanId → Chan → Chan → Prop}
    (h : EndLife c mine theirs appClosed exhausted) (hs : c.SameChans c')
    (hm : mine ⊆ mine') (ht : theirs ⊆ theirs') (hk : ∀ id, ChanKept c c' id (Q id))
    (hac : ∀ id, appClosed id = true → appClosed' id = true)
    (hex : ∀ id, exhausted id = true → exhausted' id = true)
    (hQ : ∀ id ch ch', c.channels id = some ch → Q id ch ch' →
      ch'.state = ch.state ∨ ch.state = .opening ∧ ch'.state = .opened ∨
      ch'.state = .closing ∧ appClosed' id = true ∨
      ch'.state = .closed ∧ (appClosed' id = true ∨ exhausted' id = true)) :
    EndLife c' mine' theirs' appClosed' exhausted' := by
  have hold : ∀ id ch', c'.channels id = some ch' → ∃ ch, c.channels id = some ch ∧ Q id ch ch' := by
    intro id ch' hc'
    rcases (hk id).2 ch' hc' with ⟨hn, -⟩ | h
    · have := hs.channels id
      rw [hc', hn] at this
      cases this
    · exact h
  refine ⟨fun id hid => ?_, ?_, fun id ch' hc' hst => ?_, fun id ch' hc' hst => ?_⟩
  · rw [hs.channels id] at hid
    exact (h.opened id hid).imp (fun hi => hm hi) fun hi => ht hi
  · rw [hs.used, h.used]
    simp only [hs.channels]
  · obtain ⟨ch, hc, hq⟩ := hold id ch' hc'
    rcases hQ id ch ch' hc hq with he | ⟨-, he⟩ | ⟨-, he⟩ | ⟨he, -⟩
    · exact hac id (h.closing id ch hc (he ▸ hst))
    · rw [he] at hst
      cases hst
    · exact he
    · rw [he] at hst
      cases hst
  · obtain ⟨ch, hc, hq⟩ := hold id ch' hc'
    rcases hQ id ch ch' hc hq with he | ⟨-, he⟩ | ⟨he, -⟩ | ⟨-, he⟩
    · exact (h.closed id ch hc (he ▸ hst)).imp (hac id) (hex id)
    · rw [he] at hst
      cases hst
    · rw [he] at hst
      cases hst
    · exact he

theorem EndLife.adds {j : ChanId} {Q : ChanId → Chan → Chan → Prop}
    (h : EndLife c mine theirs appClosed exhausted) (hs : c.AddsChan c' j)
    (hm : mine ⊆ mine') (ht : theirs ⊆ theirs') (hj : j ∈ mine' ∨ j ∈ theirs')
    (hk : ∀ id, ChanKept c c' id (Q id))
    (hac : ∀ id, appClosed id = true → appClosed' id = true)
    (hex : ∀ id, exhausted id = true → exhausted' id = true)
    (hQ : ∀ id ch ch', Q id ch ch' → ch'.state = ch.state) :
    EndLife c' mine' theirs' appClosed' exhausted' := by
  refine ⟨fun id hid => ?_, ?_, fun id ch' hc' hst => ?_, fun id ch' hc' hst => ?_⟩
  · rcases (hs.channels id).1 hid with hid | rfl
    · exact (h.opened id hid).imp (fun hi => hm hi) fun hi => ht hi
    · exact hj
  · have hins : (Finset.univ.filter fun id => (c'.channels id).isSome = true) =
        insert j (Finset.univ.filter fun id => (c.channels id).isSome = true) := by
      ext id
      simp only [Finset.mem_filter, Finset.mem_univ, true_and, Finset.mem_insert, hs.channels id]
      exact or_comm
    rw [hins, Finset.card_insert_of_notMem (by simp [hs.absent]), hs.used, h.used]
  · rcases (hk id).2 ch' hc' with ⟨-, hnew⟩ | ⟨ch, hc, hq⟩
    · exact absurd hst hnew.state.1
    · exact hac id (h.closing id ch hc (hQ id ch ch' hq ▸ hst))
  · rcases (hk id).2 ch' hc' with ⟨-, hnew⟩ | ⟨ch, hc, hq⟩
    · exact absurd hst hnew.state.2
    · exact (h.closed id ch hc (hQ id ch ch' hq ▸ hst)).imp (hac id) (hex id)

/-- A message that is given up used up its transmissions. -/
def GivenUp (c : Conn) (exhausted : ChanId → Bool) (now : UInt32) : Prop :=
  ∀ id ch, c.channels id = some ch → ch.Live → ch.role = .sender → ch.type = .reliable →
    ∀ k, (ch.snd.outgoing k).Due c.cfg now → ncMaxRtAttempts ≤ (ch.snd.outgoing k).attempts →
      exhausted id = true

theorem AttemptsOk.givenUp {tx : ChanId → Fin ncOutgoingSlots → Nat} {now : UInt32}
    (h : AttemptsOk c tx exhausted) (ha : AllSent c now) : GivenUp c exhausted now := by
  intro id ch hc hlive hr ht k hdue hmax
  have hcount := h.counted id ch hc hlive k hdue.1
  unfold Outgoing.Counted at hcount
  rw [if_neg (Nat.not_lt.2 (ha id ch hc hlive hr ht k hdue))] at hcount
  exact h.exhausted id k (by omega)

/-- What `netchan_service` does to the state of a channel. -/
theorem EndLife.timed {id : ChanId} {ch : Chan} {now : UInt32}
    (h : EndLife c mine theirs appClosed exhausted) (hc : c.channels id = some ch)
    (hg : GivenUp c exhausted now) :
    (chanTimed c.cfg now ch).state = ch.state ∨
      (chanTimed c.cfg now ch).state = .closed ∧ (appClosed id = true ∨ exhausted id = true) := by
  unfold chanTimed
  split
  · exact .inl rfl
  · rename_i hg'
    rw [not_or, not_not, not_not] at hg'
    obtain ⟨-, -, hdead⟩ := serviceSlots_cases c.cfg now _ ch.snd 0
      (List.nodup_finRange ncOutgoingSlots)
    dsimp only at hdead ⊢
    split
    · rename_i hd
      obtain ⟨k, -, hdue, hmax⟩ := hdead hd
      refine .inr ⟨rfl, ?_⟩
      by_cases h1 : ch.state = .closing
      · exact .inl (h.closing id ch hc h1)
      by_cases h2 : ch.state = .closed
      · exact h.closed id ch hc h2
      · exact .inr (hg id ch hc ⟨h1, h2⟩ hg'.1 hg'.2 k hdue hmax)
    · exact .inl rfl

theorem life_call {l : Log} {s : Side} {k : Call}
    (h : EndLife c (l.opened s) theirs l.appClosed (l.exhausted s))
    (hg : ∀ env now, k = .service env now → GivenUp c (l.exhausted s) now) :
    EndLife (k.apply c) ((l.called s c k).opened s) theirs (l.called s c k).appClosed
      ((l.called s c k).exhausted s) := by
  have hle := Log.le_called l s c k
  rw [called_exhausted]
  rcases call_chans c k with hs | ⟨type, dir, ct, rfl, ho, hs⟩
  · refine h.same hs (hle.opened s).subset (List.Subset.refl _) (fun id => call_effect c k id)
      hle.appClosed (fun _ he => he) fun id ch ch' hc hq => ?_
    cases hq with
    | @timed env now _ =>
      rcases h.timed hc (hg env now rfl) with he | he
      · exact .inl he
      · exact .inr (.inr (.inr ⟨he.1, he.2.imp_left (hle.appClosed id)⟩))
    | closing hst =>
      refine .inr (.inr (.inl ⟨rfl, ?_⟩))
      simp [Log.called, hc]
    | _ => exact .inl rfl
  · refine h.adds hs (hle.opened s).subset (List.Subset.refl _) (.inl ?_)
      (fun id => call_effect c _ id) hle.appClosed (fun _ he => he) fun id ch ch' hq => ?_
    · simp only [Log.called, ho, Function.update_self]
      simp
    · cases hq
      rfl

theorem life_frame {env : Env} {f : Frame} (h : EndLife c mine theirs appClosed exhausted)
    (hclose : ∀ id error, f = .channelClose id error → appClosed id = true)
    (hopen : ∀ id type dir ct, f = .channelOpen id type dir ct → id ∈ theirs) :
    EndLife (stepFrame env c f) mine theirs appClosed exhausted := by
  rcases frame_chans env c f with hs | ⟨j, type, dir, ct, rfl, hs⟩
  · refine h.same hs (List.Subset.refl _) (List.Subset.refl _) (fun id => frame_effect env c f id)
      (fun _ he => he) (fun _ he => he) fun id ch ch' hc hq => ?_
    cases hq with
    | @closed error => exact .inr (.inr (.inr ⟨rfl, .inl (hclose id error rfl)⟩))
    | window hr =>
      dsimp only
      split
      · rename_i ho
        exact .inr (.inl ⟨ho, rfl⟩)
      · exact .inl rfl
    | _ => exact .inl rfl
  · refine h.adds hs (List.Subset.refl _) (List.Subset.refl _) (.inr (hopen j type dir ct rfl))
      (fun id => frame_effect env c _ id) (fun _ he => he) (fun _ he => he) fun id ch ch' hq => ?_
    cases hq with
    | ignored hf => cases hf
    | _ => rfl

theorem life_emit {server : Bool} {now : UInt32} {f : Frame} (hs : Sound server c)
    (h : EndLife c mine theirs appClosed exhausted) (he : Emit now c f c') :
    EndLife c' mine theirs appClosed exhausted := by
  refine h.same (emit_chans he) (List.Subset.refl _) (List.Subset.refl _)
    (fun id => emit_effect he hs.ids id) (fun _ he => he) (fun _ he => he)
    fun id ch ch' hc hq => .inl ?_
  cases hq with
  | @data k hsl =>
    unfold chanSent
    dsimp only
    split <;> rfl
  | _ => rfl

theorem EndLife.mono (h : EndLife c mine theirs appClosed exhausted) (hm : mine ⊆ mine')
    (ht : theirs ⊆ theirs') (hac : ∀ id, appClosed id = true → appClosed' id = true)
    (hex : ∀ id, exhausted id = true → exhausted' id = true) :
    EndLife c mine' theirs' appClosed' exhausted' :=
  h.same (sameChans_congr rfl rfl) hm ht (fun _ => chanKept_congr rfl fun _ _ => rfl) hac hex
    fun _ _ _ _ hq => .inl (congrArg Chan.state hq.symm)

end

/-- A CHANNEL_OPEN is for a channel its sender opened, a CHANNEL_CLOSE for one that an application
closed. -/
def Frame.Lawful (s : Side) (l : Log) : Frame → Prop
  | .channelOpen id _ _ _ => id ∈ l.opened s
  | .channelClose id _ => l.Few → l.appClosed id = true
  | _ => True

theorem Frame.Lawful.mono {s : Side} {l l' : Log} {f : Frame} (h : f.Lawful s l) (hl : l.Le l') :
    f.Lawful s l' := by
  cases f with
  | channelOpen id type dir ct => exact (hl.opened s).subset h
  | channelClose id error => exact fun hf => hl.appClosed id (h (hf.anti hl))
  | _ => trivial

/-- Channels live until they are closed. -/
def Lives : Promise where
  inv x := x.log.Few → ∀ s, EndLife (x.conn s) (x.log.opened s) (x.log.opened s.other)
    x.log.appClosed (x.log.exhausted s)
  queued := Frame.Lawful
  carried := Frame.Lawful

/-- `netchan_service` gives up only what used up its transmissions. -/
def GivesUpRightly (x : Ends) (s : Side) (k : Call) : Prop :=
  ∀ env now, k = .service env now → GivenUp (x.conn s) (x.log.exhausted s) now

/-- A CHANNEL_OPEN finds its channel not there yet. -/
def OpensNew (x : Ends) (s : Side) (_ : Log) : Frame → Prop
  | .channelOpen id _ _ _ => (x.conn s).channels id = none
  | _ => True

theorem Log.frameHeard_life (l : Log) (s : Side) (stamp : Log) (c c' : Conn) (f : Frame) :
    (l.frameHeard s stamp c c' f).opened = l.opened ∧
      (l.frameHeard s stamp c c' f).appClosed = l.appClosed ∧
      (l.frameHeard s stamp c c' f).exhausted = l.exhausted := by
  unfold Log.frameHeard
  repeat' split
  all_goals exact ⟨rfl, rfl, rfl⟩

theorem Log.frameSent_life (l : Log) (s : Side) (f : Frame) :
    (l.frameSent s f).opened = l.opened ∧ (l.frameSent s f).appClosed = l.appClosed ∧
      (l.frameSent s f).exhausted = l.exhausted := by
  cases f <;> exact ⟨rfl, rfl, rfl⟩

theorem lives_kept : Lives.Kept GivesUpRightly OpensNew where
  grow hl h := h.mono hl
  alike := by
    intro x x' h hl ha hf s
    rw [hl] at hf ⊢
    exact (h hf s).same (sameChans_congr (ha s).channels (ha s).chanUsed) (List.Subset.refl _)
      (List.Subset.refl _) (fun _ => chanKept_congr (ha s).channels fun _ _ => rfl)
      (fun _ he => he) (fun _ he => he) fun _ _ _ _ hq => .inl (congrArg Chan.state hq.symm)
  called := by
    intro x s k _ h hok
    have hle := Log.le_called x.log s (x.conn s) k
    refine ⟨fun hf t => ?_, fun f hq => ?_⟩
    · have hold := h (hf.anti hle)
      simp only [Ends.called]
      rcases Side.eq_or_eq_other s t with rfl | rfl
      · rw [Function.update_self]
        exact (life_call (hold t) hok).mono (List.Subset.refl _) (hle.opened t.other).subset
          (fun _ he => he) fun _ he => he
      · rw [Function.update_of_ne s.other_ne, called_exhausted]
        exact (hold s.other).mono (hle.opened _).subset (hle.opened _).subset hle.appClosed
          fun _ he => he
    · cases hq with
      | opened hc ho =>
        show _ ∈ (x.log.called s (x.conn s) _).opened s
        simp [Log.called, ho, createdChan, freshChan]
      | closed hc =>
        intro _
        simp [Ends.called, Log.called, hc]
      | _ => trivial
  heard := by
    intro x s env stamp f _ h hle hcar hok
    obtain ⟨h1, h2, h3⟩ := Log.frameHeard_life x.log s stamp (x.conn s) (stepFrame env (x.conn s) f) f
    have hfew : (x.heard s env stamp f).log.Few → x.log.Few := by
      intro hf
      unfold Log.Few at hf ⊢
      rwa [show (x.heard s env stamp f).log.opened = x.log.opened from h1] at hf
    refine ⟨fun hf t => ?_, fun g hq => ?_⟩
    · have hold := h (hfew hf)
      simp only [Ends.heard, h1, h2, h3]
      rcases Side.eq_or_eq_other s t with rfl | rfl
      · rw [Function.update_self]
        refine life_frame (hold t) ?_ ?_
        · rintro id error rfl
          exact hle.appClosed id (hcar ((hfew hf).anti hle))
        · rintro id type dir ct rfl
          exact (hle.opened t.other).subset hcar
      · rw [Function.update_of_ne s.other_ne]
        exact hold s.other
    · cases hq with
      | @refused _ id type dir ct hr =>
        -- the channel is new and there is room for it
        intro hf
        rcases hr with hr | hr
        · rw [show (x.conn s).channels id = none from hok] at hr
          cases hr
        · exact absurd (((h (hfew hf)) s).few ((hfew hf).side s)) (Nat.not_lt.2 hr)
      | _ => trivial
  flushed := by
    intro x s f h hq
    obtain ⟨h1, h2, h3⟩ := Log.frameSent_life x.log s f
    refine ⟨fun hf t => ?_, hq.mono (Log.le_frameSent ..)⟩
    simp only [Ends.sent, h1, h2, h3, Function.update_eq_self]
    exact h (hf.anti (Log.le_frameSent ..)) t
  emitted := by
    intro x s now f c' hs h he
    obtain ⟨h1, h2, h3⟩ := Log.frameSent_life x.log s f
    refine ⟨fun hf t => ?_, by cases he <;> trivial⟩
    have hold := h (hf.anti (Log.le_frameSent ..))
    simp only [Ends.sent, h1, h2, h3]
    rcases Side.eq_or_eq_other s t with rfl | rfl
    · rw [Function.update_self]
      exact life_emit (hs t) (hold t) he
    · rw [Function.update_of_ne s.other_ne]
      exact hold s.other
  transmitted := by
    intro x s c c' h hf t
    refine (h hf t).mono (List.Subset.refl _) (List.Subset.refl _) (fun _ he => he) fun id he => ?_
    simp [Log.transmitted, he]

/-! ## No accident -/

/-- `netchan_service` finds everything sent. -/
def ServicedInTime (x : Ends) (s : Side) : Call → Prop
  | .service _ now => AllSent (x.conn s) now
  | _ => True

instance (x : Ends) (s : Side) : ∀ k : Call, Decidable (ServicedInTime x s k)
  | .service _ now => inferInstanceAs (Decidable (AllSent (x.conn s) now))
  | .connect .. | .accept | .disconnect | .chanOpen .. | .chanClose _ | .write .. | .read .. | .poll =>
    inferInstanceAs (Decidable True)

instance (x : Ends) (s : Side) (l : Log) : ∀ f : Frame, Decidable (OpensNew x s l f)
  | .channelOpen id _ _ _ => inferInstanceAs (Decidable ((x.conn s).channels id = none))
  | .connectInit _ | .connectAccept .. | .connectRedirect .. | .disconnect _ | .ping _ | .pong _
  | .channelClose .. | .data .. | .ack .. | .windowUpdate .. => inferInstanceAs (Decidable True)

/-- The promise is kept and the attempts are counted. -/
theorem lives_step {w : World} {op : Op} (h : Lives.Holds w ∧ AttemptsHold w)
    (hop : op.Meets ServicedInTime OpensNew w) :
    Lives.Holds (w.step op) ∧ AttemptsHold (w.step op) := by
  obtain ⟨hl, ha⟩ := h
  refine ⟨Promise.step lives_kept hl ?_, attempts_step hl.ends.sound ha ?_⟩
  · cases op with
    | call s k =>
      rintro env now rfl
      exact (ha s).givenUp hop
    | _ => exact hop
  · rintro s env now rfl
    exact hop

/-- **No channel dies by accident**: a channel is closed only if an application closed it or a
message on it was transmitted `NC_MAX_RT_ATTEMPTS` times, in every run in which control frames are
sent whole, no CHANNEL_OPEN is processed by an end that has its channel, and `netchan_service`
finds every message whose timer has run out sent. -/
theorem no_accidental_close {cfg : Side → Cfg} {ops : List Op}
    (h : Along World.step (fun w op => op.Meets ServicedInTime OpensNew w) (.init cfg) ops)
    (hfew : (World.run cfg ops).log.Few) {s : Side} {id : ChanId} {ch : Chan}
    (hc : ((World.run cfg ops).conn s).channels id = some ch) (hst : ch.state = .closed) :
    (World.run cfg ops).log.appClosed id = true ∨ (World.run cfg ops).log.exhausted s id = true := by
  have hinit : Lives.Holds (World.init cfg) ∧ AttemptsHold (World.init cfg) := by
    refine ⟨Promise.init cfg fun _ s => ⟨?_, rfl, ?_, ?_⟩, fun s => ⟨?_, ?_⟩⟩
    · rintro id ⟨⟩
    · rintro id ch ⟨⟩
    · rintro id ch ⟨⟩
    · rintro id ch ⟨⟩
    · rintro id k ⟨⟩
  obtain ⟨hl, -⟩ := run_invariant (I := fun w => Lives.Holds w ∧ AttemptsHold w)
    (fun w op hw hop => lives_step hw hop) hinit h
  exact (hl.ends.inv hfew s).closed id ch hc hst

/-- A message that is never acknowledged goes out five times. -/
def unackedOps : List Op :=
  openOps ++ [.call .client (.write 0 [1, 2, 3]), .send .client { now := 10 } 1200] ++
    [1100, 2200, 3300, 4400].flatMap (fun now =>
      [.call .client (.service {} now), .send .client { now := now + 1 } 1200]) ++
    [.call .client (.service {} 5500)]

theorem no_accidental_close_unacked :
    (((World.run (fun _ => netchanCfgDefault) unackedOps).conn .client).channels 0).map (·.state) =
        some .closed ∧
      ((World.run (fun _ => netchanCfgDefault) unackedOps).log.appClosed 0 = true ∨
        (World.run (fun _ => netchanCfgDefault) unackedOps).log.exhausted .client 0 = true) := by
  obtain ⟨hst, hsends, hfew⟩ :
      (((World.run (fun _ => netchanCfgDefault) unackedOps).conn .client).channels 0).map
        (·.state) = some .closed ∧
      Along World.step (fun w op => op.Meets ServicedInTime OpensNew w)
        (.init fun _ => netchanCfgDefault) unackedOps ∧
      (World.run (fun _ => netchanCfgDefault) unackedOps).log.Few := by
    decide +kernel
  obtain ⟨ch, hch, hs⟩ := Option.map_eq_some_iff.1 hst
  exact ⟨hst, @no_accidental_close (fun _ => netchanCfgDefault) unackedOps hsends hfew _ _ _ hch hs⟩

/-- The datagram with the CHANNEL_OPEN is duplicated and both copies arrive. -/
def duplicateOpenOps : List Op :=
  openOps.take 8 ++ [.dup .server 0, .deliver .server 0 { now := 7 } (some [2]),
    .deliver .server 0 { now := 8 } (some [2]), .send .server { now := 9 } 1200,
    .deliver .client 0 { now := 10 } (some [1])]

/-- **A duplicated CHANNEL_OPEN closes the channel**: the second copy finds the channel there and
is answered by a CHANNEL_CLOSE, although no application closed it and no message was sent. -/
theorem duplicate_open_closes :
    let w := World.run (fun _ => netchanCfgDefault) duplicateOpenOps
    Along World.step (fun w op => op.SendsWhole w) (.init fun _ => netchanCfgDefault)
        duplicateOpenOps ∧
      w.log.Few ∧ ((w.conn .client).channels 0).map (·.state) = some .closed ∧
      w.log.appClosed 0 = false ∧ w.log.exhausted .client 0 = false ∧
      w.log.exhausted .server 0 = false := by
  decide +kernel

end Netchan
