import Netchan.Pair.Agreement
import Mathlib.Data.List.TakeWhile

/-!
# Agreement on channels

The two ends describe a channel alike: `channels_agree` says that an id in both tables has one type
and one content type, that one end sends and the other receives, and that the channel was opened by
the end the id's parity belongs to.

A channel keeps its `Label` for life, so the labels of the last state of a run are those the
CHANNEL_OPEN frames on the way carried. The promise `Announces` is stated with them.
-/

namespace Netchan

open Lib

/-! ## Labels -/

/-- How a channel was declared. -/
structure Label where
  type : ChanType
  dir : Dir
  role : Role
  contentType : List UInt8

def Chan.label (ch : Chan) : Label := ⟨ch.type, ch.dir, ch.role, ch.contentType⟩

def Role.flip : Role → Role
  | .sender => .receiver
  | .receiver => .sender

/-- The label of the same channel at the other end. -/
def Label.flip (l : Label) : Label := { l with role := l.role.flip }

@[simp] theorem Label.flip_flip (l : Label) : l.flip.flip = l := by
  obtain ⟨type, dir, role, ct⟩ := l
  cases role <;> rfl

theorem chanTimed_label (cfg : Cfg) (now : UInt32) (ch : Chan) :
    (chanTimed cfg now ch).label = ch.label := by
  unfold chanTimed
  split <;> rfl

theorem chanSent_label (now : UInt32) (p : Pool) (ch : Chan) (k : Fin ncOutgoingSlots) :
    (chanSent now p ch k).2.label = ch.label := by
  unfold chanSent
  dsimp only
  split <;> rfl

/-- Every channel of `c'` is one of `c`, with its label. -/
def SameLabels (c c' : Conn) : Prop :=
  ∀ id, (c'.channels id).map Chan.label = (c.channels id).map Chan.label

theorem sameLabels_set {c : Conn} {id : ChanId} {ch ch' : Chan} (hc : c.channels id = some ch)
    (hl : ch'.label = ch.label) : SameLabels c (c.setChan id ch') := by
  intro j
  by_cases hj : j = id
  · subst hj
    simp only [Conn.setChan, Table.set_same, hc, Option.map_some, hl]
  · simp only [Conn.setChan, Table.set_of_ne _ hj]

theorem emit_labels {now : UInt32} {c c' : Conn} {f : Frame} (h : Emit now c f c') :
    SameLabels c c' := by
  cases h with
  | ack hc hn => exact sameLabels_set hc rfl
  | window hc hn => exact sameLabels_set hc rfl
  | data hc hs => exact sameLabels_set (c := { c with pool := _ }) hc (chanSent_label ..)

/-- **What a call does to the table**: `netchan_chan_open` may add a channel, and no other call
adds or relabels one. -/
theorem call_labels (c : Conn) (k : Call) :
    (SameLabels c (k.apply c) ∧ ∀ (l : Log) s, (l.called s c k).opened = l.opened) ∨
    ∃ type dir ct, k = .chanOpen type dir ct ∧
      (netchanChanOpen c type dir ct).1 = some c.nextChanId ∧ c.channels c.nextChanId = none ∧
      (k.apply c).channels = Table.set c.channels c.nextChanId (createdChan c type dir ct) := by
  by_cases hs : k.Session
  · refine .inl ⟨fun id => by rw [(apply_session c hs).1], fun l s => ?_⟩
    unfold Log.called
    repeat' split
    all_goals first | rfl | exact hs.elim
  cases k with
  | service env now =>
    refine .inl ⟨fun id => ?_, fun _ _ => rfl⟩
    rcases netchanService_cases env c now with ⟨-, he⟩ | ⟨-, n, he⟩
    · rw [Call.apply, he]
      rfl
    · rw [Call.apply, he, serviceChans_allIds]
      simp only [Option.map_map]
      congr 1
      funext ch
      exact chanTimed_label ..
  | chanOpen type dir ct =>
    have ho := netchanChanOpen_eq c type dir ct
    split at ho
    · exact .inl ⟨fun id => by rw [Call.apply, ho], fun l s => by simp only [Log.called, ho]⟩
    split at ho
    · exact .inl ⟨fun id => by rw [Call.apply, ho], fun l s => by simp only [Log.called, ho]⟩
    · rename_i hg _
      rw [not_or] at hg
      exact .inr ⟨type, dir, ct, rfl, by rw [ho], Option.not_isSome_iff_eq_none.1 hg.2,
        by rw [Call.apply, ho]⟩
  | chanClose j =>
    refine .inl ⟨?_, fun l s => by simp only [Log.called]; split <;> rfl⟩
    simp only [Call.apply, netchanChanClose]
    split
    · exact fun _ => rfl
    · rename_i ch hc
      split
      · exact fun _ => rfl
      · exact sameLabels_set (c := ctrlChannelClose c j 0) hc rfl
  | read j buflen =>
    refine .inl ⟨?_, fun _ _ => rfl⟩
    simp only [Call.apply]
    rcases netchanChanRead_cases c j buflen with ⟨he, -⟩ | ⟨ch, hc, -, -, he⟩
    · rw [he]
      exact fun _ => rfl
    · rw [he]
      exact sameLabels_set (c := { c with pool := _ }) hc rfl
  | write j data =>
    refine .inl ⟨?_, fun l s => by simp only [Log.called]; split <;> rfl⟩
    simp only [Call.apply]
    rcases netchanChanWrite_cases c j data with ⟨he, -⟩ | ⟨ch, b, p, hw, ⟨-, -, he⟩ | ⟨-, -, he⟩⟩
    · rw [he]
      exact fun _ => rfl
    · rw [he]
      exact sameLabels_set (c := { c with pool := _ }) hw.chan rfl
    · rw [he]
      exact sameLabels_set (c := { c with pool := _ }) hw.chan rfl
  | _ => exact absurd trivial hs

/-- **What a frame does to the table**: a CHANNEL_OPEN may add a channel, and no other frame adds
or relabels one. -/
theorem frame_labels (env : Env) (c : Conn) (f : Frame) :
    SameLabels c (stepFrame env c f) ∨ ∃ id type dir ct, f = .channelOpen id type dir ct ∧
      c.channels id = none ∧
      (stepFrame env c f).channels = Table.set c.channels id (openedChan c id type dir ct) := by
  by_cases hs : f.Session
  · exact .inl fun id => by rw [(stepFrame_session env c hs).1]
  cases f with
  | channelOpen id type dir ct =>
    simp only [stepFrame, applyFrame, channelOpened_eq, Option.getD_some]
    split
    · exact .inl fun _ => rfl
    · rename_i hg
      rw [not_or] at hg
      exact .inr ⟨id, type, dir, ct, rfl, Option.not_isSome_iff_eq_none.1 hg.1, rfl⟩
  | channelClose id error =>
    refine .inl ?_
    simp only [stepFrame, applyFrame, channelClosed, Option.getD_some]
    split
    · exact fun _ => rfl
    · rename_i ch hc
      exact sameLabels_set hc rfl
  | data id seq idx total payload =>
    refine .inl ?_
    simp only [stepFrame, applyFrame, dataReceived, Option.getD_some]
    split
    · exact fun _ => rfl
    · rename_i ch hc
      split
      · exact fun _ => rfl
      split
      · exact sameLabels_set (c := { c with pool := _, events := _ }) hc rfl
      · exact sameLabels_set (c := { c with pool := _, events := _ }) hc rfl
  | ack id seq =>
    refine .inl ?_
    simp only [stepFrame, applyFrame, ackReceived, Option.getD_some]
    split
    · exact fun _ => rfl
    · rename_i ch hc
      split
      · exact fun _ => rfl
      · generalize (List.finRange ncOutgoingSlots).foldl (ackSlot seq) (c.pool, ch.snd) = r
        exact sameLabels_set (c := { c with pool := r.1 }) hc rfl
  | windowUpdate id w =>
    refine .inl ?_
    simp only [stepFrame, applyFrame, windowUpdated, Option.getD_some]
    split
    · exact fun _ => rfl
    · rename_i ch hc
      split
      · exact sameLabels_set hc rfl
      · exact fun _ => rfl
  | _ => exact absurd trivial hs

/-- The channel at `id` is there, with the label `lab`. -/
def Labelled (id : ChanId) (lab : Label) (c : Conn) : Prop :=
  (c.channels id).map Chan.label = some lab

theorem labelled_set {id j : ChanId} {lab : Label} {c c' : Conn} {ch : Chan}
    (h : Labelled id lab c) (hn : c.channels j = none)
    (ht : c'.channels = Table.set c.channels j ch) : Labelled id lab c' := by
  have hne : id ≠ j := by
    rintro rfl
    rw [Labelled, hn] at h
    cases h
  rw [Labelled, ht, Table.set_of_ne _ hne]
  exact h

/-- **A channel stays and keeps its label.** -/
theorem labelled_step {id : ChanId} {lab : Label} (c : Conn) (st : Step)
    (h : Labelled id lab c) : Labelled id lab (st.apply c) := by
  cases st with
  | config cfg => exact h
  | call k =>
    rcases call_labels c k with ⟨hs, -⟩ | ⟨type, dir, ct, -, -, hn, ht⟩
    · exact (hs id).trans h
    · exact labelled_set h hn ht
  | frame env f =>
    rcases frame_labels env c f with hs | ⟨j, type, dir, ct, -, hn, ht⟩
    · exact (hs id).trans h
    · exact labelled_set h hn ht
  | header env pkt source =>
    show Labelled id lab (fedConn env c pkt source)
    rw [Labelled, (Promise.fedConn_alike env c pkt source).1.channels]
    exact h
  | sendNext env buflen =>
    simp only [Step.apply]
    rcases netchanSendNext_cases env c buflen with he | ⟨-, fs, c', hem, he⟩
    · rwa [he]
    · rw [he]
      have hc' : Labelled id lab c' := hem.invariant (I := Labelled id lab)
        (fun d f d' hd hf => (emit_labels hf id).trans hd) h
      exact hc'

theorem labelled_run {id : ChanId} {lab : Label} {w : World} {s : Side}
    (h : Labelled id lab (w.conn s)) (ops : List Op) :
    Labelled id lab ((Lib.run World.step w ops).conn s) := by
  have hstep : ∀ (w : World) (op : Op), (∀ t, t = s → Labelled id lab (w.conn t)) → True →
      ∀ t, t = s → Labelled id lab ((w.step op).conn t) := fun w op hw _ =>
    World.conn_step (I := fun t c => t = s → Labelled id lab c)
      (fun t c st _ hc hts => labelled_step c st (hc hts)) hw op
  exact run_invariant hstep (by rintro _ rfl; exact h) (along_true ops) s rfl

/-! ## Ids -/

/-- The ids an end opens channels with: a client even ones, a server odd ones. -/
def Side.Owns (s : Side) (id : ChanId) : Prop := id.val % 2 = if s.isServer then 1 else 0

instance (s : Side) (id : ChanId) : Decidable (s.Owns id) := inferInstanceAs (Decidable (_ = _))

theorem Side.Owns.unique {s t : Side} {id : ChanId} (h : s.Owns id) (h' : t.Owns id) : s = t := by
  unfold Side.Owns at h h'
  cases s <;> cases t <;> simp_all [Side.isServer]

theorem Side.Owns.next {s : Side} {id : ChanId} (h : s.Owns id) : s.Owns (id + 2) := by
  have hval : (id + 2).val = (id.val + 2) % 256 := rfl
  unfold Side.Owns at h ⊢
  rw [hval]
  omega

theorem call_nextChanId {s : Side} {c : Conn} (h : s.Owns c.nextChanId) (k : Call) :
    s.Owns (k.apply c).nextChanId := by
  by_cases hs : k.Session
  · rwa [(apply_session c hs).2.2.2]
  cases k with
  | service env now =>
    simp only [Call.apply]
    rcases netchanService_cases env c now with ⟨-, he⟩ | ⟨-, n, he⟩
    · rw [he]
      exact h
    · rw [he]
      unfold serviced
      repeat' split
      all_goals exact h
  | chanOpen type dir ct =>
    simp only [Call.apply, netchanChanOpen_eq]
    split
    · exact h
    split
    · exact h.next
    · exact h.next
  | chanClose j =>
    simp only [Call.apply, netchanChanClose]
    repeat' split
    all_goals exact h
  | read j buflen =>
    simp only [Call.apply]
    rcases netchanChanRead_cases c j buflen with ⟨he, -⟩ | ⟨ch, hc, -, -, he⟩ <;>
    · rw [he]
      exact h
  | write j data =>
    simp only [Call.apply]
    rcases netchanChanWrite_cases c j data with ⟨he, -⟩ | ⟨ch, b, p, hw, ⟨-, -, he⟩ | ⟨-, -, he⟩⟩ <;>
    · rw [he]
      exact h
  | _ => exact absurd trivial hs

/-! ## The promise -/

theorem contentTypeOf_idem (s : List UInt8) :
    contentTypeOf ((contentTypeOf s).take 63) = contentTypeOf s := by
  have hnul : ∀ b ∈ contentTypeOf s, b ≠ 0 := by
    intro b hb
    simpa using List.mem_takeWhile_imp (List.mem_of_mem_take hb)
  have hlen : (contentTypeOf s).length ≤ 63 := List.length_take_le ..
  have hall : (contentTypeOf s).takeWhile (· ≠ 0) = contentTypeOf s :=
    List.takeWhile_eq_self_iff.2 (by simpa using hnul)
  rw [List.take_of_length_le hlen, contentTypeOf, hall, List.take_of_length_le hlen]

/-- The role `netchan_chan_open` takes for a direction. -/
def Dir.role (dir : Dir) : Role := if dir = .send then .sender else .receiver

/-- The label `netchan_chan_open` gives a channel. -/
def openedLabel (type : ChanType) (dir : Dir) (ct : List UInt8) : Label :=
  ⟨type, dir, dir.role, contentTypeOf ct⟩

theorem openedChan_label (c : Conn) (id : ChanId) (type : ChanType) (dir : Dir) (ct : List UInt8) :
    (openedChan c id type dir ((contentTypeOf ct).take 63)).label =
      (openedLabel type dir ct).flip := by
  have h : contentTypeOf (((contentTypeOf ct).take 63).take 63) = contentTypeOf ct := by
    rw [List.take_take]
    exact contentTypeOf_idem ct
  simp only [openedChan, freshChan, Chan.label, openedLabel, Label.flip, Dir.role, h]
  split <;> rfl

/-- The arguments of a `netchan_chan_open`: a type and a direction are bytes on the wire. -/
def Call.Declares : Call → Prop
  | .chanOpen type dir _ => ChanType.ofByte type.toByte = type ∧ Dir.ofByte dir.toByte = dir
  | _ => True

instance : ∀ k : Call, Decidable k.Declares
  | .chanOpen .. => inferInstanceAs (Decidable (_ ∧ _))
  | .connect .. | .accept | .disconnect | .service .. | .chanClose .. | .write .. | .read .. | .poll =>
    inferInstanceAs (Decidable True)

section
variable (lab : Side → ChanId → Option Label) (calls : Side → Call → Prop)

/-- The channel with the label `l` at `id` was opened by end `s`, with one of its calls. -/
structure OpenedBy (log : Log) (s : Side) (id : ChanId) (l : Label) : Prop where
  owns : s.Owns id
  opened : id ∈ log.opened s
  label : lab s id = some l
  call : ∃ type dir ct, calls s (.chanOpen type dir ct) ∧ l = openedLabel type dir ct

/-- A CHANNEL_OPEN describes a channel that its sender opened. -/
def Frame.Announces (s : Side) (log : Log) : Frame → Prop
  | .channelOpen id type dir ct => ∃ ct', ct = (contentTypeOf ct').take 63 ∧
    OpenedBy lab calls log s id (openedLabel type dir ct')
  | _ => True

/-- Each end's channels are its own or its peer's. -/
structure ChansOk (x : Ends) : Prop where
  next : ∀ s : Side, s.Owns (x.conn s).nextChanId
  opened : ∀ s : Side, ∀ id ∈ x.log.opened s, s.Owns id
  chans : ∀ s id ch, (x.conn s).channels id = some ch →
    OpenedBy lab calls x.log s id ch.label ∨ OpenedBy lab calls x.log s.other id ch.label.flip

def Announces : Promise where
  inv := ChansOk lab calls
  queued := Frame.Announces lab calls
  carried := Frame.Announces lab calls

/-- The labels are the ones `netchan_chan_open` is called with. -/
def Foreseen (x : Ends) (s : Side) (k : Call) : Prop :=
  calls s k ∧ k.Declares ∧ ∀ type dir ct, k = .chanOpen type dir ct →
    (netchanChanOpen (x.conn s) type dir ct).1 = some (x.conn s).nextChanId →
      lab s (x.conn s).nextChanId = some (openedLabel type dir ct)

variable {lab calls}

theorem OpenedBy.mono {log log' : Log} {s : Side} {id : ChanId} {l : Label}
    (h : OpenedBy lab calls log s id l) (hl : log.Le log') : OpenedBy lab calls log' s id l :=
  { h with opened := (hl.opened s).subset h.opened }

theorem Frame.Announces.mono {s : Side} {log log' : Log} {f : Frame}
    (h : f.Announces lab calls s log) (hl : log.Le log') : f.Announces lab calls s log' := by
  cases f with
  | channelOpen id type dir ct =>
    obtain ⟨ct', hct, ho⟩ := h
    exact ⟨ct', hct, ho.mono hl⟩
  | _ => trivial

/-- The tables keep their labels, and the log grows without a `netchan_chan_open`. -/
theorem ChansOk.congr {x x' : Ends} (h : ChansOk lab calls x) (hl : x.log.Le x'.log)
    (ho : x'.log.opened = x.log.opened)
    (hn : ∀ s : Side, s.Owns (x'.conn s).nextChanId)
    (hs : ∀ s, SameLabels (x.conn s) (x'.conn s)) : ChansOk lab calls x' := by
  refine ⟨hn, by rw [ho]; exact h.opened, fun s id ch hc => ?_⟩
  have hlab := hs s id
  rw [hc, Option.map_some, eq_comm, Option.map_eq_some_iff] at hlab
  obtain ⟨ch0, hc0, hlab⟩ := hlab
  rw [← hlab]
  exact (h.chans s id ch0 hc0).imp (·.mono hl) (·.mono hl)

theorem announces_sent {x : Ends} {s : Side} {c : Conn} {f : Frame} (h : ChansOk lab calls x)
    (hn : c.nextChanId = (x.conn s).nextChanId) (hs : SameLabels (x.conn s) c) :
    ChansOk lab calls (x.sent s c f) := by
  have ho : (x.log.frameSent s f).opened = x.log.opened := by cases f <;> rfl
  refine h.congr (Log.le_frameSent ..) ho (fun t => ?_) fun t => ?_ <;>
    by_cases ht : t = s
  · subst ht
    simp only [Ends.sent, Function.update_self, hn]
    exact h.next t
  · simp only [Ends.sent, Function.update_of_ne ht]
    exact h.next t
  · subst ht
    simp only [Ends.sent, Function.update_self]
    exact hs
  · simp only [Ends.sent, Function.update_of_ne ht]
    exact fun _ => rfl

theorem announces_called {x : Ends} {s : Side} {k : Call} (h : ChansOk lab calls x)
    (hok : Foreseen lab calls x s k) : ChansOk lab calls (x.called s k) ∧
      ∀ f, Queues (x.conn s) (.call k) f → f.Announces lab calls s (x.called s k).log := by
  have hle := Log.le_called x.log s (x.conn s) k
  have hnext : ∀ t : Side, t.Owns ((x.called s k).conn t).nextChanId := by
    intro t
    by_cases ht : t = s
    · subst ht
      simp only [Ends.called, Function.update_self]
      exact call_nextChanId (h.next t) k
    · simp only [Ends.called, Function.update_of_ne ht]
      exact h.next t
  rcases call_labels (x.conn s) k with ⟨hs, ho⟩ | ⟨type, dir, ct, rfl, ho, hn, ht⟩
  · refine ⟨h.congr hle (ho x.log s) hnext fun t => ?_, fun f hq => ?_⟩
    · by_cases ht : t = s
      · subst ht
        simp only [Ends.called, Function.update_self]
        exact hs
      · simp only [Ends.called, Function.update_of_ne ht]
        exact fun _ => rfl
    · cases hq with
      | @opened type dir ct hc hopen =>
        -- a channel that was opened is in the log
        have hlog := congrFun (ho x.log s) s
        simp [Log.called, hopen] at hlog
      | _ => trivial
  · have hlog : ((x.called s (.chanOpen type dir ct)).log).opened =
        Function.update x.log.opened s (x.log.opened s ++ [(x.conn s).nextChanId]) := by
      simp only [Ends.called, Log.called, ho]
    have hnew : OpenedBy lab calls (x.called s (.chanOpen type dir ct)).log s
        (x.conn s).nextChanId (openedLabel type dir ct) :=
      ⟨h.next s, by simp [hlog], hok.2.2 type dir ct rfl ho, type, dir, ct, hok.1, rfl⟩
    refine ⟨⟨hnext, fun t id hid => ?_, fun t id ch hc => ?_⟩, fun f hq => ?_⟩
    · rw [hlog] at hid
      by_cases hts : t = s
      · subst hts
        rw [Function.update_self] at hid
        rcases List.mem_append.1 hid with hid | hid
        · exact h.opened t id hid
        · rw [List.mem_singleton.1 hid]
          exact h.next t
      · rw [Function.update_of_ne hts] at hid
        exact h.opened t id hid
    · have hold : (x.conn t).channels id = some ch →
          OpenedBy lab calls (x.called s (.chanOpen type dir ct)).log t id ch.label ∨
            OpenedBy lab calls (x.called s (.chanOpen type dir ct)).log t.other id ch.label.flip :=
        fun hc => (h.chans t id ch hc).imp (·.mono hle) (·.mono hle)
      by_cases hts : t = s
      · subst hts
        simp only [Ends.called, Function.update_self, ht] at hc
        by_cases hid : id = (x.conn t).nextChanId
        · subst hid
          rw [Table.set_same] at hc
          cases hc
          exact .inl hnew
        · rw [Table.set_of_ne _ hid] at hc
          exact hold hc
      · simp only [Ends.called, Function.update_of_ne hts] at hc
        exact hold hc
    · cases hq with
      | opened hc hopen =>
        obtain ⟨h1, h2⟩ := hok.2.1
        show ∃ ct', _ ∧ OpenedBy lab calls _ s _ (openedLabel (.ofByte type.toByte)
          (.ofByte dir.toByte) ct')
        rw [h1, h2]
        exact ⟨ct, rfl, hnew⟩
      | advertised hd hc => trivial

theorem announces_heard {x : Ends} {s : Side} {env : Env} {stamp : Log} {f : Frame}
    (h : ChansOk lab calls x) (hst : stamp.Le x.log)
    (hf : f.Announces lab calls s.other stamp) : ChansOk lab calls (x.heard s env stamp f) := by
  have hle := Log.le_frameHeard x.log s stamp (x.conn s) (stepFrame env (x.conn s) f) f
  have ho : (x.log.frameHeard s stamp (x.conn s) (stepFrame env (x.conn s) f) f).opened =
      x.log.opened := by
    unfold Log.frameHeard
    repeat' split
    all_goals rfl
  have hnext : ∀ t : Side, t.Owns ((x.heard s env stamp f).conn t).nextChanId := by
    intro t
    by_cases ht : t = s
    · subst ht
      simp only [Ends.heard, Function.update_self, (stepFrame_fixed env (x.conn t) f).2.2]
      exact h.next t
    · simp only [Ends.heard, Function.update_of_ne ht]
      exact h.next t
  rcases frame_labels env (x.conn s) f with hs | ⟨j, type, dir, ct, rfl, hn, ht⟩
  · refine h.congr hle ho hnext fun t => ?_
    by_cases ht : t = s
    · subst ht
      simp only [Ends.heard, Function.update_self]
      exact hs
    · simp only [Ends.heard, Function.update_of_ne ht]
      exact fun _ => rfl
  · obtain ⟨ct', rfl, hopen⟩ := hf
    refine ⟨hnext, fun t => ?_, fun t id ch hc => ?_⟩
    · show ∀ id ∈ (x.log.frameHeard s stamp (x.conn s) _ _).opened t, t.Owns id
      rw [ho]
      exact h.opened t
    · have hold : (x.conn t).channels id = some ch → _ := fun hc =>
        (h.chans t id ch hc).imp (·.mono hle) (·.mono hle)
      by_cases hts : t = s
      · subst hts
        simp only [Ends.heard, Function.update_self, ht] at hc
        by_cases hid : id = j
        · subst hid
          rw [Table.set_same] at hc
          cases hc
          rw [openedChan_label, Label.flip_flip]
          exact .inr (hopen.mono (hst.trans hle))
        · rw [Table.set_of_ne _ hid] at hc
          exact hold hc
      · simp only [Ends.heard, Function.update_of_ne hts] at hc
        exact hold hc

theorem ChansOk.label {x : Ends} {s : Side} {id : ChanId} {l : Label} (h : ChansOk lab calls x)
    (hl : s.Owns id ∧ lab s id = some l ∨ s.other.Owns id ∧ lab s.other id = some l.flip) :
    (∀ ch, (x.conn s).channels id = some ch → ch.label = l) ∧
      ∀ ch, (x.conn s.other).channels id = some ch → ch.label = l.flip := by
  have hmine (t : Side) (ch : Chan) (hc : (x.conn t).channels id = some ch) (m : Label)
      (hm : t.Owns id ∧ lab t id = some m ∨ t.other.Owns id ∧ lab t.other id = some m.flip) :
      ch.label = m := by
    rcases h.chans t id ch hc with ho | ho <;> rcases hm with hm | hm
    · exact Option.some.inj (ho.label.symm.trans hm.2)
    · exact absurd (hm.1.unique ho.owns) t.other_ne
    · exact absurd (ho.owns.unique hm.1) t.other_ne
    · have he := Option.some.inj (ho.label.symm.trans hm.2)
      rw [← Label.flip_flip ch.label, he, Label.flip_flip]
  refine ⟨fun ch hc => hmine s ch hc l hl, fun ch hc => hmine s.other ch hc l.flip ?_⟩
  rw [Side.other_other, Label.flip_flip]
  exact hl.symm

theorem label_fields {ch : Chan} {l : Label} (h : ch.label = l) :
    ch.type = l.type ∧ ch.role = l.role ∧ ch.contentType = l.contentType := by
  subst h
  exact ⟨rfl, rfl, rfl⟩

/-- By the labels, the channel is of this type and goes from end `s` to the other one. -/
def ChanFrom (lab : Side → ChanId → Option Label) (type : ChanType) (s : Side) (id : ChanId) : Prop :=
  ∃ l : Label, l.type = type ∧ l.role = .sender ∧
    (s.Owns id ∧ lab s id = some l ∨ s.other.Owns id ∧ lab s.other id = some l.flip)

theorem ChanFrom.kinds {x : Ends} {type : ChanType} {s : Side} {id : ChanId}
    (h : ChanFrom lab type s id) (hx : ChansOk lab calls x) :
    (∀ ch, (x.conn s).channels id = some ch → ch.role = .sender ∧ ch.type = type) ∧
      ∀ ch, (x.conn s.other).channels id = some ch → ch.role = .receiver ∧ ch.type = type := by
  obtain ⟨l, ht, hr, hl⟩ := h
  obtain ⟨hs, ho⟩ := hx.label hl
  refine ⟨fun ch hc => ?_, fun ch hc => ?_⟩
  · obtain ⟨h1, h2, -⟩ := label_fields (hs ch hc)
    exact ⟨h2.trans hr, h1.trans ht⟩
  · obtain ⟨h1, h2, -⟩ := label_fields (ho ch hc)
    refine ⟨?_, h1.trans ht⟩
    rw [h2, Label.flip]
    simp [hr, Role.flip]

theorem announces_kept :
    (Announces lab calls).Kept (Foreseen lab calls) (fun _ _ _ _ => True) where
  grow hl h := h.mono hl
  alike := by
    intro x x' h hl ha
    refine ChansOk.congr h (by rw [hl]; exact .refl _) (by rw [hl]) (fun s => ?_) fun s id => ?_
    · rw [(ha s).nextChanId]
      exact h.next s
    · rw [(ha s).channels]
  called _ h hok := announces_called h hok
  heard := by
    intro x s env stamp f _ h hst hf _
    exact ⟨announces_heard h hst hf, fun g hq => by cases hq <;> trivial⟩
  flushed h hq := ⟨announces_sent h rfl fun _ => rfl, hq.mono (Log.le_frameSent ..)⟩
  emitted _ h he :=
    ⟨announces_sent h (emit_cfg he).2.2 (emit_labels he), by cases he <;> trivial⟩
  transmitted h := h.congr (Log.le_transmitted ..) rfl h.next fun _ _ => rfl

end

/-! ## Runs -/

/-- The arguments of the calls are in range. -/
def Op.Declares : Op → Prop
  | .call _ k => k.Declares
  | _ => True

instance : ∀ op : Op, Decidable op.Declares
  | .call _ k => inferInstanceAs (Decidable k.Declares)
  | .send .. | .deliver .. | .dup .. | .drop .. => inferInstanceAs (Decidable True)

/-- The labels of the channels of a world. -/
def World.labels (w : World) (s : Side) (id : ChanId) : Option Label :=
  ((w.conn s).channels id).map Chan.label

/-- **The labels of the last state are the ones the calls of the run declare.** -/
theorem foreseen_run {last : World} {calls : Side → Call → Prop}
    {okFrame : Ends → Side → Log → Frame → Prop} : ∀ (ops : List Op) (w : World),
    last = Lib.run World.step w ops →
    Along World.step (fun w op => op.Declares ∧ op.Meets (fun _ _ _ => True) okFrame w) w ops →
    (∀ s k, Op.call s k ∈ ops → calls s k) →
    Along World.step (fun w op => op.Meets (Foreseen last.labels calls) okFrame w) w ops
  | [], _, _, _, _ => trivial
  | op :: ops, w, hlast, hops, hcalls => by
    obtain ⟨⟨hdecl, hmeets⟩, hrest⟩ := hops
    refine ⟨?_, foreseen_run ops (w.step op) hlast hrest fun s k hk => hcalls s k (.tail _ hk)⟩
    cases op with
    | call s k =>
      refine ⟨hcalls s k (.head _), hdecl, ?_⟩
      rintro type dir ct rfl ho
      rcases call_labels (w.conn s) (.chanOpen type dir ct) with ⟨-, hl⟩ | ⟨_, _, _, he, -, -, ht⟩
      · have hlog := congrFun (hl {} s) s
        simp [Log.called, ho] at hlog
      · cases he
        rw [hlast]
        refine labelled_run (w := w.step (.call s (.chanOpen type dir ct))) ?_ ops
        simp only [World.step, Ends.called, Function.update_self]
        rw [Labelled, ht, Table.set_same]
        rfl
    | send s env buflen => exact hmeets
    | deliver s i env source => exact hmeets
    | _ => trivial

/-- With the default configuration and roomy buffers nothing more is asked. -/
theorem roomy_meets : ∀ (ops : List Op) (w : World), (∀ s, (w.conn s).Plain) →
    (∀ op ∈ ops, op.Roomy ∧ op.Declares) →
    Along World.step (fun w op => op.Declares ∧
      op.Meets (fun _ _ _ => True) (fun _ _ _ _ => True) w) w ops
  | [], _, _, _ => trivial
  | op :: ops, w, hw, hops => by
    obtain ⟨hroom, hdecl⟩ := hops op (.head _)
    have hmeets : op.Meets (fun _ _ _ => True) (fun _ _ _ _ => True) w :=
      Promise.meets_of_whole (roomy_whole hw hroom) (fun _ _ _ => trivial) fun _ _ _ _ => trivial
    exact ⟨⟨hdecl, hmeets⟩, roomy_meets ops (w.step op) (World.conn_step (fun _ => plain_step) hw op)
      fun o ho => hops o (.tail _ ho)⟩

theorem chansOk_init (lab : Side → ChanId → Option Label) (calls : Side → Call → Prop)
    (cfg : Side → Cfg) : ChansOk lab calls (World.init cfg).toEnds := by
  refine ⟨fun s => ?_, fun s => ?_, fun s id ch hc => ?_⟩
  · have hnext : ((World.init cfg).conn s).nextChanId = if s.isServer then 1 else 0 := rfl
    rw [hnext]
    cases s <;> decide
  · simp [World.init]
  · simp [World.init, netchanConfig, netchanOpen] at hc

/-- **The ends agree on their channels**: an id that both tables hold was opened by the end it
belongs to, in one of its calls, and both ends have the type and the content type of that call; one
of them sends and the other receives. -/
theorem channels_agree (ops : List Op) (h : ∀ op ∈ ops, op.Roomy ∧ op.Declares) :
    let w := World.run defaults ops
    ∀ id cch sch, (w.conn .client).channels id = some cch → (w.conn .server).channels id = some sch →
      ∃ s type dir ct, Op.call s (.chanOpen type dir ct) ∈ ops ∧ s.Owns id ∧
        id ∈ w.log.opened s ∧ id ∉ w.log.opened s.other ∧
        cch.type = type ∧ sch.type = type ∧
        cch.contentType = contentTypeOf ct ∧ sch.contentType = contentTypeOf ct ∧
        cch.role = (if s = .client then dir.role else dir.role.flip) ∧ sch.role = cch.role.flip := by
  intro w id cch sch hcc hsc
  let calls : Side → Call → Prop := fun s k => Op.call s k ∈ ops
  have hP : (Announces w.labels calls).Kept (Foreseen w.labels calls) (fun _ _ _ _ => True) :=
    announces_kept
  have hholds : (Announces w.labels calls).Holds w :=
    run_invariant (fun _ _ hv hop => Promise.step hP hv hop)
      (Promise.init defaults (chansOk_init _ _ defaults))
      (foreseen_run ops _ rfl (roomy_meets ops _ plain_init h) fun _ _ hk => hk)
  have hinv : ChansOk w.labels calls w.toEnds := hholds.ends.inv
  have halone : ∀ s : Side, s.Owns id → id ∉ w.log.opened s.other := fun s ho hm =>
    Side.other_ne s (hinv.opened s.other id hm |>.unique ho)
  rcases hinv.chans .client id cch hcc with hc | hc <;>
    rcases hinv.chans .server id sch hsc with hs | hs
  · cases hc.owns.unique hs.owns
  · obtain ⟨type, dir, ct, hcall, hl⟩ := hc.call
    have hflip : sch.label = (openedLabel type dir ct).flip := by
      rw [← hl, Option.some.inj (hc.label.symm.trans hs.label), Label.flip_flip]
    obtain ⟨h1, h2, h3⟩ := label_fields hl
    obtain ⟨h4, h5, h6⟩ := label_fields hflip
    exact ⟨.client, type, dir, ct, hcall, hc.owns, hc.opened, halone _ hc.owns, h1, h4, h3, h6, h2,
      by rw [h5, h2]; rfl⟩
  · obtain ⟨type, dir, ct, hcall, hl⟩ := hs.call
    have hflip : cch.label = (openedLabel type dir ct).flip := by
      rw [← hl, Option.some.inj (hs.label.symm.trans hc.label), Label.flip_flip]
    obtain ⟨h1, h2, h3⟩ := label_fields hl
    obtain ⟨h4, h5, h6⟩ := label_fields hflip
    refine ⟨.server, type, dir, ct, hcall, hs.owns, hs.opened, halone _ hs.owns, h4, h1, h6, h3, h5,
      ?_⟩
    rw [h2, h5]
    cases hr : (openedLabel type dir ct).role <;> simp [Label.flip, Role.flip, hr]
  · cases hc.owns.unique hs.owns

/-- The channel of a session that the client set up, at both ends. -/
theorem channels_agree_open :
    let w := World.run defaults openOps
    ((w.conn .client).channels 0).isSome ∧ ((w.conn .server).channels 0).isSome ∧
      ∃ cch sch, (w.conn .client).channels 0 = some cch ∧ (w.conn .server).channels 0 = some sch ∧
        sch.type = cch.type ∧ sch.contentType = cch.contentType ∧ sch.role = cch.role.flip := by
  have h1 : (((World.run defaults openOps).conn .client).channels 0).isSome := by decide +kernel
  have h2 : (((World.run defaults openOps).conn .server).channels 0).isSome := by decide +kernel
  have hagree := channels_agree openOps (by decide)
  generalize World.run defaults openOps = w at h1 h2 hagree
  refine ⟨h1, h2, ?_⟩
  obtain ⟨cch, hc⟩ := Option.isSome_iff_exists.1 h1
  obtain ⟨sch, hs⟩ := Option.isSome_iff_exists.1 h2
  obtain ⟨s, type, dir, ct, -, -, -, -, e1, e2, e3, e4, -, e5⟩ :=
    hagree 0 cch sch hc hs
  exact ⟨cch, sch, hc, hs, e2.trans e1.symm, e4.trans e3.symm, e5⟩

end Netchan
