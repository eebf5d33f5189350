import Netchan.Pair.Sequence

/-!
# Order on reliable channels

`EndInOrder` says of one end what its channels hold, by the log: the slots of a sending channel the
last messages that were written, the reorder table of a receiving one the messages that come after
those that were passed. Every call, every frame and every datagram that is sent keeps it
(`ordered_kept`), as long as datagrams do not get too old, so in every run what an end places in a
receive queue is, in order, a part of what the other one wrote (`reliable_in_order`).
-/

namespace Netchan

open Lib

/-! ## One end -/

/-- An end with reliable channels only: what it wrote and what it passed, by the log. -/
structure EndInOrder (l : Log) (s : Side) (c : Conn) : Prop where
  store : StoreOk c
  reliable : ∀ id ch, c.channels id = some ch → ch.type = .reliable
  sends : ∀ id ch, c.channels id = some ch → ch.role = .sender →
    ch.snd.InOrder c.pool (maxFragPayload c) (l.written s id) (l.passed s.other id) ∧
      ch.rcv.needAck = false
  mute : ∀ id, (∀ ch, c.channels id = some ch → ch.role ≠ .sender) → l.written s id = []
  hears : ∀ id ch, c.channels id = some ch → ch.role = .receiver →
    (c.rx ch).InOrder (l.written s.other id) (l.passed s id) (l.placed s id)
  deaf : ∀ id, (∀ ch, c.channels id = some ch → ch.role ≠ .receiver) →
    l.passed s id = 0 ∧ l.placed s id = []

section
variable {l l' : Log} {s : Side} {c c' : Conn}

theorem EndInOrder.near (h : EndInOrder l s c) (id : ChanId) :
    (l.written s id).length ≤ l.passed s.other id + ncOutgoingSlots := by
  by_cases hs : ∀ ch, c.channels id = some ch → ch.role ≠ .sender
  · rw [h.mute id hs]
    exact Nat.zero_le _
  · push Not at hs
    obtain ⟨ch, hc, hr⟩ := hs
    exact (h.sends id ch hc hr).1.near_le

theorem EndInOrder.le (h : EndInOrder l s c) (id : ChanId) :
    l.passed s id ≤ (l.written s.other id).length := by
  by_cases hs : ∀ ch, c.channels id = some ch → ch.role ≠ .receiver
  · rw [(h.deaf id hs).1]
    exact Nat.zero_le _
  · push Not at hs
    obtain ⟨ch, hc, hr⟩ := hs
    exact (h.hears id ch hc hr).le

theorem EndInOrder.sublist (h : EndInOrder l s c) (id : ChanId) :
    (l.placed s id).Sublist (l.written s.other id) := by
  by_cases hs : ∀ ch, c.channels id = some ch → ch.role ≠ .receiver
  · rw [(h.deaf id hs).2]
    exact List.nil_sublist _
  · push Not at hs
    obtain ⟨ch, hc, hr⟩ := hs
    exact (h.hears id ch hc hr).placed.trans (List.take_sublist _ _)

/-- What the log does not say about messages does not matter. -/
theorem EndInOrder.congr (h : EndInOrder l s c) (hw : l'.written = l.written)
    (hp : l'.passed = l.passed) (hq : l'.placed = l.placed) : EndInOrder l' s c := by
  obtain ⟨h1, h2, h3, h4, h5, h6⟩ := h
  refine ⟨h1, h2, ?_, ?_, ?_, ?_⟩
  · rw [hw, hp]
    exact h3
  · rw [hw]
    exact h4
  · rw [hw, hp, hq]
    exact h5
  · rw [hp, hq]
    exact h6

theorem EndInOrder.theirs (h : EndInOrder l s c) (hw : l'.written s = l.written s)
    (hp : l'.passed s = l.passed s) (hq : l'.placed s = l.placed s)
    (hw' : ∀ id, l.written s.other id <+: l'.written s.other id)
    (hp' : ∀ id, l.passed s.other id ≤ l'.passed s.other id) : EndInOrder l' s c := by
  refine ⟨h.store, h.reliable, fun id ch hc hr => ?_, ?_, fun id ch hc hr => ?_, ?_⟩
  · rw [hw]
    exact ⟨(h.sends id ch hc hr).1.mono (hp' id), (h.sends id ch hc hr).2⟩
  · rw [hw]
    exact h.mute
  · rw [hp, hq]
    exact (h.hears id ch hc hr).grow (hw' id)
  · rw [hp, hq]
    exact h.deaf

/-- A step of the end: what it does to a channel is related by `Q`. -/
theorem EndInOrder.kept {Q : ChanId → Chan → Chan → Prop} (h : EndInOrder l s c) (hst : StoreOk c')
    (hcfg : c'.cfg = c.cfg) (hrel : ∀ id ch, c'.channels id = some ch → ch.type = .reliable)
    (hk : ∀ id, ChanKept c c' id (Q id)) (hkind : ∀ id ch ch', Q id ch ch' → SameKind ch ch')
    (hnone : ∀ id, c.channels id = none → l'.written s id = l.written s id ∧
      l'.passed s id = l.passed s id ∧ l'.placed s id = l.placed s id)
    (hsnd : ∀ id ch ch', c.channels id = some ch → Q id ch ch' → ch.role = .sender →
      ch.snd.InOrder c.pool (maxFragPayload c) (l.written s id) (l.passed s.other id) →
      ch'.snd.InOrder c'.pool (maxFragPayload c) (l'.written s id) (l'.passed s.other id) ∧
        (ch'.rcv.needAck = true → ch.rcv.needAck = true) ∧
        l'.passed s id = l.passed s id ∧ l'.placed s id = l.placed s id)
    (hrcv : ∀ id ch ch', c.channels id = some ch → Q id ch ch' → ch.role = .receiver →
      (c.rx ch).InOrder (l.written s.other id) (l.passed s id) (l.placed s id) →
      (c'.rx ch').InOrder (l'.written s.other id) (l'.passed s id) (l'.placed s id) ∧
        l'.written s id = l.written s id) : EndInOrder l' s c' := by
  have hfp : maxFragPayload c' = maxFragPayload c := maxFragPayload_congr hcfg
  have habs (id : ChanId) (hn : c.channels id = none) :
      l'.written s id = [] ∧ l'.passed s id = 0 ∧ l'.placed s id = [] := by
    have hno (r : Role) (ch : Chan) (hc : c.channels id = some ch) : ch.role ≠ r := by
      rw [hn] at hc
      cases hc
    obtain ⟨h1, h2, h3⟩ := hnone id hn
    obtain ⟨h4, h5⟩ := h.deaf id (hno _)
    exact ⟨h1.trans (h.mute id (hno _)), h2.trans h4, h3.trans h5⟩
  refine ⟨hst, hrel, fun id ch' hc' hr => ?_, fun id hno => ?_, fun id ch' hc' hr => ?_,
    fun id hno => ?_⟩
  · rcases (hk id).2 ch' hc' with ⟨hn, hnew⟩ | ⟨ch, hc, hq⟩
    · rw [(habs id hn).1, hnew.snd, hnew.rcv]
      exact ⟨.empty _ _ _, rfl⟩
    · have hr0 : ch.role = .sender := (hkind id ch ch' hq).role.symm.trans hr
      obtain ⟨hs, hack⟩ := h.sends id ch hc hr0
      obtain ⟨hs', hack', -⟩ := hsnd id ch ch' hc hq hr0 hs
      rw [hfp]
      refine ⟨hs', ?_⟩
      by_contra hn
      rw [hack' (by simpa using hn)] at hack
      cases hack
  · cases hc : c.channels id with
    | none => exact (habs id hc).1
    | some ch =>
      obtain ⟨ch', hc', hq⟩ := (hk id).chan hc
      have hr : ch.role ≠ .sender := fun hr => hno ch' hc' ((hkind id ch ch' hq).role.trans hr)
      have hr' : ch.role = .receiver := by
        cases he : ch.role with
        | sender => exact absurd he hr
        | receiver => rfl
      rw [(hrcv id ch ch' hc hq hr' (h.hears id ch hc hr')).2]
      refine h.mute id fun d hd => ?_
      rw [hc] at hd
      cases hd
      exact hr
  · rcases (hk id).2 ch' hc' with ⟨hn, hnew⟩ | ⟨ch, hc, hq⟩
    · rw [(habs id hn).2.1, (habs id hn).2.2, Conn.rx, hnew.rcv]
      exact .empty _ _ _ _
    · have hr0 : ch.role = .receiver := (hkind id ch ch' hq).role.symm.trans hr
      exact (hrcv id ch ch' hc hq hr0 (h.hears id ch hc hr0)).1
  · cases hc : c.channels id with
    | none => exact (habs id hc).2
    | some ch =>
      obtain ⟨ch', hc', hq⟩ := (hk id).chan hc
      have hr : ch.role ≠ .receiver := fun hr => hno ch' hc' ((hkind id ch ch' hq).role.trans hr)
      have hr' : ch.role = .sender := by
        cases he : ch.role with
        | sender => rfl
        | receiver => exact absurd he hr
      obtain ⟨-, -, h1, h2⟩ := hsnd id ch ch' hc hq hr' (h.sends id ch hc hr').1
      rw [h1, h2]
      refine h.deaf id fun d hd => ?_
      rw [hc] at hd
      cases hd
      exact hr

end

/-! ## What an end does -/

section
variable {l : Log} {s : Side} {c c' : Conn} {id : ChanId} {ch : Chan} {S : Set Owner}

theorem out_read (hs : StoreOk c) (hch : c.arena.Change S c'.arena) (hc : c.channels id = some ch)
    {k : Fin ncOutgoingSlots} (ha : (ch.snd.outgoing k).active = true) (hS : (id, Loc.out k) ∉ S) :
    c'.pool.read (ch.snd.outgoing k).buf 0 (ch.snd.outgoing k).len =
      c.pool.read (ch.snd.outgoing k).buf 0 (ch.snd.outgoing k).len := by
  obtain ⟨⟨b, hb⟩, hlen⟩ := hs.snd id ch hc k ha
  rw [hb]
  refine read_of_bytes (hch.cont (id, .out k) hS b ?_) (by omega)
  rw [holds_of_chan hc]
  exact hb

theorem reorder_read (hs : StoreOk c) (hch : c.arena.Change S c'.arena) (hc : c.channels id = some ch)
    {k : Fin ncReorderSlots} (ha : (ch.rcv.reorder k).valid = true) (hS : (id, Loc.reorder k) ∉ S) :
    c'.pool.read (ch.rcv.reorder k).buf 0 (ch.rcv.reorder k).len =
      c.pool.read (ch.rcv.reorder k).buf 0 (ch.rcv.reorder k).len := by
  obtain ⟨⟨b, hb⟩, hlen⟩ := (hs.rcv id ch hc).reorder k ha
  rw [hb]
  refine read_of_bytes (hch.cont (id, .reorder k) hS b ?_) (by omega)
  rw [holds_of_chan hc]
  exact hb

theorem Rx.InOrder.left {ch' : Chan} {ms : List (List UInt8)} {pass : Nat} {placed : List (List UInt8)}
    (h : (c.rx ch).InOrder ms pass placed) (hs : StoreOk c) (hch : c.arena.Change S c'.arena)
    (hc : c.channels id = some ch) (hS : ∀ k, (id, Loc.reorder k) ∉ S)
    (hseq : ch'.rcv.recvSeq = ch.rcv.recvSeq) (hr : ch'.rcv.reorder = ch.rcv.reorder)
    (ha : ch'.rcv.needAck = true → ch.rcv.needAck = true ∧ ch'.rcv.ackSeq = ch.rcv.ackSeq) :
    (c'.rx ch').InOrder ms pass placed := by
  refine h.same hseq hr (fun k hk => ?_) ha
  simp only [Rx.slotBytes, Conn.rx, hr]
  exact reorder_read hs hch hc hk (hS k)

/-! ### Calls -/

/-- What a call writes to the log about messages. -/
theorem Log.called_messages (l : Log) (s : Side) (c : Conn) (k : Call) :
    (l.called s c k).passed = l.passed ∧ (l.called s c k).placed = l.placed ∧
      (∀ id data, k = .write id data → writeAccepted c id data = true →
        (l.called s c k).written = onChan l.written s id (l.written s id ++ [data])) ∧
      ((∀ id data, k = .write id data → writeAccepted c id data = false) →
        (l.called s c k).written = l.written) := by
  cases k with
  | write id data =>
    simp only [Log.called]
    split
    · rename_i ha
      refine ⟨rfl, rfl, fun _ _ he _ => ?_, fun h => ?_⟩
      · cases he
        rfl
      · rw [h id data rfl] at ha
        cases ha
    · rename_i ha
      refine ⟨rfl, rfl, fun _ _ he hw => ?_, fun _ => rfl⟩
      cases he
      exact absurd hw ha
  | _ =>
    unfold Log.called
    dsimp only
    repeat' split
    all_goals exact ⟨rfl, rfl, fun _ _ he => (by cases he), fun _ => rfl⟩

theorem writeAccepted_idle (h : ∀ ch, c.channels id = some ch → ch.role ≠ .sender)
    (data : List UInt8) : writeAccepted c id data = false := by
  rcases netchanChanWrite_cases c id data with ⟨-, ha⟩ | ⟨ch, b, p, hw, -⟩
  · exact ha
  · exact absurd hw.role (h ch hw.chan)

theorem call_writes (c : Conn) (id : ChanId) (k : Call) :
    (∃ data, k = .write id data ∧ writeAccepted c id data = true) ∨
      ∀ data, k = .write id data → writeAccepted c id data = false := by
  by_cases hw : ∃ data, k = .write id data ∧ writeAccepted c id data = true
  · exact .inl hw
  · refine .inr fun data he => ?_
    by_contra ha
    exact hw ⟨data, he, by simpa using ha⟩

/-- The messages written on a channel, if it is not the one of a `netchan_chan_write`. -/
theorem Log.called_written (l : Log) (s t : Side) (c : Conn) (k : Call) (id : ChanId)
    (hn : t = s → ∀ data, k = .write id data → writeAccepted c id data = false) :
    (l.called s c k).written t id = l.written t id := by
  obtain ⟨-, -, hwrite, hquiet⟩ := Log.called_messages l s c k
  by_cases hw : ∃ j data, k = .write j data ∧ writeAccepted c j data = true
  · obtain ⟨j, data, rfl, ha⟩ := hw
    rw [hwrite j data rfl ha]
    refine if_neg ?_
    rintro ⟨rfl, rfl⟩
    rw [hn rfl data rfl] at ha
    cases ha
  · rw [hquiet fun j data he => ?_]
    by_contra ha
    exact hw ⟨j, data, he, by simpa using ha⟩

/-- Messages fit one fragment, and channels are reliable. -/
def Call.Plain (c : Conn) : Call → Prop
  | .write _ data => data.length ≤ maxFragPayload c
  | .chanOpen type _ _ => type = .reliable
  | _ => True

instance (c : Conn) : ∀ k : Call, Decidable (k.Plain c)
  | .write _ data => inferInstanceAs (Decidable (data.length ≤ maxFragPayload c))
  | .chanOpen type _ _ => inferInstanceAs (Decidable (type = .reliable))
  | .connect .. | .accept | .disconnect | .service .. | .chanClose .. | .read .. | .poll =>
    inferInstanceAs (Decidable True)

theorem out_uncalled (k : Call) (hc : c.channels id = some ch)
    (hw : ∀ i, (ch.snd.outgoing i).active = true → Between ch.snd.outHead ch.snd.outTail i)
    {i : Fin ncOutgoingSlots} (ha : (ch.snd.outgoing i).active = true) :
    (id, Loc.out i) ∉ touched c (.call k) := by
  cases k with
  | write j data =>
    rintro ⟨d, hd, he⟩
    obtain ⟨rfl, he⟩ := Prod.mk.inj he
    rw [hc] at hd
    cases hd
    cases he
    exact not_between_end (hw _ ha)
  | read j buflen =>
    rintro ⟨d, -, he⟩
    cases he
  | _ => exact fun hm => hm

theorem waiting_uncalled (c : Conn) (id : ChanId) (k : Call) :
    (∀ i, (id, Loc.reorder i) ∉ touched c (.call k)) ∧
      ∀ i, (id, Loc.frag i) ∉ touched c (.call k) := by
  cases k with
  | write j data =>
    refine ⟨fun i => ?_, fun i => ?_⟩ <;>
    · rintro ⟨d, -, he⟩
      cases he
  | read j buflen =>
    refine ⟨fun i => ?_, fun i => ?_⟩ <;>
    · rintro ⟨d, -, he⟩
      cases he
  | _ => exact ⟨fun _ hm => hm, fun _ hm => hm⟩

theorem reliable_call (h : EndInOrder l s c) {k : Call} (hk : k.Plain c) (j : ChanId) (e : Chan)
    (he : (k.apply c).channels j = some e) : e.type = .reliable := by
  rcases call_labels c k with ⟨hs, -⟩ | ⟨type, dir, ct, rfl, -, hn, ht⟩
  · have hl := hs j
    rw [he, Option.map_some, eq_comm, Option.map_eq_some_iff] at hl
    obtain ⟨d, hd, hl⟩ := hl
    exact (congrArg Label.type hl).symm.trans (h.reliable j d hd)
  · rw [ht] at he
    by_cases hj : j = c.nextChanId
    · subst hj
      rw [Table.set_same] at he
      cases he
      exact hk
    · rw [Table.set_of_ne _ hj] at he
      exact h.reliable j e he

/-- What the slots of a sending channel hold after a call that writes no message. -/
theorem Sender.InOrder.called {ms : List (List UInt8)} {pass : Nat} {ch' : Chan} {k : Call}
    (h : ch.snd.InOrder c.pool (maxFragPayload c) ms pass) (hk : k.Plain c)
    (hq : ChanCall c id ch k ch') (hw : ∀ data, k = .write id data → writeAccepted c id data = false)
    (hp : ∀ i, (ch.snd.outgoing i).active = true → c'.pool.read (ch.snd.outgoing i).buf 0
      (ch.snd.outgoing i).len = c.pool.read (ch.snd.outgoing i).buf 0 (ch.snd.outgoing i).len) :
    ch'.snd.InOrder c'.pool (maxFragPayload c) ms pass := by
  have hsame (hs : ch'.snd = ch.snd) : ch'.snd.InOrder c'.pool (maxFragPayload c) ms pass := by
    rw [hs]
    exact h.same rfl rfl rfl (fun i => .refl _) hp
  cases hq with
  | timed hg =>
    obtain ⟨h1, h2, h3⟩ := chanTimed_ring c.cfg _ ch
    refine h.same h1 h2 h3 (fun i => ?_) hp
    rcases chanTimed_slots c.cfg _ ch i with he | ⟨-, -, -, he⟩
    · rw [he]
      exact .refl _
    · rw [he]
      exact ⟨rfl, rfl, rfl, rfl, rfl⟩
  | written hcan hf ha =>
    rw [hw _ rfl] at ha
    cases ha
  | skipped hcan hf ha =>
    refine absurd ?_ hf
    rw [fragTotalOf_one hcan.pos hk]
    decide
  | _ => exact hsame rfl

theorem call_written {ch' : Chan} {data : List UInt8} (hc : c.channels id = some ch)
    (hq : ChanCall c id ch (.write id data) ch') (ha : writeAccepted c id data = true) :
    ∃ b p, CanWrite c id data ch b p ∧
      fragTotalOf (maxFragPayload c) data.length ≤ ncMaxFrags ∧ ch' = writtenChan c ch b data ∧
      ((Call.write id data).apply c).pool.read (some b) 0 data.length = data := by
  rcases netchanChanWrite_cases c id data with ⟨-, hn⟩ | ⟨d, b, p, hcan, ⟨hf, -, he⟩ | ⟨-, hn, -⟩⟩
  · rw [hn] at ha
    cases ha
  · have hd : d = ch := Option.some.inj (hcan.chan.symm.trans hc)
    subst hd
    refine ⟨b, p, hcan, hf, ?_, ?_⟩
    · cases hq with
      | written hcan' hf ha' =>
        have hb := hcan.get.symm.trans hcan'.get
        cases hb
        rfl
      | unwritten hn =>
        rw [hn] at ha
        cases ha
      | skipped hcan' hf hn =>
        rw [hn] at ha
        cases ha
      | other hn => exact absurd rfl hn
    · have hpool : ((Call.write id data).apply c).pool = p.write (some b) 0 data := by
        simp only [Call.apply, he]
        rfl
      rw [hpool]
      exact read_write_self p b data
  · rw [hn] at ha
    cases ha

/-- **A call of an end.** -/
theorem endInOrder_call (h : EndInOrder l s c) {k : Call} (hk : k.Plain c) :
    EndInOrder (l.called s c k) s (k.apply c) := by
  obtain ⟨hst, hch⟩ := store_call h.store k
  obtain ⟨hpassed, hplaced, hwrite, -⟩ := Log.called_messages l s c k
  have hother (t : Side) (id : ChanId)
      (hn : t = s → ∀ data, k = .write id data → writeAccepted c id data = false) :=
    l.called_written s t c k id hn
  refine h.kept hst (call_cfg c k).1 (reliable_call h hk) (fun id => call_effect c k id)
    (fun _ _ _ hq => hq.kind) (fun id hn => ?_) (fun id ch ch' hc hq hr hs => ?_)
    fun id ch ch' hc hq hr hx => ?_
  · exact ⟨hother s id fun _ data _ => writeAccepted_idle (by simp [hn]) data, by rw [hpassed],
      by rw [hplaced]⟩
  · rw [hpassed, hplaced]
    refine ⟨?_, fun hn => ?_, rfl, rfl⟩
    swap
    · cases hq with
      | timed hg =>
        rw [(chanTimed_rcv c.cfg _ ch).2] at hn
        exact hn
      | _ => exact hn
    have hread (i : Fin ncOutgoingSlots) (ha : (ch.snd.outgoing i).active = true) :=
      out_read h.store hch hc ha (out_uncalled k hc hs.window ha)
    rcases call_writes c id k with ⟨data, rfl, ha⟩ | hn
    · rw [hwrite id data rfl ha, onChan_same]
      obtain ⟨b, p, hcan, -, rfl, hb⟩ := call_written hc hq ha
      exact hs.written hcan hk hread hb
    · rw [hother s id fun _ => hn]
      exact hs.called hk hq hn hread
  · rw [hpassed, hplaced, hother s.other id fun he => absurd he s.other_ne]
    refine ⟨?_, hother s id fun _ data _ => writeAccepted_idle (by simp [hc, hr]) data⟩
    have hleft {ch' : Chan} (h1 : ch'.rcv.recvSeq = ch.rcv.recvSeq)
        (h2 : ch'.rcv.reorder = ch.rcv.reorder) (h3 : ch'.rcv.needAck = ch.rcv.needAck)
        (h4 : ch'.rcv.ackSeq = ch.rcv.ackSeq) : ((k.apply c).rx ch').InOrder _ _ _ :=
      hx.left h.store hch hc (waiting_uncalled c id k).1 h1 h2 fun hn => ⟨h3 ▸ hn, h4⟩
    cases hq with
    | @timed _ now hg =>
      obtain ⟨-, hrcv⟩ := chanTimed_rcv c.cfg now ch
      exact hleft (by rw [hrcv]) (by rw [hrcv]) (by rw [hrcv]) (by rw [hrcv])
    | _ => exact hleft rfl rfl rfl rfl

/-! ### Frames -/

theorem ack_read (env : Env) (c : Conn) (id : ChanId) (acked : UInt16) (b : Option BufIdx) (n : Nat) :
    (stepFrame env c (.ack id acked)).pool.read b 0 n = c.pool.read b 0 n := by
  simp only [stepFrame, applyFrame, ackReceived, Option.getD_some]
  split
  · rfl
  split
  · rfl
  · rename_i ch hc hr
    have h := ackScan_store acked (List.finRange ncOutgoingSlots) c.pool ch.snd
    generalize (List.finRange ncOutgoingSlots).foldl (ackSlot acked) (c.pool, ch.snd) = r at h
    exact congrArg (Mem.read · (poolPtr b + 0) n) h

theorem data_unheard (env : Env) {seq : UInt16} {idx total : Nat} {payload : List UInt8}
    (h : ∀ ch, c.channels id = some ch → ch.role ≠ .receiver) :
    stepFrame env c (.data id seq idx total payload) = c := by
  simp only [stepFrame, applyFrame, dataReceived, Option.getD_some]
  split
  · rfl
  · rename_i ch hc
    exact if_pos (h ch hc)

/-- What a frame writes to the log about messages. -/
theorem Log.frameHeard_messages (l : Log) (s : Side) (stamp : Log) (c c' : Conn) (f : Frame) :
    (l.frameHeard s stamp c c' f).written = l.written ∧
      (∀ t ≠ s, (l.frameHeard s stamp c c' f).passed t = l.passed t ∧
        (l.frameHeard s stamp c c' f).placed t = l.placed t) ∧
      ∀ id, (∀ seq idx total payload, f = .data id seq idx total payload → c' = c) →
        (l.frameHeard s stamp c c' f).passed s id = l.passed s id ∧
          (l.frameHeard s stamp c c' f).placed s id = l.placed s id := by
  cases f with
  | data j seq idx total payload =>
    refine ⟨rfl, fun t ht => ⟨funext fun i => onChan_of_side _ _ _ _ ht i,
      funext fun i => onChan_of_side _ _ _ _ ht i⟩, fun id hid => ?_⟩
    simp only [Log.frameHeard]
    by_cases hj : id = j
    · subst hj
      rw [hid seq idx total payload rfl]
      simp
    · exact ⟨onChan_of_id _ _ _ _ _ hj, onChan_of_id _ _ _ _ _ hj⟩
  | connectInit id =>
    simp only [Log.frameHeard]
    split
    · exact ⟨rfl, fun _ _ => ⟨rfl, rfl⟩, fun _ _ => ⟨rfl, rfl⟩⟩
    · exact ⟨rfl, fun _ _ => ⟨rfl, rfl⟩, fun _ _ => ⟨rfl, rfl⟩⟩
  | windowUpdate id w =>
    simp only [Log.frameHeard]
    split
    · exact ⟨rfl, fun _ _ => ⟨rfl, rfl⟩, fun _ _ => ⟨rfl, rfl⟩⟩
    · exact ⟨rfl, fun _ _ => ⟨rfl, rfl⟩, fun _ _ => ⟨rfl, rfl⟩⟩
  | _ => exact ⟨rfl, fun _ _ => ⟨rfl, rfl⟩, fun _ _ => ⟨rfl, rfl⟩⟩

/-- What an end can rely on when it processes a frame. -/
structure Frame.Expected (l : Log) (s : Side) (f : Frame) : Prop where
  chan : ∀ id type dir ct, f = .channelOpen id type dir ct → type = .reliable
  data : ∀ id seq idx total payload, f = .data id seq idx total payload → total ≤ 1 ∧
    ∃ n, seq = UInt16.ofNat n ∧ (l.written s.other id)[n]? = some payload ∧
      l.passed s id < n + 2 ^ 15
  ack : ∀ id acked, f = .ack id acked → ∀ n < (l.written s id).length,
    int16 (UInt16.ofNat n - acked) ≤ 0 → n ≤ l.passed s.other id

theorem reliable_frame (h : EndInOrder l s c) (env : Env) {f : Frame} (hf : f.Expected l s) (j : ChanId)
    (e : Chan) (he : (stepFrame env c f).channels j = some e) : e.type = .reliable := by
  rcases frame_labels env c f with hs | ⟨id, type, dir, ct, rfl, hn, ht⟩
  · have hl := hs j
    rw [he, Option.map_some, eq_comm, Option.map_eq_some_iff] at hl
    obtain ⟨d, hd, hl⟩ := hl
    exact (congrArg Label.type hl).symm.trans (h.reliable j d hd)
  · rw [ht] at he
    by_cases hj : j = id
    · subst hj
      rw [Table.set_same] at he
      cases he
      exact hf.chan j type dir ct rfl
    · rw [Table.set_of_ne _ hj] at he
      exact h.reliable j e he

/-- No frame touches a message in an outgoing slot, unless it acknowledges it. -/
theorem out_untouched (env : Env) {f : Frame} (hf : ∀ j acked, f ≠ .ack j acked)
    (i : Fin ncOutgoingSlots) : (id, Loc.out i) ∉ touched c (.frame env f) := by
  cases f with
  | data j seq idx total payload => exact fun hm => hm.2
  | ack j acked => exact absurd rfl (hf j acked)
  | _ => exact fun hm => hm

/-- Only DATA on a channel touches what it receives. -/
theorem unheard_untouched (env : Env) {f : Frame}
    (hf : ∀ seq idx total payload, f ≠ .data id seq idx total payload) {l : Loc}
    (hl : ∀ k, l ≠ .out k) : (id, l) ∉ touched c (.frame env f) := by
  cases f with
  | data j seq idx total payload =>
    rintro ⟨rfl, -⟩
    exact hf seq idx total payload rfl
  | ack j acked =>
    rintro ⟨d, -, -, i, hi, -⟩
    exact hl i hi
  | _ => exact fun hm => hm

/-- **A DATA frame on a channel that receives.** -/
theorem Rx.InOrder.heard (h : EndInOrder l s c) (hc : c.channels id = some ch)
    (hr : ch.role = .receiver) (hnear : (l.written s.other id).length ≤ l.passed s id + ncOutgoingSlots)
    (env : Env) (stamp : Log) {seq : UInt16} {idx total : Nat} {payload : List UInt8}
    (hf : (Frame.data id seq idx total payload).Expected l s) :
    let f := Frame.data id seq idx total payload
    let l' := l.frameHeard s stamp c (stepFrame env c f) f
    ((stepFrame env c f).rx { ch with rcv := dataRcv c id ch seq idx total payload }).InOrder
      (l.written s.other id) (l'.passed s id) (l'.placed s id) := by
  intro f l'
  obtain ⟨htotal, n, rfl, hn, hlate⟩ := hf.data id seq idx total payload rfl
  have htype : ch.type ≠ .unreliable := by
    rw [h.reliable id ch hc]
    nofun
  obtain ⟨ms, hq, hin⟩ := (h.hears id ch hc hr).arrives (rx_ok h.store hc) hn hnear hlate
  have harr : dataReliable (maxFragPayload c) id (c.rx ch) (UInt16.ofNat n) idx total payload =
      dataArrived id (c.rx ch) (UInt16.ofNat n) payload := if_pos htotal
  generalize dataArrived id (c.rx ch) (UInt16.ofNat n) payload = x at hq hin harr
  have hstep : stepFrame env c f = c.withRx id ch { x with rcv := x.rcv.ack } := by
    simp only [f, stepFrame_data env hc hr htype, harr]
  have hrcv : dataRcv c id ch (UInt16.ofNat n) idx total payload = x.rcv.ack := by
    rw [dataRcv, if_neg htype, harr]
  have hset : (stepFrame env c f).channels id = some { ch with rcv := x.rcv.ack } := by
    rw [hstep]
    exact Table.set_same ..
  have hpassed : l'.passed s id = l.passed s id + (x.rcv.recvSeq - ch.rcv.recvSeq).toNat := by
    simp only [l', f, Log.frameHeard, onChan_same]
    rw [recvSeqOf, hset, recvSeqOf, hc]
    rfl
  have hplaced : l'.placed s id = l.placed s id ++ ms := by
    have hold : queued c id = (c.rx ch).queue := by
      simp only [queued, hc]
      rfl
    have hnew : queued (stepFrame env c f) id = x.queue := by
      simp only [queued, hset]
      rw [hstep]
      rfl
    simp only [l', f, Log.frameHeard, onChan_same]
    rw [hnew, hold, hq, List.drop_left]
  have hrx : (stepFrame env c f).rx { ch with rcv := x.rcv.ack } =
      { x with rcv := x.rcv.ack } := by
    rw [hstep]
    rfl
  rw [hrcv, hrx, hpassed, hplaced]
  exact hin

/-- **A frame reaches an end.** -/
theorem endInOrder_frame (h : EndInOrder l s c)
    (hnear : ∀ id, (l.written s.other id).length ≤ l.passed s id + ncOutgoingSlots) (env : Env)
    (stamp : Log) {f : Frame} (hf : f.Expected l s) :
    EndInOrder (l.frameHeard s stamp c (stepFrame env c f) f) s (stepFrame env c f) := by
  have hfit : FramesFit c (.frame env f) := by
    cases f with
    | data id seq idx total payload =>
      intro ch hc hr htotal
      have := (hf.data id seq idx total payload rfl).1
      omega
    | _ => trivial
  obtain ⟨hst, hch⟩ := store_frame h.store env hfit
  obtain ⟨hwritten, hothers, hidle⟩ := Log.frameHeard_messages l s stamp c (stepFrame env c f) f
  have hdeaf (id : ChanId) (hno : ∀ ch, c.channels id = some ch → ch.role ≠ .receiver) :=
    hidle id fun seq idx total payload he => by
      subst he
      exact data_unheard env hno
  refine h.kept hst (stepFrame_fixed env c f).2.1 (reliable_frame h env hf)
    (fun id => frame_effect env c f id) (fun _ _ _ hq => hq.kind) (fun id hn => ?_)
    (fun id ch ch' hc hq hr hs => ?_) fun id ch ch' hc hq hr hx => ?_
  · refine ⟨by rw [hwritten], hdeaf id fun ch hc => ?_⟩
    rw [hn] at hc
    cases hc
  · rw [hwritten, (hothers s.other s.other_ne).1]
    refine ⟨?_, fun hn => ?_, hdeaf id fun d hd => ?_⟩
    · by_cases hack : ∃ j acked, f = .ack j acked
      · obtain ⟨j, acked, rfl⟩ := hack
        cases hq with
        | ack hr' => exact hs.acked (hf.ack id acked rfl) fun i _ => ack_read env c id acked _ _
        | other hne => exact hs.same rfl rfl rfl (fun _ => .refl _) fun i _ => ack_read env c j acked _ _
        | ignored hne => exact absurd hr hne
      · push Not at hack
        have hread (i : Fin ncOutgoingSlots) (ha : (ch.snd.outgoing i).active = true) :=
          out_read h.store hch hc ha (out_untouched env hack i)
        cases hq with
        | ack hr' => exact absurd rfl (hack id _)
        | window hr' => exact hs.same rfl rfl rfl (fun _ => .refl _) hread
        | _ => exact hs.same rfl rfl rfl (fun _ => .refl _) hread
    · cases hq with
      | data hr' => exact absurd (hr.symm.trans hr') nofun
      | _ => exact hn
    · rw [hc] at hd
      cases hd
      rw [hr]
      nofun
  · rw [hwritten]
    refine ⟨?_, rfl⟩
    by_cases hdata : ∃ seq idx total payload, f = .data id seq idx total payload
    · obtain ⟨seq, idx, total, payload, rfl⟩ := hdata
      cases hq with
      | data hr' => exact Rx.InOrder.heard h hc hr (hnear id) env stamp hf
      | other hne => exact absurd rfl hne
      | ignored hne => exact absurd hr hne
    · push Not at hdata
      obtain ⟨h1, h2⟩ := hidle id fun seq idx total payload he => absurd he (hdata seq idx total payload)
      rw [h1, h2]
      have hS (k : Fin ncReorderSlots) : (id, Loc.reorder k) ∉ touched c (.frame env f) :=
        unheard_untouched env hdata (by simp)
      have hleft {ch' : Chan} (h1 : ch'.rcv = ch.rcv) : ((stepFrame env c f).rx ch').InOrder _ _ _ :=
        hx.left h.store hch hc hS (by rw [h1]) (by rw [h1]) fun hn => ⟨h1 ▸ hn, by rw [h1]⟩
      cases hq with
      | data hr' => exact absurd rfl (hdata _ _ _ _)
      | _ => exact hleft rfl

/-! ### Frames that leave -/

theorem Log.frameSent_messages (l : Log) (s : Side) (f : Frame) :
    (l.frameSent s f).written = l.written ∧ (l.frameSent s f).passed = l.passed ∧
      (l.frameSent s f).placed = l.placed := by
  cases f with
  | windowUpdate id w => exact ⟨rfl, rfl, rfl⟩
  | _ => exact ⟨rfl, rfl, rfl⟩

/-- What is known of a frame that end `s` sent when the log was `l`. -/
def Frame.InOrder (s : Side) (l : Log) : Frame → Prop
  | .channelOpen _ type _ _ => type = .reliable
  | .data id seq _ total payload => total = 1 ∧ ∃ n, seq = UInt16.ofNat n ∧
    (l.written s id)[n]? = some payload ∧ (l.written s id).length ≤ n + ncOutgoingSlots
  | .ack id acked => acked = ackFor (UInt16.ofNat (l.passed s id)) ∧
    (l.written s.other id).length ≤ l.passed s id + ncOutgoingSlots
  | _ => True

theorem Sender.InOrder.emitted {p : Pool} {fp : Nat} {ms : List (List UInt8)} {pass : Nat} {a : Sender}
    (h : a.InOrder p fp ms pass) {k : Fin ncOutgoingSlots} (ha : (a.outgoing k).active = true)
    (hmax : (a.outgoing k).len ≤ ncMaxMsg)
    (hk : (a.outgoing k).fragSent < (a.outgoing k).fragTotal) :
    (a.outgoing k).fragTotal = 1 ∧ ∃ n, (a.outgoing k).seq = UInt16.ofNat n ∧
      ms[n]? = some (p.read (a.outgoing k).buf ((a.outgoing k).fragSent * fp) (fragLen fp (a.outgoing k))) ∧
      ms.length ≤ n + ncOutgoingSlots := by
  obtain ⟨n, hn, hold⟩ := h.slots k ha
  have hw := hold.whole
  have hsent : (a.outgoing k).fragSent = 0 := by omega
  have hlt := (a.outTail - k).isLt
  refine ⟨hw, n, hold.seq, ?_, by omega⟩
  have hlen : fragLen fp (a.outgoing k) = (a.outgoing k).len := by
    have hsmall := hold.small
    simp only [ncMaxMsg] at hmax
    unfold fragLen sizeSub
    rw [hsent]
    omega
  rw [hlen, hsent, Nat.zero_mul]
  exact hold.bytes

/-- **A frame is sent.** -/
theorem endInOrder_emit (h : EndInOrder l s c) (hids : ∀ j d, c.channels j = some d → d.id = j)
    (hnear : ∀ id, (l.written s.other id).length ≤ l.passed s id + ncOutgoingSlots) {now : UInt32}
    {f : Frame} (he : Emit now c f c') :
    EndInOrder (l.frameSent s f) s c' ∧ f.InOrder s (l.frameSent s f) := by
  obtain ⟨hst, hch⟩ := store_emit h.store he
  obtain ⟨hwritten, hpassed, hplaced⟩ := Log.frameSent_messages l s f
  have hS (o : Owner) : o ∉ bestEffort c.channels := by
    rintro ⟨d, hd, ht, -⟩
    rw [h.reliable _ d hd] at ht
    cases ht
  refine ⟨h.kept hst (emit_cfg he).1 (fun id e hc' => ?_) (fun id => emit_effect he hids id)
    (fun _ _ _ hq => hq.kind) (fun id hn => ⟨by rw [hwritten], by rw [hpassed], by rw [hplaced]⟩)
    (fun id ch ch' hc hq hr hs => ?_) fun id ch ch' hc hq hr hx => ?_, ?_⟩
  · have hl := emit_labels he id
    rw [hc', Option.map_some, eq_comm, Option.map_eq_some_iff] at hl
    obtain ⟨d, hd, hl⟩ := hl
    exact (congrArg Label.type hl).symm.trans (h.reliable id d hd)
  · rw [hwritten, hpassed, hplaced]
    have hread (i : Fin ncOutgoingSlots) (ha : (ch.snd.outgoing i).active = true) :=
      out_read h.store hch hc ha (hS _)
    cases hq with
    | @data k hsl =>
      rw [chanSent_kept (by simp [h.reliable id ch hc])]
      refine ⟨hs.same rfl rfl rfl (fun i => ?_) hread, fun hn => hn, rfl, rfl⟩
      by_cases hi : i = k
      · subst hi
        simp only [Function.update_self]
        exact ⟨rfl, rfl, rfl, rfl, rfl⟩
      · simp only [Function.update_of_ne hi]
        exact .refl _
    | ack hn => exact ⟨hs.same rfl rfl rfl (fun _ => .refl _) hread, fun hc => (by cases hc), rfl, rfl⟩
    | window hn => exact ⟨hs.same rfl rfl rfl (fun _ => .refl _) hread, fun hn => hn, rfl, rfl⟩
    | other hne => exact ⟨hs.same rfl rfl rfl (fun _ => .refl _) hread, fun hn => hn, rfl, rfl⟩
  · rw [hwritten, hpassed, hplaced]
    refine ⟨?_, rfl⟩
    have hleft {ch' : Chan} (h1 : ch'.rcv.recvSeq = ch.rcv.recvSeq)
        (h2 : ch'.rcv.reorder = ch.rcv.reorder) (h3 : ch'.rcv.needAck = true → ch.rcv.needAck = true)
        (h4 : ch'.rcv.ackSeq = ch.rcv.ackSeq) : (c'.rx ch').InOrder _ _ _ :=
      hx.left h.store hch hc (fun _ => hS _) h1 h2 fun hn => ⟨h3 hn, h4⟩
    cases hq with
    | @data k hsl =>
      obtain ⟨-, hrcv⟩ := chanSent_rcv now c.pool ch k
      exact hleft (by rw [hrcv]) (by rw [hrcv]) (by rw [hrcv]; exact fun hn => hn) (by rw [hrcv])
    | ack hn => exact hleft rfl rfl (fun hc => (by cases hc)) rfl
    | window hn => exact hleft rfl rfl (fun hn => hn) rfl
    | other hne => exact hleft rfl rfl (fun hn => hn) rfl
  · cases he with
    | @ack id ch hc hn =>
      have hr : ch.role = .receiver := by
        cases hr : ch.role with
        | sender =>
          rw [(h.sends id ch hc hr).2] at hn
          cases hn
        | receiver => rfl
      simp only [Frame.InOrder]
      rw [hwritten, hpassed, hids id ch hc]
      exact ⟨(h.hears id ch hc hr).ack hn, hnear id⟩
    | window hc hn => trivial
    | @data id ch k hc hsl =>
      obtain ⟨hr, -, hnext⟩ := chanSendSlot_spec hsl
      obtain ⟨-, ha, hlt⟩ := chanNextSendable_spec hnext
      simp only [nextData, Frame.InOrder] at hwritten ⊢
      rw [hwritten, hids id ch hc]
      exact (h.sends id ch hc hr).1.emitted ha (h.store.snd id ch hc k ha).2 hlt

end

/-! ## The two ends -/

/-- An acknowledgement that is not too old covers messages that were passed. -/
theorem acked_passed {n pass : Nat} (h : n < pass + 2 ^ 15 - 1)
    (hn : int16 (UInt16.ofNat n - ackFor (UInt16.ofNat pass)) ≤ 0) : n ≤ pass := by
  by_contra hlt
  unfold ackFor at hn
  split at hn
  · rename_i h0
    have hpos : 0 < pass := by
      rcases Nat.eq_zero_or_pos pass with rfl | hp
      · exact absurd h0 (by decide)
      · exact hp
    have hpred : UInt16.ofNat pass - 1 = UInt16.ofNat (pass - 1) := by
      rw [← Nat.succ_pred_eq_of_pos hpos, ← Nat.add_one, ← ofNat_succ]
      simp
    rw [hpred, int16_sub (by omega) (by omega)] at hn
    omega
  · rename_i h0
    have hzero : UInt16.ofNat pass = 0 := by
      by_contra hne
      exact h0 (UInt16.pos_iff_ne_zero.2 hne)
    rw [← hzero, int16_sub (by omega) (by omega)] at hn
    omega

/-- The most messages that are written on a channel while a datagram is on its way. -/
abbrev maxAge : Nat := 2 ^ 14

/-- At most `maxAge` messages were written on any channel since `stamp`. -/
def Log.Recent (l stamp : Log) : Prop :=
  ∀ s id, (l.written s id).length ≤ (stamp.written s id).length + maxAge

instance (l stamp : Log) : Decidable (l.Recent stamp) :=
  decidable_of_iff
    ((∀ id, (l.written .client id).length ≤ (stamp.written .client id).length + maxAge) ∧
      ∀ id, (l.written .server id).length ≤ (stamp.written .server id).length + maxAge)
    ⟨fun h s => s.rec h.1 h.2, fun h => ⟨h .client, h .server⟩⟩

/-- The ends of channels that are reliable and keep the order of the messages. -/
def Ordered : Promise where
  inv x := ∀ s, EndInOrder x.log s (x.conn s)
  queued _ _
    | .channelOpen _ type _ _ => type = .reliable
    | .data .. | .ack .. => False
    | _ => True
  carried s l f := f.InOrder s l

section
variable {x : Ends} {s : Side}

theorem Ordered.near (h : Ordered.inv x) (s : Side) (id : ChanId) :
    (x.log.written s.other id).length ≤ x.log.passed s id + ncOutgoingSlots := by
  have hnear := (h s.other).near id
  rwa [Side.other_other] at hnear

theorem Ordered.expected (h : Ordered.inv x) {stamp : Log} {f : Frame} (hle : stamp.Le x.log)
    (hf : f.InOrder s.other stamp) (hrec : x.log.Recent stamp) : f.Expected x.log s where
  chan := by
    intro id type dir ct he
    subst he
    exact hf
  data := by
    intro id seq idx total payload he
    subst he
    obtain ⟨htotal, n, hseq, hn, hlen⟩ := hf
    have hage := hrec s.other id
    have hpass := (h s).le id
    refine ⟨htotal.le, n, hseq, getElem?_of_prefix (hle.written s.other id) hn, ?_⟩
    simp only [ncOutgoingSlots, maxAge] at *
    omega
  ack := by
    intro id acked he n hlt hn
    subst he
    obtain ⟨rfl, hlen⟩ := hf
    rw [Side.other_other] at hlen
    have hage := hrec s id
    refine (acked_passed ?_ hn).trans (hle.passed s.other id)
    simp only [ncOutgoingSlots, maxAge] at *
    omega

/-- One end changes, and the other end sees what is new in the log. -/
theorem Ordered.stepped (h : Ordered.inv x) {c' : Conn} {l' : Log} (hs : EndInOrder l' s c')
    (hle : x.log.Le l') (hw : l'.written s.other = x.log.written s.other)
    (hp : l'.passed s.other = x.log.passed s.other) (hq : l'.placed s.other = x.log.placed s.other) :
    Ordered.inv ⟨Function.update x.conn s c', l'⟩ := by
  intro t
  by_cases ht : t = s
  · subst ht
    simp only [Function.update_self]
    exact hs
  · simp only [Function.update_of_ne ht]
    obtain rfl : t = s.other := (Side.eq_or_eq_other s t).resolve_left ht
    exact (h s.other).theirs hw hp hq (fun id => hle.written _ id) fun id => hle.passed _ id

theorem ordered_called {k : Call} (h : Ordered.inv x) (hk : k.Plain (x.conn s)) :
    Ordered.inv (x.called s k) ∧
      ∀ f, Queues (x.conn s) (.call k) f → Ordered.queued s (x.called s k).log f := by
  obtain ⟨hpassed, hplaced, hwrite, hidle⟩ := Log.called_messages x.log s (x.conn s) k
  refine ⟨Ordered.stepped h (endInOrder_call (h s) hk) (Log.le_called ..) ?_ (by rw [hpassed])
    (by rw [hplaced]), fun f hq => ?_⟩
  · by_cases hw : ∃ id data, k = .write id data ∧ writeAccepted (x.conn s) id data = true
    · obtain ⟨id, data, rfl, ha⟩ := hw
      rw [hwrite id data rfl ha]
      exact funext fun j => onChan_of_side _ _ _ _ s.other_ne j
    · rw [hidle fun id data he => ?_]
      by_contra ha
      exact hw ⟨id, data, he, by simpa using ha⟩
  · cases hq with
    | @opened type dir ct hc ho =>
      obtain rfl : type = .reliable := hk
      rfl
    | _ => trivial

theorem ordered_heard {env : Env} {stamp : Log} {f : Frame} (h : Ordered.inv x)
    (hle : stamp.Le x.log) (hf : f.InOrder s.other stamp) (hrec : x.log.Recent stamp) :
    Ordered.inv (x.heard s env stamp f) := by
  obtain ⟨hwritten, hothers, -⟩ :=
    Log.frameHeard_messages x.log s stamp (x.conn s) (stepFrame env (x.conn s) f) f
  obtain ⟨hp, hq⟩ := hothers s.other s.other_ne
  exact Ordered.stepped h (endInOrder_frame (h s) (Ordered.near h s) env stamp (Ordered.expected h hle hf hrec))
    (Log.le_frameHeard ..) (by rw [hwritten]) hp hq

theorem ordered_emitted {now : UInt32} {f : Frame} {c' : Conn} (hsound : x.Sound)
    (h : Ordered.inv x) (he : Emit now (x.conn s) f c') :
    Ordered.inv (x.sent s c' f) ∧ f.InOrder s (x.log.frameSent s f) := by
  obtain ⟨hwritten, hpassed, hplaced⟩ := Log.frameSent_messages x.log s f
  obtain ⟨hs, hf⟩ := endInOrder_emit (h s) (hsound s).ids (Ordered.near h s) he
  exact ⟨Ordered.stepped h hs (Log.le_frameSent ..) (by rw [hwritten]) (by rw [hpassed])
    (by rw [hplaced]), hf⟩

end

theorem ordered_kept : Ordered.Kept (fun x s k => k.Plain (x.conn s))
    (fun x _ stamp _ => x.log.Recent stamp) where
  grow _ h := h
  alike := by
    intro x y h hl ha s
    obtain ⟨h1, h2, h3, h4, h5, h6⟩ := h s
    have hfp : maxFragPayload (y.conn s) = maxFragPayload (x.conn s) :=
      maxFragPayload_congr (ha s).cfg
    rw [hl]
    refine ⟨(store_congr (S := ∅) h1 (ha s).pool (ha s).channels).1, ?_, ?_, ?_, ?_, ?_⟩
    · rw [(ha s).channels]
      exact h2
    · rw [(ha s).channels, (ha s).pool, hfp]
      exact h3
    · rw [(ha s).channels]
      exact h4
    · intro id ch hc hr
      rw [(ha s).channels] at hc
      refine (h5 id ch hc hr).same rfl rfl (fun k _ => ?_) fun hn => ⟨hn, rfl⟩
      simp only [Rx.slotBytes, Conn.rx, (ha s).pool]
    · rw [(ha s).channels]
      exact h6
  called _ h hk := ordered_called h hk
  heard _ h hle hf hrec := ⟨ordered_heard h hle hf hrec, fun g hq => by cases hq <;> trivial⟩
  flushed := by
    intro x s f h hq
    obtain ⟨hwritten, hpassed, hplaced⟩ := Log.frameSent_messages x.log s f
    refine ⟨Ordered.stepped h ?_ (Log.le_frameSent ..) (by rw [hwritten]) (by rw [hpassed])
      (by rw [hplaced]), ?_⟩
    · exact (h s).congr hwritten hpassed hplaced
    · cases f with
      | channelOpen id type dir ct => exact hq
      | data id seq idx total payload => exact hq.elim
      | ack id acked => exact hq.elim
      | _ => trivial
  emitted hs h he := ordered_emitted hs h he
  transmitted h s := (h s).congr rfl rfl rfl

/-! ## Runs -/

/-- Calls as `Call.Plain` says, control frames that are sent whole, and datagrams that are not too
old when they arrive. -/
def Op.InOrder (w : World) : Op → Prop
  | .call s k => k.Plain (w.conn s)
  | .send s _ buflen => Whole (w.conn s) buflen
  | .deliver s i _ _ => ∀ pkt ∈ (w.net s)[i]?, w.log.Recent pkt.stamp
  | _ => True

instance (w : World) : ∀ op : Op, Decidable (op.InOrder w)
  | .call s k => inferInstanceAs (Decidable (k.Plain (w.conn s)))
  | .send s _ buflen => inferInstanceAs (Decidable (Whole (w.conn s) buflen))
  | .deliver s i _ _ => inferInstanceAs (Decidable (∀ pkt ∈ (w.net s)[i]?, _))
  | .dup .. | .drop .. => inferInstanceAs (Decidable True)

theorem recent_hears (s : Side) (env : Env) : ∀ (fs : List Frame) (x : Ends) (stamp : Log),
    x.log.Recent stamp →
    Along (hearFrame s env) (fun x f => x.1.log.Recent (x.2.frameSent s.other f)) (x, stamp) fs
  | [], _, _, _ => trivial
  | f :: fs, x, stamp, h => by
    have hstamp : x.log.Recent (stamp.frameSent s.other f) := by
      unfold Log.Recent
      rw [(Log.frameSent_messages stamp s.other f).1]
      exact h
    refine ⟨hstamp, recent_hears s env fs _ _ ?_⟩
    unfold Log.Recent Ends.heard
    rw [(Log.frameHeard_messages x.log s (stamp.frameSent s.other f) _ _ f).1]
    exact hstamp

theorem Op.InOrder.meets {w : World} {op : Op} (h : op.InOrder w) :
    op.Meets (fun x s k => k.Plain (x.conn s)) (fun x _ stamp _ => x.log.Recent stamp) w := by
  cases op with
  | call s k => exact h
  | send s env buflen => exact h
  | deliver s i env source =>
    intro pkt hpkt _
    exact recent_hears s env _ _ _ (h pkt hpkt)
  | _ => trivial

theorem endInOrder_init (cfg : Side → Cfg) (s : Side) :
    EndInOrder (World.init cfg).log s ((World.init cfg).conn s) := by
  have hnone (id : ChanId) (ch : Chan) : ((World.init cfg).conn s).channels id ≠ some ch := by
    intro hc
    cases hc
  refine ⟨?_, fun id ch hc => absurd hc (hnone id ch), fun id ch hc => absurd hc (hnone id ch),
    fun _ _ => rfl, fun id ch hc => absurd hc (hnone id ch), fun _ _ => ⟨rfl, rfl⟩⟩
  exact (store_congr (k := (World.init cfg).conn s) (S := ∅) (store_open s.isServer) rfl rfl).1

/-- **Order, uniqueness and integrity**: in every run with reliable channels, messages of one
fragment, control frames that are sent whole and a network that drops, duplicates and reorders but
does not keep datagrams for long, the messages an end places in a receive queue are a sublist of the
messages that the other end wrote. -/
theorem reliable_in_order (cfg : Side → Cfg) (ops : List Op)
    (h : Along World.step (fun w op => op.InOrder w) (.init cfg) ops) (s : Side) (id : ChanId) :
    ((World.run cfg ops).log.placed s.other id).Sublist ((World.run cfg ops).log.written s id) := by
  have hinit : Ordered.Holds (World.init cfg) := Promise.init cfg fun t => endInOrder_init cfg t
  have hrun : Ordered.Holds (World.run cfg ops) :=
    run_invariant (fun _ _ hw hop => Promise.step ordered_kept hw (Op.InOrder.meets hop)) hinit h
  have hsub := (hrun.ends.inv s.other).sublist id
  rwa [Side.other_other] at hsub

/-- Three messages: the second arrives first, then the first and the second again, and the third is
lost. -/
def swappedOps : List Op :=
  openOps ++ [.call .client (.write 0 [1]), .send .client { now := 10 } 1200,
    .call .client (.write 0 [2]), .send .client { now := 11 } 1200,
    .call .client (.write 0 [3]), .send .client { now := 12 } 1200, .dup .server 1,
    .deliver .server 1 { now := 13 } (some [2]), .deliver .server 0 { now := 14 } (some [2]),
    .deliver .server 1 { now := 15 } (some [2]), .drop .server 0]

theorem reliable_in_order_swapped :
    Along World.step (fun w op => op.InOrder w) (.init defaults) swappedOps ∧
      ((World.run defaults swappedOps).log.placed .server 0).Sublist
        ((World.run defaults swappedOps).log.written .client 0) ∧
      (World.run defaults swappedOps).log.placed .server 0 = [[1], [2]] := by
  obtain ⟨h, hplaced⟩ : Along World.step (fun w op => op.InOrder w) (.init defaults) swappedOps ∧
      (World.run defaults swappedOps).log.placed .server 0 = [[1], [2]] := by
    decide +kernel
  have hsub := reliable_in_order defaults swappedOps h .client 0
  refine ⟨h, ?_, hplaced⟩
  generalize World.run defaults swappedOps = w at hsub
  exact hsub

/-- Nine messages are delivered. Then a buffer of nine bytes takes the header and two bytes of a
PING, and the other three bytes of the PING start the datagram of the tenth message. -/
def cutPingOps : List Op :=
  openOps ++ (List.range 9).flatMap (fun i => [.call .client (.write 0 [UInt8.ofNat i]),
      .send .client { now := 10 } 1200, .deliver .server 0 { now := 11 } (some [2])]) ++
    [.call .client (.service { now := 5100, entropy := 0x00090000 } 5100),
      .send .client { now := 5101 } 9, .call .client (.write 0 [77]),
      .send .client { now := 5102 } 1200, .deliver .server 1 { now := 5103 } (some [2])]

/-- The server takes the bytes for a DATA frame with an empty message, which nobody wrote. -/
theorem cut_ping_forges_message :
    (World.run defaults cutPingOps).log.placed .server 0 =
      [[0], [1], [2], [3], [4], [5], [6], [7], [8], []] ∧
    (World.run defaults cutPingOps).log.written .client 0 =
      [[0], [1], [2], [3], [4], [5], [6], [7], [8], [77]] ∧
    ¬ ((World.run defaults cutPingOps).log.placed .server 0).Sublist
      ((World.run defaults cutPingOps).log.written .client 0) := by
  obtain ⟨hplaced, hwritten⟩ : (World.run defaults cutPingOps).log.placed .server 0 =
        [[0], [1], [2], [3], [4], [5], [6], [7], [8], []] ∧
      (World.run defaults cutPingOps).log.written .client 0 =
        [[0], [1], [2], [3], [4], [5], [6], [7], [8], [77]] := by
    decide +kernel
  refine ⟨hplaced, hwritten, ?_⟩
  rw [hplaced, hwritten]
  decide

end Netchan
