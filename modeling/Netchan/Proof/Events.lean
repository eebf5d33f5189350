import Netchan.Proof.Store
import Netchan.Proof.Session

/-!
# Data events

An application that follows the README polls until there is no event left and reads once for each
DATA event it gets. `data_events_read`: at an end that does so after every datagram, all receive
queues are empty again, as long as the event ring has room for an event for each message a DATA
frame makes deliverable (`EventsFit`). `ev_push` drops an event that finds the ring full, and
nothing announces its message again: `data_event_lost` is a run of two honest ends where one stays
behind.
-/

namespace Netchan

open Lib

/-! ## A DATA frame and the event ring -/

/-- The messages a frame makes deliverable, as the state before it tells. -/
def deliverable (c : Conn) : Frame → Nat
  | .data id seq fragIdx fragTotal payload =>
    match c.channels id with
    | none => 0
    | some ch =>
      if ch.role ≠ .receiver ∨
          completes (maxFragPayload c) (c.rx ch) seq fragIdx fragTotal payload.length = false then 0
      else if ch.type = .unreliable then 1
      else if seq = ch.rcv.recvSeq then
        waiting ch.rcv.reorder ncReorderSlots (ch.rcv.recvSeq + 1) + 1
      else 0
  | _ => 0

/-- The event ring has room for an event for each of these messages. -/
def EventRoom (c : Conn) (f : Frame) : Prop := c.events.size + deliverable c f < ncEventQueue

instance (c : Conn) (f : Frame) : Decidable (EventRoom c f) := inferInstanceAs (Decidable (_ < _))

/-- There is a DATA event for each message in the queue. -/
def Rx.Announced (id : ChanId) (x : Rx) : Prop :=
  x.rcv.recvQueue.size ≤ x.events.toList.count (.data id)

section
variable {id : ChanId} {x : Rx}

theorem deliver_size (x : Rx) (id : ChanId) (data : List UInt8) :
    (x.deliver id data).rcv.recvQueue.size ≤ x.rcv.recvQueue.size + 1 := by
  rcases deliver_cases x id data with ⟨hr, b, fs, -, he⟩ | ⟨-, he⟩
  · rw [he, Rx.enqueued, Ring.size_push (by decide) hr.queue]
  · rw [he]
    exact Nat.le_succ _

theorem deliver_announced (h : x.Announced id) (hroom : x.events.size + 1 < ncEventQueue)
    (data : List UInt8) :
    (x.deliver id data).Announced id ∧ (x.deliver id data).events.size = x.events.size + 1 := by
  have hf : ¬ x.events.Full := by
    rw [Ring.full_iff (by decide)]
    omega
  have he : (x.deliver id data).events = x.events.push (.data id) := by
    rw [deliver_events, Ring.offer, if_neg hf]
  have hs := deliver_size x id data
  refine ⟨?_, by rw [he, Ring.size_push (by decide) hf]⟩
  rw [Rx.Announced, he, Ring.toList_push (by decide) hf, List.count_append, List.count_singleton_self]
  have : x.rcv.recvQueue.size ≤ _ := h
  omega

/-- In-order delivery announces every message, if the ring has room for all that wait. -/
theorem deliverLoop_announced (id : ChanId) : ∀ (fuel : Nat) (x : Rx), fuel ≤ ncReorderSlots →
    x.Announced id → x.events.size + waiting x.rcv.reorder fuel x.rcv.recvSeq < ncEventQueue →
    (deliverLoop id fuel x).Announced id
  | 0, x, _, h, _ => h
  | fuel + 1, x, hf, h, hroom => by
    unfold deliverLoop
    unfold waiting at hroom
    split
    · rename_i hw
      rw [if_pos hw] at hroom
      obtain ⟨ha, hs⟩ := deliver_announced h (by omega)
        (x.pool.read (x.rcv.reorder (reorderSlot x.rcv.recvSeq)).buf 0
          (x.rcv.reorder (reorderSlot x.rcv.recvSeq)).len)
      have hwait : waiting (deliverNext id x).rcv.reorder fuel (deliverNext id x).rcv.recvSeq =
          waiting x.rcv.reorder fuel (x.rcv.recvSeq + 1) := by
        rw [(deliverNext_seq id x).1, (deliverNext_seq id x).2]
        exact waiting_update x.rcv.reorder x.rcv.recvSeq _ fuel 1 (by omega) (by omega)
      refine deliverLoop_announced id fuel _ (by omega) ha ?_
      rw [hwait, show (deliverNext id x).events.size = x.events.size + 1 from hs]
      omega
    · exact h

theorem dataArrived_announced (h : x.Announced id) {seq : UInt16} (data : List UInt8)
    (hroom : seq = x.rcv.recvSeq →
      x.events.size + (waiting x.rcv.reorder ncReorderSlots (x.rcv.recvSeq + 1) + 1) < ncEventQueue) :
    (dataArrived id x seq data).Announced id := by
  unfold dataArrived
  split
  · rename_i hseq
    have hroom := hroom hseq
    obtain ⟨ha, hs⟩ := deliver_announced h (by omega) data
    obtain ⟨h1, h2⟩ := deliver_seq x id data
    refine deliverLoop_announced id _ _ (Nat.le_refl _) ha ?_
    dsimp only
    rw [hs, h1, h2]
    omega
  · unfold reorderStore
    dsimp only
    repeat' split
    all_goals exact h

/-- The reassembly block leaves the receive queue and the event ring alone. -/
theorem fragStore_queue (fp : Nat) (x : Rx) (seq : UInt16) (idx total : Nat) (payload : List UInt8) :
    (fragStore fp x seq idx total payload).1.rcv.recvQueue = x.rcv.recvQueue := by
  rcases fragStore_cases fp x seq idx total payload with ⟨-, he⟩ | ⟨i, x', hs, h'⟩
  · rw [he]
  have hx : x'.rcv.recvQueue = x.rcv.recvQueue := by
    rcases fragSlot_cases hs with ⟨rfl, -, -⟩ | ⟨b, p, -, -, -, -, rfl⟩ <;> rfl
  rcases h' with ⟨-, he⟩ | ⟨-, ⟨-, he⟩ | ⟨-, he⟩⟩ <;> rw [he] <;> exact hx

theorem fragStore_announced (h : x.Announced id) (fp : Nat) (seq : UInt16) (idx total : Nat)
    (payload : List UInt8) : (fragStore fp x seq idx total payload).1.Announced id := by
  rw [Rx.Announced, fragStore_queue, fragStore_events]
  exact h

theorem dataUnreliable_announced (h : x.Announced id) (fp : Nat) (seq : UInt16) (idx total : Nat)
    (payload : List UInt8)
    (hroom : completes fp x seq idx total payload.length = true → x.events.size + 1 < ncEventQueue) :
    (dataUnreliable fp id x seq idx total payload).Announced id := by
  unfold dataUnreliable
  unfold completes at hroom
  by_cases ht : total ≤ 1
  · rw [if_pos ht]
    exact (deliver_announced h (hroom (by simp [ht])) payload).1
  · rw [if_neg ht]
    have ha := fragStore_announced h fp seq idx total payload
    have he := fragStore_events fp x seq idx total payload
    obtain ⟨-, -, hl⟩ := fragStore_seq fp x seq idx total payload
    split
    · rename_i x' hs
      rwa [hs] at ha
    · rename_i x' i pos hs
      rw [hs] at ha he hl
      dsimp only at ha he hl
      refine (deliver_announced ha ?_ (assembled x' i pos)).1
      rw [he]
      exact hroom (by simp [← hl])

theorem dataReliable_announced (h : x.Announced id) (fp : Nat) (seq : UInt16) (idx total : Nat)
    (payload : List UInt8)
    (hroom : completes fp x seq idx total payload.length = true → seq = x.rcv.recvSeq →
      x.events.size + (waiting x.rcv.reorder ncReorderSlots (x.rcv.recvSeq + 1) + 1) < ncEventQueue) :
    (dataReliable fp id x seq idx total payload).Announced id := by
  unfold dataReliable
  unfold completes at hroom
  by_cases ht : total ≤ 1
  · rw [if_pos ht]
    exact dataArrived_announced h payload (hroom (by simp [ht]))
  · rw [if_neg ht]
    have ha := fragStore_announced h fp seq idx total payload
    have he := fragStore_events fp x seq idx total payload
    obtain ⟨hseq, hre, hl⟩ := fragStore_seq fp x seq idx total payload
    split
    · rename_i x' hs
      rwa [hs] at ha
    · rename_i x' i pos hs
      rw [hs] at ha he hl hseq hre
      dsimp only at ha he hl hseq hre
      refine dataArrived_announced ha (assembled x' i pos) ?_
      rw [he, hseq, hre]
      exact hroom (by simp [← hl])

end

/-! ## Frames -/

/-- Every message in a receive queue has its DATA event among `es`; only receivers have any. -/
def AnnouncedBy (es : List Event) (c : Conn) : Prop :=
  ∀ id ch, c.channels id = some ch →
    (ch.role ≠ .receiver → ch.rcv.recvQueue.size = 0) ∧
      ch.rcv.recvQueue.size ≤ es.count (.data id)

/-- Every message in a receive queue has its DATA event in the ring. -/
def Announced (c : Conn) : Prop := AnnouncedBy c.events.toList c

/-- All receive queues are empty. -/
def AllRead (c : Conn) : Prop :=
  ∀ id ch, c.channels id = some ch → ch.rcv.recvQueue.size = 0

theorem AllRead.announced {c : Conn} (h : AllRead c) : Announced c := fun id ch hc =>
  ⟨fun _ => h id ch hc, by rw [h id ch hc]; exact Nat.zero_le _⟩

theorem frame_events (env : Env) (c : Conn) (f : Frame) :
    ∃ l, (stepFrame env c f).events.toList = c.events.toList ++ l := by
  have hsame : ∀ {q : Events}, q = c.events → ∃ l, q.toList = c.events.toList ++ l :=
    fun h => ⟨[], by rw [h]; simp⟩
  have hpush : ∀ (q : Events) (e : Event), Pushes e c.events q → ∃ l, q.toList = c.events.toList ++ l :=
    fun q e h => h.elim (fun h => ⟨[], by rw [h]; simp⟩) fun h => ⟨[e], h⟩
  by_cases hok : AcceptInTime c (.frame env f)
  · cases frame_session env c f hok with
    | quiet _ he => exact he.imp fun l h => h.1
    | start _ _ he => exact hsame he
    | up _ _ he => exact hpush _ _ he
    | down _ _ he => exact hpush _ _ he
    | leave _ _ he => exact hsame he
    | left _ _ he => exact hsame he
  · -- only an ACCEPT can be late
    cases f with
    | connectAccept id v idle =>
      simp only [stepFrame, applyFrame]
      split
      · exact hsame rfl
      · exact hpush _ _ (pushes_offer _ _)
    | _ => exact absurd trivial hok

theorem count_grows {e : Event} {l l' m : List Event} (h : l' = l ++ m) : l.count e ≤ l'.count e := by
  rw [h, List.count_append]
  exact Nat.le_add_right _ _

/-- **A DATA frame announces what it delivers**, if the ring has room for it. -/
theorem data_announced {c : Conn} (h : Announced c) {id : ChanId} {ch : Chan}
    (hc : c.channels id = some ch) (hr : ch.role = .receiver) (env : Env) {seq : UInt16}
    {idx total : Nat} {payload : List UInt8} (hroom : EventRoom c (.data id seq idx total payload)) :
    (dataRcv c id ch seq idx total payload).recvQueue.size ≤
      (stepFrame env c (.data id seq idx total payload)).events.toList.count (.data id) := by
  have hx : (c.rx ch).Announced id := (h id ch hc).2
  simp only [EventRoom, deliverable, hc, hr, ne_eq, not_true_eq_false, false_or] at hroom
  simp only [stepFrame, applyFrame, dataReceived, hc, hr, Option.getD_some, dataRcv, ne_eq,
    not_true_eq_false, ↓reduceIte]
  by_cases ht : ch.type = .unreliable
  · rw [if_pos ht, if_pos ht]
    refine dataUnreliable_announced hx _ seq idx total payload fun hd => ?_
    rwa [if_neg (by simp [hd]), if_pos ht] at hroom
  · rw [if_neg ht, if_neg ht]
    refine dataReliable_announced hx _ seq idx total payload fun hd hs => ?_
    rwa [if_neg (by simp [hd]), if_neg ht, if_pos (show seq = ch.rcv.recvSeq from hs)] at hroom

theorem frame_announced {env : Env} {c : Conn} {f : Frame} (h : Announced c)
    (hroom : EventRoom c f) : Announced (stepFrame env c f) := by
  intro id ch' hc'
  obtain ⟨l, hl⟩ := frame_events env c f
  have hch := frame_chan env c f id
  rw [hc'] at hch
  generalize hc : c.channels id = o at hch
  cases hch with
  | created hid hs hr =>
    rw [hr]
    exact ⟨fun _ => rfl, Nat.zero_le _⟩
  | kept hk hr =>
    rename_i ch
    obtain ⟨h1, h2⟩ := h id ch hc
    generalize hre : ch'.rcv = r' at hr
    cases hr with
    | flags hf =>
      obtain ⟨a, w, rfl, -, -⟩ := hf
      rw [hk.role]
      exact ⟨h1, h2.trans (count_grows hl)⟩
    | data env seq fragIdx fragTotal payload hr =>
      exact ⟨fun hn => absurd (hk.role.trans hr) hn, data_announced h hc hr env hroom⟩

/-- A datagram leaves its messages announced, if at each frame the ring has room. -/
theorem feed_announced {env : Env} {c : Conn} (h : Announced c) {fs : List Frame}
    (hroom : Along (stepFrame env) EventRoom c fs) : Announced (run (stepFrame env) c fs) :=
  run_invariant (I := Announced) (fun _ _ h hr => frame_announced h hr) h hroom

theorem step_allRead {c : Conn} {s : Step} (h : AllRead c) (hst : ∀ env f, s ≠ .frame env f) :
    AllRead (s.apply c) := by
  intro id ch' hc'
  have hch := step_chan c s id
  rw [hc'] at hch
  generalize hc : c.channels id = o at hch
  cases hch with
  | created hid hs hr =>
    rw [hr]
    rfl
  | kept hk hr =>
    rename_i ch
    have h0 := h id ch hc
    generalize hre : ch'.rcv = r' at hr
    cases hr with
    | flags hf =>
      obtain ⟨a, w, rfl, -, -⟩ := hf
      exact h0
    | read buflen _ hq =>
      rw [← Ring.length_toList, List.length_eq_zero_iff, Ring.toList_eq_nil] at h0
      exact absurd h0 hq
    | data env seq fragIdx fragTotal payload _ => exact absurd rfl (hst _ _)

theorem netchanFeed_announced {env : Env} {c : Conn} {pkt : List UInt8} {source : Option Addr}
    (h : AllRead c)
    (hroom : headerOk c pkt → Along (stepFrame env) EventRoom (fedConn env c pkt source)
      (parsed env (pkt.drop (hdrSize (byte pkt 0))).length (fedConn env c pkt source)
        (pkt.drop (hdrSize (byte pkt 0))))) :
    Announced (netchanFeed env c pkt source).2 := by
  unfold netchanFeed
  split
  · rename_i hok
    rw [parseFrames_run]
    refine feed_announced ?_ (hroom hok)
    exact AllRead.announced (step_allRead (s := .header env pkt source) h (by simp))
  · exact h.announced

/-! ## The poll loop -/

/-- The loop of the README at end `s`: `while (netchan_poll (c, &ev))`, with one
`netchan_chan_read` of a DATA event's channel; at most `fuel` rounds of it. -/
def World.pollLoop (s : Side) (buflen : Nat) : Nat → World → World
  | 0, w => w
  | fuel + 1, w =>
    match (netchanPoll (w.conn s)).1 with
    | none => w.step (.call s .poll)
    | some (.data id) => pollLoop s buflen fuel ((w.step (.call s .poll)).step (.call s (.read id buflen)))
    | some _ => pollLoop s buflen fuel (w.step (.call s .poll))

/-- The loop until `netchan_poll` returns 0. The ring holds less than `ncEventQueue` events and a
read pushes none, so that many rounds get there (`pollLoop_empty`). -/
def World.pollAll (s : Side) (buflen : Nat) (w : World) : World := w.pollLoop s buflen ncEventQueue

theorem step_call (w : World) (s : Side) (k : Call) :
    (w.step (.call s k)).conn s = k.apply (w.conn s) :=
  Function.update_self ..

/-- A read takes the message of one DATA event. -/
theorem read_announced {c : Conn} {id : ChanId} {es : List Event}
    (h : AnnouncedBy (.data id :: es) c) (buflen : Nat) :
    AnnouncedBy es (netchanChanRead c id buflen).2 := by
  have hother : ∀ {j : ChanId} {ch : Chan}, j ≠ id → c.channels j = some ch →
      (ch.role ≠ .receiver → ch.rcv.recvQueue.size = 0) ∧
        ch.rcv.recvQueue.size ≤ es.count (.data j) := by
    intro j ch hj hc
    have hn : Event.data id ≠ Event.data j := fun he => hj (Event.data.inj he).symm
    have := h j ch hc
    rwa [List.count_cons_of_ne hn] at this
  rcases netchanChanRead_cases c id buflen with ⟨he, -, hq⟩ | ⟨ch, hc, hr, hq, he⟩
  · rw [he]
    intro j ch hc
    by_cases hj : j = id
    · subst hj
      have h0 : ch.rcv.recvQueue.size = 0 := by
        by_cases hr : ch.role = .receiver
        · rw [← Ring.length_toList, (Ring.toList_eq_nil _).2 (hq ch hc hr)]
          rfl
        · exact (h j ch hc).1 hr
      exact ⟨fun _ => h0, by omega⟩
    · exact hother hj hc
  · rw [he]
    intro j ch' hc'
    by_cases hj : j = id
    · subst hj
      simp only [Conn.setChan, Table.set_same, Option.some.injEq] at hc'
      subst hc'
      refine ⟨fun hn => absurd hr hn, ?_⟩
      have hs := congrArg List.length (Ring.toList_pop (by decide) hq ({} : RecvEntry))
      have hle := (h j ch hc).2
      simp only [List.length_cons, Ring.length_toList] at hs
      rw [List.count_cons_self] at hle
      show (ch.rcv.recvQueue.pop {}).size ≤ _
      omega
    · simp only [Conn.setChan, Table.set_of_ne _ hj] at hc'
      exact hother hj hc'

theorem read_events (c : Conn) (id : ChanId) (buflen : Nat) :
    (netchanChanRead c id buflen).2.events = c.events := by
  rcases netchanChanRead_cases c id buflen with ⟨he, -⟩ | ⟨ch, -, -, -, he⟩ <;> rw [he]
  rfl

/-- **The poll loop reads every announced message** and empties the ring. -/
theorem pollLoop_empty (s : Side) (buflen : Nat) : ∀ (fuel : Nat) (w : World),
    Announced (w.conn s) → (w.conn s).events.size < fuel →
    AllRead ((w.pollLoop s buflen fuel).conn s) ∧ ((w.pollLoop s buflen fuel).conn s).events.Empty
  | 0, _, _, hf => absurd hf (Nat.not_lt_zero _)
  | fuel + 1, w, h, hf => by
    unfold World.pollLoop
    by_cases hE : (w.conn s).events.Empty
    · have hp : netchanPoll (w.conn s) = (none, w.conn s) := if_pos hE
      rw [hp]
      dsimp only
      rw [step_call, Call.apply, hp]
      refine ⟨fun id ch hc => ?_, hE⟩
      have := (h id ch hc).2
      rw [(Ring.toList_eq_nil _).2 hE] at this
      simpa using this
    · have hpop := Ring.toList_pop (by decide) hE (w.conn s).events.front
      have hp : netchanPoll (w.conn s) = (some (w.conn s).events.front,
          { w.conn s with events := (w.conn s).events.pop (w.conn s).events.front }) := if_neg hE
      have hsize : ((w.step (.call s .poll)).conn s).events.size < fuel := by
        have hl := congrArg List.length hpop
        simp only [List.length_cons, Ring.length_toList] at hl
        rw [step_call, Call.apply, hp]
        dsimp only
        omega
      have hby : AnnouncedBy ((w.conn s).events.front ::
          ((w.step (.call s .poll)).conn s).events.toList) ((w.step (.call s .poll)).conn s) := by
        rw [step_call, Call.apply, hp, ← hpop]
        exact h
      rw [hp]
      generalize (w.conn s).events.front = e at hby
      generalize w.step (.call s .poll) = w' at hby hsize
      have hskip : (∀ id, e ≠ .data id) → Announced (w'.conn s) := fun hn id ch hc => by
        have := hby id ch hc
        rwa [List.count_cons_of_ne (hn id)] at this
      cases e with
      | data id =>
        have he : ((w'.step (.call s (.read id buflen))).conn s).events = (w'.conn s).events := by
          rw [step_call]
          exact read_events ..
        refine pollLoop_empty s buflen fuel _ ?_ (by rwa [he])
        rw [Announced, he, step_call]
        exact read_announced hby buflen
      | _ => exact pollLoop_empty s buflen fuel _ (hskip (by simp)) hsize

/-! ## Runs with the poll loop -/

/-- A step of the world where end `s` runs the poll loop after each datagram it gets. -/
def World.turn (s : Side) (buflen : Nat) (w : World) (op : Op) : World :=
  match op with
  | .deliver t i env source =>
    if t = s then (w.step (.deliver t i env source)).pollAll s buflen
    else w.step (.deliver t i env source)
  | op => w.step op

/-- At each DATA frame of a datagram that reaches end `s` the event ring has room for the messages
it makes deliverable. -/
def EventsFit (s : Side) (w : World) : Op → Prop
  | .deliver t i env source =>
    t = s → ∀ pkt ∈ (w.net s)[i]?, headerOk (w.conn s) pkt.bytes →
      Along (stepFrame env) EventRoom (fedConn env (w.conn s) pkt.bytes source)
        (parsed env (pkt.bytes.drop (hdrSize (byte pkt.bytes 0))).length
          (fedConn env (w.conn s) pkt.bytes source) (pkt.bytes.drop (hdrSize (byte pkt.bytes 0))))
  | _ => True

instance (s : Side) (w : World) : ∀ op : Op, Decidable (EventsFit s w op)
  | .deliver t i env source => by
    unfold EventsFit
    infer_instance
  | .call .. | .send .. | .dup .. | .drop .. => inferInstanceAs (Decidable True)

theorem turn_allRead {s : Side} {buflen : Nat} {w : World} {op : Op} (h : AllRead (w.conn s))
    (hfit : EventsFit s w op) : AllRead ((w.turn s buflen op).conn s) := by
  have hupd : ∀ {c : Conn} (t : Side), (t = s → AllRead c) →
      AllRead (Function.update w.conn t c s) := by
    intro c t hc
    by_cases ht : s = t
    · subst ht
      rw [Function.update_self]
      exact hc rfl
    · rwa [Function.update_of_ne ht]
  cases op with
  | call t k => exact hupd t fun ht => by subst ht; exact step_allRead (s := .call k) h (by simp)
  | send t env n =>
    have hsend : t = s → AllRead (netchanSendNext env (w.conn t) n).1 := fun ht => by
      subst ht
      exact step_allRead (s := .sendNext env n) h (by simp)
    show AllRead ((w.transmit t env n).conn s)
    unfold World.transmit
    split <;> rename_i he <;> rw [he] at hsend <;> exact hupd t hsend
  | deliver t i env source =>
    simp only [World.turn]
    by_cases ht : t = s
    · subst ht
      rw [if_pos rfl]
      refine (pollLoop_empty t buflen ncEventQueue _ ?_ (Ring.size_lt _)).1
      simp only [World.step]
      split
      · exact h.announced
      · rename_i pkt hpkt
        show Announced (Function.update w.conn t _ t)
        rw [Function.update_self]
        exact netchanFeed_announced h (hfit rfl pkt hpkt)
    · rw [if_neg ht]
      simp only [World.step]
      split
      · exact h
      · exact hupd t fun he => absurd he ht
  | dup t i =>
    show AllRead ((w.step (.dup t i)).conn s)
    simp only [World.step]
    split <;> exact h
  | drop t i => exact h

/-- **The README loop reads every message**: at an end that polls until there is no event left and
reads once for each DATA event, after every datagram, all receive queues are empty in every state
it reaches, if the event ring has room at each DATA frame. -/
theorem data_events_read {cfg : Side → Cfg} {s : Side} {buflen : Nat} {ops : List Op}
    (hfit : Along (World.turn s buflen) (EventsFit s) (.init cfg) ops) :
    AllRead ((run (World.turn s buflen) (.init cfg) ops).conn s) :=
  run_invariant (I := fun w => AllRead (w.conn s)) (fun _ _ h hr => turn_allRead h hr)
    (fun id ch h => by cases h) hfit

/-- An open channel and `n + 1` messages on it, the first of which arrives last. -/
def lateOps (n : Nat) : List Op :=
  openOps ++ List.replicate (n + 1) (.call .client (.write 0 [7])) ++
    List.replicate (n + 1) (.send .client { now := 10 } 1200) ++
    List.replicate n (.deliver .server 1 { now := 11 } (some [2])) ++
    [.deliver .server 0 { now := 12 } (some [2])]

theorem data_events_read_late :
    AllRead ((run (World.turn .server 1200) (.init fun _ => netchanCfgDefault) (lateOps 3)).conn
      .server) :=
  data_events_read (by decide +kernel)

/-- Fifteen messages wait for the first one: when it comes there are sixteen to announce, the ring
takes fifteen events, and a message stays in the queue. -/
theorem data_event_lost :
    ¬ AllRead ((run (World.turn .server 1200) (.init fun _ => netchanCfgDefault) (lateOps 15)).conn
      .server) := by
  intro h
  have hs : (((run (World.turn .server 1200) (.init fun _ => netchanCfgDefault) (lateOps 15)).conn
      .server).channels 0).map (fun ch => ch.rcv.recvQueue.size) = some 1 := by decide +kernel
  obtain ⟨ch, hc, h1⟩ := Option.map_eq_some_iff.1 hs
  rw [h 0 ch hc] at h1
  cases h1

end Netchan
