import Netchan.Core.World

/-!
# The session's life

What a step can do to the state of a connection and to its event queue: `SessionStep` lists the
transitions of `c->state` with the session event each one pushes, and `step_session` shows that
every step takes one of them, provided no CONNECT_ACCEPT meets a client that is not connecting
(`AcceptInTime`). `process_connect_accept` does not look at the state, so without that proviso a
late copy of the frame reopens a closed session.

* `session_once`: a session starts once and ends once.
* `feed_foreign_id`: what a datagram that does not carry the connection's id can do.
-/

namespace Netchan

open Lib

/-! ## Growing event queues -/

abbrev Events := Ring Event ncEventQueue

/-- `q'` is `q` with events that satisfy `P` appended. -/
def Grows (P : Event → Prop) (q q' : Events) : Prop := ∃ l, q'.toList = q.toList ++ l ∧ ∀ e ∈ l, P e

namespace Grows

variable {P Q : Event → Prop} {q q' q'' : Events}

theorem refl (q : Events) : Grows P q q := ⟨[], by simp, by simp⟩

theorem trans (h1 : Grows P q q') (h2 : Grows P q' q'') : Grows P q q'' := by
  obtain ⟨l1, e1, p1⟩ := h1
  obtain ⟨l2, e2, p2⟩ := h2
  refine ⟨l1 ++ l2, by rw [e2, e1, List.append_assoc], fun e he => ?_⟩
  rcases List.mem_append.1 he with he | he
  · exact p1 e he
  · exact p2 e he

theorem offer (q : Events) {e : Event} (he : P e) : Grows P q (q.offer e) := by
  by_cases h : q.Full
  · exact ⟨[], by rw [Ring.toList_offer (by decide), if_pos h]; simp, by simp⟩
  · exact ⟨[e], by rw [Ring.toList_offer (by decide), if_neg h], by simpa using he⟩

end Grows

/-- An event that reports neither the start nor the end of the session. -/
def Event.Quiet (e : Event) : Prop := e ≠ .connected ∧ e ≠ .disconnected

/-- At most the event `e` was appended. -/
def Pushes (e : Event) (q q' : Events) : Prop :=
  q'.toList = q.toList ∨ q'.toList = q.toList ++ [e]

theorem pushes_offer (q : Events) (e : Event) : Pushes e q (q.offer e) := by
  unfold Pushes
  rw [Ring.toList_offer (by decide)]
  split
  · exact .inl rfl
  · exact .inr rfl

/-! ## The DATA path pushes DATA events, the timers push quiet ones -/

theorem quiet_data (id : ChanId) : (Event.data id).Quiet := ⟨by simp, by simp⟩

theorem chanRecvEnqueue_events (x : Rx) (data : List UInt8) :
    (chanRecvEnqueue x data).2.events = x.events := by
  unfold chanRecvEnqueue
  dsimp only
  repeat' split
  all_goals rfl

theorem deliver_events (x : Rx) (id : ChanId) (data : List UInt8) :
    (x.deliver id data).events = x.events.offer (.data id) := by
  rw [Rx.deliver, chanRecvEnqueue_events]

theorem fragSlot_events {x x' : Rx} {seq : UInt16} {total : Nat} {i : Fin ncFragSlots}
    (h : fragSlot x seq total = some (i, x')) : x'.events = x.events := by
  unfold fragSlot fragAlloc at h
  repeat' split at h
  all_goals first | cases h; rfl | cases h

theorem fragStore_events (fp : Nat) (x : Rx) (seq : UInt16) (fragIdx fragTotal : Nat)
    (payload : List UInt8) : (fragStore fp x seq fragIdx fragTotal payload).1.events = x.events := by
  unfold fragStore
  split
  · rfl
  · rename_i i x' h
    have he := fragSlot_events h
    split
    · dsimp only
      split <;> exact he
    · exact he

section
variable {P : Event → Prop} {id : ChanId} (hP : P (.data id))
include hP

theorem deliverLoop_events : ∀ (fuel : Nat) (x : Rx),
    Grows P x.events (deliverLoop id fuel x).events
  | 0, x => .refl _
  | fuel + 1, x => by
    unfold deliverLoop
    split
    · refine .trans ?_ (deliverLoop_events fuel _)
      show Grows _ _ (Rx.deliver _ _ _).events
      rw [deliver_events]
      exact .offer _ hP
    · exact .refl _

theorem dataArrived_events (x : Rx) (seq : UInt16) (data : List UInt8) :
    Grows P x.events (dataArrived id x seq data).events := by
  unfold dataArrived
  split
  · refine .trans ?_ (deliverLoop_events hP _ _)
    show Grows _ _ (Rx.deliver _ _ _).events
    rw [deliver_events]
    exact .offer _ hP
  · unfold reorderStore
    dsimp only
    repeat' split
    all_goals exact .refl _

theorem dataUnreliable_events (fp : Nat) (x : Rx) (seq : UInt16)
    (fragIdx fragTotal : Nat) (payload : List UInt8) :
    Grows P x.events (dataUnreliable fp id x seq fragIdx fragTotal payload).events := by
  unfold dataUnreliable
  split
  · rw [deliver_events]
    exact .offer _ hP
  · have he := fragStore_events fp x seq fragIdx fragTotal payload
    split
    · rename_i x' h
      rw [h] at he
      rw [he]
      exact .refl _
    · rename_i x' i pos h
      rw [h] at he
      show Grows _ _ (Rx.deliver _ _ _).events
      rw [deliver_events, he]
      exact .offer _ hP

theorem dataReliable_events (fp : Nat) (x : Rx) (seq : UInt16)
    (fragIdx fragTotal : Nat) (payload : List UInt8) :
    Grows P x.events (dataReliable fp id x seq fragIdx fragTotal payload).events := by
  unfold dataReliable
  split
  · exact dataArrived_events hP x seq payload
  · have he := fragStore_events fp x seq fragIdx fragTotal payload
    split
    · rename_i x' h
      rw [h] at he
      rw [he]
      exact .refl _
    · rename_i x' i pos h
      rw [h] at he
      have := dataArrived_events hP x' seq (assembled x' i pos)
      rwa [he] at this

end

theorem serviceChans_events (cfg : Cfg) (now : UInt32) : ∀ (is : List ChanId) (ev : Events)
    (t : Table) (nextMs : Int), Grows Event.Quiet ev (serviceChans cfg now is (ev, t) nextMs).1.1
  | [], ev, _, _ => .refl ev
  | i :: is, ev, t, nextMs => by
    unfold serviceChans
    repeat' split
    all_goals first
      | exact serviceChans_events cfg now is _ _ _
      | exact .trans (.offer _ ⟨by simp, by simp⟩) (serviceChans_events cfg now is _ _ _)

/-! ## The transitions of the session -/

/-- One transition of the session: the move of `c->state` and the session event that may be pushed
with it. -/
inductive SessionStep (c c' : Conn) : Prop
  | quiet (hs : c'.state = c.state) (he : Grows Event.Quiet c.events c'.events)
  | start (hs : c.state = .new) (hs' : c'.state = .connecting) (he : c'.events = c.events)
  | up (hs : c.state = .connecting) (hs' : c'.state = .connected)
      (he : Pushes .connected c.events c'.events)
  | down (hs : c.state = .connecting ∨ c.state = .connected) (hs' : c'.state = .closed)
      (he : Pushes .disconnected c.events c'.events)
  | leave (hs : c.state = .connected) (hs' : c'.state = .closing) (he : c'.events = c.events)
  | left (hs : c.state = .closing) (hs' : c'.state = .closed) (he : c'.events = c.events)

theorem SessionStep.same {c c' : Conn} (hs : c'.state = c.state) (he : c'.events = c.events) :
    SessionStep c c' :=
  .quiet hs (by rw [he]; exact .refl _)

/-- No CONNECT_ACCEPT meets a client that is not connecting. -/
def AcceptInTime (c : Conn) : Step → Prop
  | .frame _ (.connectAccept _ _ _) => c.server = false → c.state = .connecting
  | _ => True

instance (c : Conn) (st : Step) : Decidable (AcceptInTime c st) :=
  match st with
  | .frame _ (.connectAccept _ _ _) =>
    inferInstanceAs (Decidable (c.server = false → c.state = .connecting))
  | .frame _ (.connectInit _) | .frame _ (.connectRedirect _ _) | .frame _ (.disconnect _)
  | .frame _ (.ping _) | .frame _ (.pong _) | .frame _ (.channelOpen _ _ _ _)
  | .frame _ (.channelClose _ _) | .frame _ (.data _ _ _ _ _) | .frame _ (.ack _ _)
  | .frame _ (.windowUpdate _ _) | .config _ | .call _ | .sendNext _ _ | .header _ _ _ =>
    .isTrue trivial

theorem frame_session (env : Env) (c : Conn) (f : Frame) (hok : AcceptInTime c (.frame env f)) :
    SessionStep c (stepFrame env c f) := by
  cases f with
  | connectInit id =>
    simp only [stepFrame, applyFrame, initReceived]
    by_cases h1 : c.server <;> by_cases h2 : c.state = .new <;> simp only [h1, h2, ↓reduceIte]
    · exact .start h2 rfl rfl
    all_goals exact .same rfl rfl
  | connectAccept id v idle =>
    simp only [stepFrame, applyFrame]
    by_cases h : c.server
    · simp only [h, ↓reduceIte]
      exact .same rfl rfl
    · simp only [h]
      exact .up (hok (by simpa using h)) rfl (pushes_offer _ _)
  | connectRedirect id addr => exact .quiet rfl (.offer _ ⟨by simp, by simp⟩)
  | disconnect reason =>
    simp only [stepFrame, applyFrame, disconnectReceived, Option.getD_some]
    split
    · exact .down (.inl ‹_›) rfl (pushes_offer _ _)
    · exact .down (.inr ‹_›) rfl (pushes_offer _ _)
    · exact .left ‹_› rfl rfl
    · exact .same rfl rfl
    · exact .same rfl rfl
  | ping opaq => exact .same rfl rfl
  | pong opaq =>
    simp only [stepFrame, applyFrame, pongReceived, Option.getD_some]
    split <;> exact .same rfl rfl
  | channelOpen id type dir ct =>
    simp only [stepFrame, applyFrame, channelOpened_eq, Option.getD_some]
    split
    · exact .same rfl rfl
    · exact .quiet rfl (.offer _ ⟨by simp, by simp⟩)
  | channelClose id error =>
    simp only [stepFrame, applyFrame, channelClosed, Option.getD_some]
    split
    · exact .same rfl rfl
    · exact .quiet rfl (.offer _ ⟨by simp, by simp⟩)
  | data id seq fragIdx fragTotal payload =>
    simp only [stepFrame, applyFrame, dataReceived, Option.getD_some]
    repeat' split
    · exact .same rfl rfl
    · exact .same rfl rfl
    · exact .quiet rfl (dataUnreliable_events (quiet_data _) _ _ _ _ _ _)
    · exact .quiet rfl (dataReliable_events (quiet_data _) _ _ _ _ _ _)
  | ack id seq =>
    simp only [stepFrame, applyFrame, ackReceived, Option.getD_some]
    repeat' split
    all_goals exact .same rfl rfl
  | windowUpdate id w =>
    simp only [stepFrame, applyFrame, windowUpdated, Option.getD_some]
    repeat' split
    all_goals exact .same rfl rfl

theorem serviced_session (env : Env) (c : Conn) (now : UInt32) :
    (serviced env c now).state = c.state ∧ (serviced env c now).events = c.events := by
  unfold serviced
  repeat' split
  all_goals exact ⟨rfl, rfl⟩

theorem service_session (env : Env) (c : Conn) (now : UInt32) :
    SessionStep c (netchanService env c now).2 := by
  rcases netchanService_cases env c now with ⟨hg, he⟩ | ⟨-, n, he⟩
  · rw [he]
    refine .down ?_ rfl (pushes_offer _ _)
    rcases hg with hg | hg
    · exact .inl hg.1
    · exact .inr hg.1
  · rw [he]
    exact .quiet (serviced_session env c now).1 (serviceChans_events _ _ _ _ _ _)

theorem sendNext_same (env : Env) (c : Conn) (buflen : Nat) :
    (netchanSendNext env c buflen).1.state = c.state ∧
      (netchanSendNext env c buflen).1.events = c.events := by
  unfold netchanSendNext
  split
  · exact ⟨rfl, rfl⟩
  split
  · exact ⟨rfl, rfl⟩
  refine ⟨?_, ?_⟩ <;>
    (simp only [sendHeader, flushCtrl]; split <;> rfl)

theorem sendNext_session (env : Env) (c : Conn) (buflen : Nat) :
    SessionStep c (netchanSendNext env c buflen).1 :=
  .same (sendNext_same env c buflen).1 (sendNext_same env c buflen).2

theorem call_session (c : Conn) (k : Call) (hk : k ≠ .poll) : SessionStep c (k.apply c) := by
  cases k with
  | connect env addr =>
    simp only [Call.apply, netchanConnect]
    repeat' split
    · exact .same rfl rfl
    · exact .same rfl rfl
    · exact .start (by simp_all) rfl rfl
  | accept =>
    simp only [Call.apply, netchanAccept]
    repeat' split
    · exact .same rfl rfl
    · exact .same rfl rfl
    · exact .up (by simp_all) rfl (pushes_offer _ _)
  | disconnect =>
    simp only [Call.apply, netchanDisconnect]
    split
    · exact .same rfl rfl
    · exact .leave (by simp_all) rfl rfl
  | service env now => exact service_session env c now
  | chanOpen type dir ct =>
    simp only [Call.apply, netchanChanOpen_eq]
    repeat' split
    all_goals exact .same rfl rfl
  | chanClose id =>
    simp only [Call.apply, netchanChanClose]
    repeat' split
    all_goals exact .same rfl rfl
  | write id data =>
    simp only [Call.apply, netchanChanWrite]
    repeat' split
    all_goals exact .same rfl rfl
  | read id buflen =>
    simp only [Call.apply, netchanChanRead]
    repeat' split
    all_goals exact .same rfl rfl
  | poll => exact absurd rfl hk

theorem updatePeer_session (c : Conn) (frames : List UInt8) (source : Option Addr) :
    (updatePeer c frames source).state = c.state ∧
      (updatePeer c frames source).events = c.events := by
  obtain ⟨a, h⟩ := updatePeer_eq c frames source
  rw [h]
  exact ⟨rfl, rfl⟩

/-- **Every step but a poll takes one of the transitions**; a poll keeps the state. -/
theorem step_session (c : Conn) (st : Step) (hok : AcceptInTime c st) :
    (st = .call .poll ∧ (st.apply c).state = c.state) ∨
      (st ≠ .call .poll ∧ SessionStep c (st.apply c)) := by
  cases st with
  | config cfg => exact .inr ⟨by simp, .same rfl rfl⟩
  | call k =>
    by_cases hk : k = .poll
    · subst hk
      refine .inl ⟨rfl, ?_⟩
      simp only [Step.apply, Call.apply, netchanPoll]
      split <;> rfl
    · exact .inr ⟨by simpa using hk, call_session c k hk⟩
  | sendNext env buflen => exact .inr ⟨by simp, sendNext_session env c buflen⟩
  | header env pkt source =>
    obtain ⟨h1, h2⟩ := updatePeer_session c (pkt.drop (hdrSize (byte pkt 0))) source
    exact .inr ⟨by simp, .same h1 h2⟩
  | frame env f => exact .inr ⟨by simp, frame_session env c f hok⟩

/-! ## Whole runs -/

/-- The events of `q'` that came after those of `q`. -/
def appended (q q' : Events) : List Event := q'.toList.drop q.toList.length

theorem appended_self (q : Events) : appended q q = [] := List.drop_length

theorem count_appended {q q' : Events} (h : Grows Event.Quiet q q') :
    (appended q q').count .connected = 0 ∧ (appended q q').count .disconnected = 0 := by
  obtain ⟨l, hl, hq⟩ := h
  rw [appended, hl, List.drop_left]
  exact ⟨List.count_eq_zero.2 fun he => (hq _ he).1 rfl,
    List.count_eq_zero.2 fun he => (hq _ he).2 rfl⟩

theorem appended_cases {e : Event} {q q' : Events} (h : Pushes e q q') :
    appended q q' = [] ∨ appended q q' = [e] := by
  rcases h with hl | hl
  · exact .inl (by rw [appended, hl, List.drop_length])
  · exact .inr (by rw [appended, hl, List.drop_left])

/-- The events a step pushes. -/
def pushed (c : Conn) : Step → List Event
  | .call .poll => []
  | st => appended c.events (st.apply c).events

/-- The events pushed along a run. -/
def pushedAlong : Conn → List Step → List Event
  | _, [] => []
  | c, st :: sts => pushed c st ++ pushedAlong (st.apply c) sts

theorem pushed_of_ne {st : Step} (h : st ≠ .call .poll) (c : Conn) :
    pushed c st = appended c.events (st.apply c).events := by
  unfold pushed
  split
  · exact absurd rfl h
  · rfl

/-- The session events still to come at most: CONNECTED before the session is up, DISCONNECTED
before it is closed. -/
def due (c : Conn) : Event → Nat
  | .connected => if c.state.rank < ConnState.connected.rank then 1 else 0
  | .disconnected => if c.state.rank < ConnState.closed.rank then 1 else 0
  | _ => 0

/-- **What a step does to the session**: its state does not move back, and the session events it
pushes were due and are not due any more. -/
theorem step_due {c : Conn} {st : Step} (hok : AcceptInTime c st) :
    c.state.rank ≤ (st.apply c).state.rank ∧
      ∀ e ∈ [Event.connected, Event.disconnected],
        (pushed c st).count e + due (st.apply c) e ≤ due c e := by
  rcases step_session c st hok with ⟨rfl, hs⟩ | ⟨hne, h⟩
  · simp [pushed, due, hs]
  rw [pushed_of_ne hne]
  cases h with
  | quiet hs he =>
    obtain ⟨h1, h2⟩ := count_appended he
    simp [due, hs, h1, h2]
  | start hs hs' he => simp [due, hs, hs', he, appended_self, ConnState.rank]
  | up hs hs' he => rcases appended_cases he with h | h <;> simp [due, hs, hs', h, ConnState.rank]
  | down hs hs' he =>
    rcases appended_cases he with h | h <;> rcases hs with hs | hs <;>
      simp [due, hs, hs', h, ConnState.rank]
  | leave hs hs' he => simp [due, hs, hs', he, appended_self, ConnState.rank]
  | left hs hs' he => simp [due, hs, hs', he, appended_self, ConnState.rank]

theorem run_due : ∀ {c : Conn} {sts : List Step}, Along Step.apply AcceptInTime c sts →
    c.state.rank ≤ (run Step.apply c sts).state.rank ∧
      ∀ e ∈ [Event.connected, Event.disconnected], (pushedAlong c sts).count e ≤ due c e
  | _, [], _ => by simp [pushedAlong]
  | c, st :: sts, h => by
    obtain ⟨h1, h2⟩ := step_due h.1
    obtain ⟨h3, h4⟩ := run_due h.2
    refine ⟨h1.trans h3, fun e he => ?_⟩
    have := h2 e he
    have := h4 e he
    rw [pushedAlong, List.count_append]
    omega

/-- **A session starts once and ends once**, along every run in which no CONNECT_ACCEPT meets a
client that is not connecting. -/
theorem session_once {server : Bool} {sts : List Step}
    (h : Along Step.apply AcceptInTime (netchanOpen server) sts) :
    (∀ before after, sts = before ++ after →
      (runConn server before).state.rank ≤ (runConn server (before ++ after)).state.rank) ∧
      (pushedAlong (netchanOpen server) sts).count .connected ≤ 1 ∧
      (pushedAlong (netchanOpen server) sts).count .disconnected ≤ 1 := by
  obtain ⟨-, hc⟩ := run_due h
  refine ⟨fun before after he => ?_, hc _ (by simp), hc _ (by simp)⟩
  subst he
  rw [runConn, runConn, run_append]
  exact (run_due (along_append.1 h).2).1

/-- A session that is set up, reported closed by the peer and told so twice. -/
def lifeSteps : List Step :=
  [.call (.connect { now := 1, entropy := 7 } [1]), .frame {} (.connectAccept 9 1 0),
    .frame {} (.disconnect 0), .frame {} (.disconnect 0)]

theorem session_once_life :
    Along Step.apply AcceptInTime (netchanOpen false) lifeSteps ∧
      (runConn false lifeSteps).state = .closed ∧
      pushedAlong (netchanOpen false) lifeSteps = [.connected, .disconnected] ∧
      (pushedAlong (netchanOpen false) lifeSteps).count .connected ≤ 1 := by
  have h : Along Step.apply AcceptInTime (netchanOpen false) lifeSteps := by decide +kernel
  exact ⟨h, by decide +kernel, by decide +kernel, (session_once h).2.1⟩

/-- A handshake whose CONNECT_ACCEPT the network duplicates, and a client that then disconnects. -/
def replayOps : List Op :=
  [.call .client (.connect { now := 1, entropy := 7 } [1]), .send .client { now := 2 } 1200,
    .deliver .server 0 { now := 3, entropy := 9 } (some [2]), .call .server .accept,
    .send .server { now := 4 } 1200, .dup .client 0, .deliver .client 0 { now := 5 } (some [1]),
    .call .client .disconnect]

/-- **A duplicated CONNECT_ACCEPT reopens a session that is closing**, and reports it as connected
a second time. -/
theorem accept_replay_reopens :
    ((World.run (fun _ => netchanCfgDefault) replayOps).conn .client).state = .closing ∧
      ((World.run (fun _ => netchanCfgDefault)
        (replayOps ++ [.deliver .client 0 { now := 6 } (some [1])])).conn .client).state =
          .connected ∧
      ((World.run (fun _ => netchanCfgDefault)
        (replayOps ++ [.deliver .client 0 { now := 6 } (some [1])])).conn .client).events.toList =
          [.connected, .connected] := by
  decide +kernel

/-! ## Datagrams with a foreign connection id -/

theorem stepFrame_localId (env : Env) {c : Conn} (f : Frame) (h : c.state ≠ .new) :
    (stepFrame env c f).state ≠ .new ∧ (stepFrame env c f).localId = c.localId := by
  cases f with
  | connectInit id =>
    simp only [stepFrame, applyFrame, initReceived, if_neg h]
    split
    · exact ⟨h, rfl⟩
    · exact ⟨h, rfl⟩
  | connectAccept id v idle =>
    simp only [stepFrame, applyFrame]
    split
    · exact ⟨h, rfl⟩
    · exact ⟨by simp [evPush], rfl⟩
  | connectRedirect id addr => exact ⟨h, rfl⟩
  | disconnect reason =>
    simp only [stepFrame, applyFrame, disconnectReceived, Option.getD_some]
    split
    · exact ⟨by simp [evPush], rfl⟩
    · exact ⟨by simp [evPush], rfl⟩
    · exact ⟨by simp, rfl⟩
    · exact ⟨h, rfl⟩
    · exact ⟨h, rfl⟩
  | ping opaq => exact ⟨h, rfl⟩
  | pong opaq =>
    simp only [stepFrame, applyFrame, pongReceived, Option.getD_some]
    split <;> exact ⟨h, rfl⟩
  | channelOpen id type dir ct =>
    simp only [stepFrame, applyFrame, channelOpened_eq, Option.getD_some]
    split <;> exact ⟨h, rfl⟩
  | channelClose id error =>
    simp only [stepFrame, applyFrame, channelClosed, Option.getD_some]
    split <;> exact ⟨h, rfl⟩
  | data id seq fragIdx fragTotal payload =>
    simp only [stepFrame, applyFrame, dataReceived, Option.getD_some]
    repeat' split
    all_goals exact ⟨h, rfl⟩
  | ack id seq =>
    simp only [stepFrame, applyFrame, ackReceived, Option.getD_some]
    repeat' split
    all_goals exact ⟨h, rfl⟩
  | windowUpdate id w =>
    simp only [stepFrame, applyFrame, windowUpdated, Option.getD_some]
    repeat' split
    all_goals exact ⟨h, rfl⟩

theorem updatePeer_localId (c : Conn) (frames : List UInt8) (source : Option Addr) :
    (updatePeer c frames source).localId = c.localId := by
  obtain ⟨a, h⟩ := updatePeer_eq c frames source
  rw [h]

theorem netchanFeed_localId (env : Env) {c : Conn} (pkt : List UInt8) (source : Option Addr)
    (h : c.state ≠ .new) : (netchanFeed env c pkt source).2.localId = c.localId := by
  unfold netchanFeed
  split
  · rw [parseFrames_run]
    let body := pkt.drop (hdrSize (byte pkt 0))
    have h0 : (fedConn env c pkt source).state ≠ .new ∧
        (fedConn env c pkt source).localId = c.localId := by
      refine ⟨?_, updatePeer_localId c body source⟩
      show (updatePeer c body source).state ≠ .new
      rwa [(updatePeer_session c body source).1]
    have := run_invariant (A := fun _ _ => True)
      (I := fun d : Conn => d.state ≠ .new ∧ d.localId = c.localId)
      (fun d f hd _ => by
        obtain ⟨h1, h2⟩ := stepFrame_localId env f hd.1
        exact ⟨h1, h2.trans hd.2⟩)
      h0 (along_true (parsed env body.length (fedConn env c pkt source) body))
    exact this.2
  · rfl

/-- **A datagram that does not carry the connection's id** is refused whole unless it is an INIT
packet, whose id is the sender's own and is not looked at; no datagram at all changes the id of a
connected session. -/
theorem feed_foreign_id (env : Env) {c : Conn} {pkt : List UInt8} (source : Option Addr)
    (hs : c.state = .connected) (hid : rd32 pkt 1 ≠ c.localId) :
    (byte pkt 0 &&& ncPktFlagInit = 0 → netchanFeed env c pkt source = (.error .proto, c)) ∧
      (netchanFeed env c pkt source).2.localId = c.localId := by
  refine ⟨fun hf => ?_, netchanFeed_localId env pkt source (by simp [hs])⟩
  have : headerOk c pkt = false := by simp [headerOk, hf, hid]
  rw [netchanFeed, this]
  rfl

/-- A server that has accepted a client. -/
def acceptedServer : Conn :=
  (World.run (fun _ => netchanCfgDefault) (replayOps.take 5)).conn .server

theorem feed_foreign_id_disconnect :
    acceptedServer.state = .connected ∧
      netchanFeed {} acceptedServer [2, 0, 0, 0, 8, 0, 0, 4, 0, 0] none =
        (.error .proto, acceptedServer) := by
  have hs : acceptedServer.state = .connected := by decide +kernel
  have hid : rd32 [2, 0, 0, 0, 8, 0, 0, 4, 0, 0] 1 ≠ acceptedServer.localId := by decide +kernel
  exact ⟨hs, (feed_foreign_id {} none hs hid).1 (by decide)⟩

/-- **An INIT packet with a foreign id ends a session**: its DISCONNECT is obeyed. -/
theorem init_packet_disconnects :
    acceptedServer.state = .connected ∧ rd32 [1, 0, 0, 0, 8, 4, 0, 0] 1 ≠ acceptedServer.localId ∧
      (netchanFeed {} acceptedServer [1, 0, 0, 0, 8, 4, 0, 0] none).2.state = .closed := by
  decide +kernel

end Netchan
