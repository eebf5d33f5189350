import Netchan.Pair.Promise
import Mathlib.Data.List.Flatten

/-!
# A network that keeps the order

Over a network that reorders and duplicates nothing, the frames on their way to an end are a queue:
`netchan_send_next` puts frames in at the back and `netchan_feed` takes them from the front. A `Line`
is an invariant of the two ends and these two queues, with a note that an observer keeps of the
calls. `Line.Kept` lists what has to be shown, frame by frame, on top of a promise that holds, and
`Line.step` says that it holds after every step.
-/

namespace Netchan

open Lib

/-- The frames on their way to end `s`, the first one to arrive in front. -/
def World.flight (w : World) (s : Side) : List Frame :=
  (w.net s).flatMap fun pkt => packetFrames pkt.bytes

/-- Datagrams are delivered in the order they were sent, and none of them twice. -/
def Op.Fifo : Op → Prop
  | .deliver _ i _ _ => i = 0
  | .dup .. => False
  | _ => True

instance : ∀ op : Op, Decidable op.Fifo
  | .deliver _ i _ _ => inferInstanceAs (Decidable (i = 0))
  | .dup .. => .isFalse fun h => h
  | .call .. | .send .. | .drop .. => .isTrue trivial

/-- An invariant of the two ends, the frames on their way and a note of the calls. -/
structure Line (γ : Type) where
  inv : Ends → (Side → List Frame) → γ → Prop
  note : γ → Ends → Side → Call → γ

/-- What has to be shown of a line, for calls and frames that satisfy `okCall` and `okFrame`. -/
structure Line.Kept {γ : Type} (L : Line γ) (P : Promise) (okCall : Ends → Side → Call → Prop)
    (okFrame : Ends → Side → Frame → Prop) : Prop where
  alike : ∀ {x y : Ends} {F : Side → List Frame} {g : γ}, L.inv x F g → y.log = x.log →
    (∀ s, (x.conn s).Alike (y.conn s)) → L.inv y F g
  called : ∀ {x : Ends} {F : Side → List Frame} {g : γ} {s : Side} {k : Call}, P.inv x →
    L.inv x F g → okCall x s k → L.inv (x.called s k) F (L.note g x s k)
  heard : ∀ {x : Ends} {F : Side → List Frame} {g : γ} {s : Side} {e : Env} {stamp : Log} {f : Frame}
    {fs : List Frame}, P.inv x → L.inv x F g → F s = f :: fs → okFrame x s f →
    L.inv (x.heard s e stamp f) (Function.update F s fs) g
  lost : ∀ {x : Ends} {F : Side → List Frame} {g : γ} {s : Side} {fs : List Frame}, L.inv x F g →
    fs.Sublist (F s) → L.inv x (Function.update F s fs) g
  flushed : ∀ {x : Ends} {F : Side → List Frame} {g : γ} {s : Side} {f : Frame}, L.inv x F g →
    P.queued s x.log f →
    L.inv (x.sent s (x.conn s) f) (Function.update F s.other (F s.other ++ [f])) g
  emitted : ∀ {x : Ends} {F : Side → List Frame} {g : γ} {s : Side} {now : UInt32} {f : Frame}
    {c' : Conn}, x.Sound → P.inv x → L.inv x F g → Emit now (x.conn s) f c' →
    L.inv (x.sent s c' f) (Function.update F s.other (F s.other ++ [f])) g
  transmitted : ∀ {x : Ends} {F : Side → List Frame} {g : γ} {s : Side} {c c' : Conn}, L.inv x F g →
    L.inv ⟨x.conn, x.log.transmitted s c c'⟩ F g

/-- The note after a step. -/
def Line.noted {γ : Type} (L : Line γ) (g : γ) (w : World) : Op → γ
  | .call s k => L.note g w.toEnds s k
  | _ => g

namespace Line

variable {γ : Type} {L : Line γ} {P : Promise} {okCall okCall' : Ends → Side → Call → Prop}
  {okFrame : Ends → Side → Frame → Prop} {okFrame' : Ends → Side → Log → Frame → Prop} {g : γ}

/-- **The frames of a datagram are processed.** -/
theorem hears (hL : L.Kept P okCall okFrame) (hP : P.Kept okCall' okFrame') {s : Side} {env : Env} :
    ∀ (fs rest : List Frame) (x : Ends) (stamp : Log) (F : Side → List Frame), P.At x →
      P.Carries s.other stamp fs → (stamp.advance s.other fs).Le x.log →
      Along (hearFrame s env) (fun x f => okFrame' x.1 s (x.2.frameSent s.other f) f) (x, stamp) fs →
      Along (hearFrame s env) (fun x f => okFrame x.1 s f) (x, stamp) fs →
      F s = fs ++ rest → L.inv x F g →
      L.inv (run (hearFrame s env) (x, stamp) fs).1 (Function.update F s rest) g
  | [], rest, x, stamp, F, _, _, _, _, _, hF, h => by
    have he : Function.update F s rest = F := by
      rw [← List.nil_append rest, ← hF, Function.update_eq_self]
    rw [he]
    exact h
  | f :: fs, rest, x, stamp, F, hat, hc, hle, hok', hok, hF, h => by
    have hf : (stamp.frameSent s.other f).Le x.log := (Log.le_advance s.other fs _).trans hle
    have h1 : L.inv (x.heard s env (stamp.frameSent s.other f) f)
        (Function.update F s (fs ++ rest)) g := hL.heard hat.inv h hF hok.1
    have h2 := hears hL hP fs rest (x.heard s env (stamp.frameSent s.other f) f)
      (stamp.frameSent s.other f) (Function.update F s (fs ++ rest))
      (hat.heard hP (e := env) hf hc.1 hok'.1) hc.2 (hle.trans (Log.le_frameHeard ..)) hok'.2 hok.2
      (Function.update_self ..) h1
    rwa [Function.update_idem] at h2

theorem flushes (hL : L.Kept P okCall okFrame) (hP : P.Kept okCall' okFrame') {s : Side} :
    ∀ (qs : List Frame) (x : Ends) (F : Side → List Frame), (∀ f ∈ qs, P.queued s x.log f) →
      L.inv x F g →
      L.inv ⟨x.conn, x.log.advance s qs⟩ (Function.update F s.other (F s.other ++ qs)) g
  | [], x, F, _, h => by
    rw [List.append_nil, Function.update_eq_self]
    exact h
  | f :: qs, x, F, hq, h => by
    have h1 := hL.flushed h (hq f (.head _))
    have hx : x.sent s (x.conn s) f = ⟨x.conn, x.log.frameSent s f⟩ := by
      simp only [Ends.sent, Function.update_eq_self]
    rw [hx] at h1
    have h2 := flushes hL hP qs ⟨x.conn, x.log.frameSent s f⟩ _
      (fun f' hf' => hP.grow (Log.le_frameSent ..) (hq f' (.tail _ hf'))) h1
    rwa [Function.update_self, Function.update_idem, List.append_assoc] at h2

theorem emits (hL : L.Kept P okCall okFrame) (hP : P.Kept okCall' okFrame') {s : Side} {now : UInt32}
    {c c' : Conn} {fs : List Frame} (he : Emits now c fs c') : ∀ (x : Ends) (F : Side → List Frame),
      x.conn s = c → x.Sound → P.inv x → L.inv x F g →
      L.inv ⟨Function.update x.conn s c', x.log.advance s fs⟩
        (Function.update F s.other (F s.other ++ fs)) g := by
  induction he with
  | nil c =>
    rintro x F rfl - - h
    rw [List.append_nil, Function.update_eq_self, Function.update_eq_self]
    exact h
  | @cons c c1 c2 f fs h1 _ ih =>
    rintro x F rfl hs hinv h
    have h2 := ih (x.sent s c1 f) _ (by simp [Ends.sent]) (hs.sent h1) (hP.emitted hs hinv h1).1
      (hL.emitted hs hinv h h1)
    simp only [Ends.sent, Function.update_idem, Function.update_self, List.append_assoc] at h2
    exact h2

theorem flight_update (w : World) (s : Side) (ps : List Packet) (x : Ends) :
    ({ toEnds := x, net := Function.update w.net s ps } : World).flight =
      Function.update w.flight s (ps.flatMap fun pkt => packetFrames pkt.bytes) := by
  funext t
  by_cases ht : t = s
  · subst ht
    simp [World.flight]
  · simp [World.flight, Function.update_of_ne ht]

theorem transmit (hL : L.Kept P okCall okFrame) (hP : P.Kept okCall' okFrame') {w : World} {s : Side}
    {env : Env} {buflen : Nat} (hw : P.Holds w) (hwhole : Whole (w.conn s) buflen)
    (h : L.inv w.toEnds w.flight g) :
    L.inv (w.transmit s env buflen).toEnds (w.transmit s env buflen).flight g := by
  rcases Promise.transmit_cases env (hw.ends.sound s) (hw.ends.queue s) hwhole with
    he | ⟨qs, fs, c', hq, -, hem, -, hframes, he⟩
  · rw [he]
    exact h
  · have h1 := flushes hL hP qs w.toEnds w.flight hq h
    have ha : (w.conn s).Alike (ctrlFlushed (w.conn s) buflen) :=
      ⟨rfl, rfl, rfl, rfl, rfl, rfl, rfl, rfl, rfl⟩
    have halike : ∀ t, (w.conn t).Alike
        (Function.update w.conn s (ctrlFlushed (w.conn s) buflen) t) := by
      intro t
      have hu := Promise.alike_update w.conn (s := s) ha t
      rwa [Function.update_eq_self] at hu
    have h2 := hL.alike (y := ⟨Function.update w.conn s (ctrlFlushed (w.conn s) buflen),
      w.log.advance s qs⟩) h1 rfl halike
    have hinv2 : P.inv ⟨Function.update w.conn s (ctrlFlushed (w.conn s) buflen),
        w.log.advance s qs⟩ :=
      hP.alike (Promise.flushes hP qs w.toEnds hw.ends.inv hq).1 rfl halike
    have hs2 : Ends.Sound ⟨Function.update w.conn s (ctrlFlushed (w.conn s) buflen),
        w.log.advance s qs⟩ := fun t =>
      (hw.ends.sound t).congr (halike t).server (halike t).cfg (halike t).channels
    have h3 := emits hL hP (s := s) hem _ _ (Function.update_self ..) hs2 hinv2 h2
    simp only [Function.update_idem, Function.update_self, List.append_assoc] at h3
    have hsent : c'.Alike { c' with lastSendMs := env.now, pktsSent := (w.conn s).pktsSent + 1 } :=
      ⟨rfl, rfl, rfl, rfl, rfl, rfl, rfl, rfl, rfl⟩
    have halike' := Promise.alike_update w.conn (s := s) hsent
    rw [he, flight_update, List.flatMap_append]
    simp only [List.flatMap_cons, List.flatMap_nil, List.append_nil, hframes]
    generalize { c' with lastSendMs := env.now, pktsSent := (w.conn s).pktsSent + 1 } = c''
      at halike' ⊢
    have h4 : L.inv ⟨Function.update w.conn s c'', (w.log.advance s (qs ++ fs)).transmitted s
        (w.conn s) c''⟩ (Function.update w.flight s.other (w.flight s.other ++ (qs ++ fs))) g := by
      rw [Log.advance_append]
      exact hL.transmitted (hL.alike (y := ⟨Function.update w.conn s c'', _⟩) h3 rfl halike')
    exact h4

/-- **The first datagram of the queue is delivered.** -/
theorem receive (hL : L.Kept P okCall okFrame) (hP : P.Kept okCall' okFrame') {w : World} {s : Side}
    {pkt : Packet} {ps : List Packet} {env : Env} {source : Option Addr} (hw : P.Holds w)
    (hpkt : P.OnWay s w.log pkt) (hnet : w.net s = pkt :: ps)
    (hok' : headerOk (w.conn s) pkt.bytes = true →
      Along (hearFrame s env) (fun x f => okFrame' x.1 s (x.2.frameSent s.other f) f)
        ((framesFed w.toEnds s pkt env source).1, pkt.stamp)
        (framesFed w.toEnds s pkt env source).2)
    (hok : headerOk (w.conn s) pkt.bytes = true →
      Along (hearFrame s env) (fun x f => okFrame x.1 s f)
        ((framesFed w.toEnds s pkt env source).1, pkt.stamp)
        (framesFed w.toEnds s pkt env source).2)
    (h : L.inv w.toEnds w.flight g) :
    L.inv ({ w with net := Function.update w.net s ps }.receive s pkt env source).toEnds
      ({ w with net := Function.update w.net s ps }.receive s pkt env source).flight g := by
  have hflight : w.flight s =
      packetFrames pkt.bytes ++ ps.flatMap fun pkt => packetFrames pkt.bytes := by
    simp [World.flight, hnet]
  have hrest (x : Ends) : ({ toEnds := x, net := Function.update w.net s ps } : World).flight =
      Function.update w.flight s (ps.flatMap fun pkt => packetFrames pkt.bytes) := flight_update ..
  rcases Promise.receive_cases (w := { w with net := Function.update w.net s ps }) env source
    (hw.ends.sound s) hpkt with he | ⟨hh, fs, hfs, hparsed, hcar, hle, hends⟩
  · rw [he, hrest]
    refine hL.lost h ?_
    rw [hflight]
    exact List.sublist_append_right ..
  · have hfl : ({ w with net := Function.update w.net s ps }.receive s pkt env source).flight =
        Function.update w.flight s (ps.flatMap fun pkt => packetFrames pkt.bytes) :=
      hrest ({ w with net := Function.update w.net s ps }.receive s pkt env source).toEnds
    obtain ⟨halike, hctrl⟩ := Promise.fedConn_alike env (w.conn s) pkt.bytes source
    have hat : P.At (framesFed w.toEnds s pkt env source).1 := hw.ends.alike hP halike hctrl
    have hinv : L.inv (framesFed w.toEnds s pkt env source).1 w.flight g := by
      refine hL.alike h rfl fun t => ?_
      have hu := Promise.alike_update w.conn (s := s) halike t
      rwa [Function.update_eq_self] at hu
    have hok' := hok' hh
    have hok := hok hh
    rw [hparsed] at hok' hok
    rw [hfl, hends]
    exact hears hL hP fs _ _ pkt.stamp _ hat hcar hle hok' hok (by rw [hflight, hfs]) hinv

/-- **A line that is kept holds after every step** over a network that keeps the order. -/
theorem step (hL : L.Kept P okCall okFrame) (hP : P.Kept okCall' okFrame') {w : World} {op : Op}
    (hw : P.Holds w) (hop' : op.Meets okCall' okFrame' w)
    (hop : op.Meets okCall (fun x s _ f => okFrame x s f) w) (hfifo : op.Fifo)
    (h : L.inv w.toEnds w.flight g) :
    L.inv (w.step op).toEnds (w.step op).flight (L.noted g w op) := by
  cases op with
  | call s k => exact hL.called hw.ends.inv h hop
  | send s env buflen => exact transmit hL hP hw hop h
  | deliver s i env source =>
    obtain rfl : i = 0 := hfifo
    cases hnet : w.net s with
    | nil =>
      have hw' : w.step (.deliver s 0 env source) = w := by simp [World.step, hnet]
      rw [hw']
      exact h
    | cons pkt ps =>
      have hget : (w.net s)[0]? = some pkt := by rw [hnet]; rfl
      have hpkt : P.OnWay s w.log pkt := hw.net s pkt (by rw [hnet]; exact .head _)
      have hstep : w.step (.deliver s 0 env source) =
          { w with net := Function.update w.net s ps }.receive s pkt env source := by
        simp [World.step, hnet]
      rw [hstep]
      exact receive hL hP hw hpkt hnet (hop' pkt hget) (hop pkt hget) h
  | dup s i => exact hfifo.elim
  | drop s i =>
    have hstep : (w.step (.drop s i)).flight = Function.update w.flight s
        (((w.net s).eraseIdx i).flatMap fun pkt => packetFrames pkt.bytes) := flight_update ..
    rw [hstep]
    exact hL.lost h (List.Sublist.flatMap (List.eraseIdx_sublist ..) _)

end Line

end Netchan
