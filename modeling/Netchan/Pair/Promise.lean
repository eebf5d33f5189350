import Netchan.Pair.Queue
import Netchan.Pair.Slots

/-!
# What two ends promise each other

A `Promise` is an invariant of the two ends and the log, together with what it says about every
frame: while it waits in a control queue (`queued`) and, stamped with the log of the moment it was
sent, on its way (`carried`). `Promise.Kept` lists what has to be shown: that every call, every
frame processed and every frame sent keeps the invariant, and that new frames are as promised.
`Promise.step` then says that a promise that is kept holds in every state of two ends joined by a
network that drops, duplicates and reorders, as long as control frames are sent whole.
-/

namespace Netchan

open Lib

/-! ## Later logs -/

namespace Log

/-- `l'` is a later log. -/
structure Le (l l' : Log) : Prop where
  written : ∀ s id, l.written s id <+: l'.written s id
  passed : ∀ s id, l.passed s id ≤ l'.passed s id
  grants : ∀ s id, l.grants s id <+: l'.grants s id
  opened : ∀ s, l.opened s <+: l'.opened s
  appClosed : ∀ id, l.appClosed id = true → l'.appClosed id = true
  chosen : ∀ s a, l.chosen s = some a → l'.chosen s = some a
  left : ∀ s, l.left s = true → l'.left s = true

theorem Le.refl (l : Log) : Le l l :=
  ⟨fun _ _ => List.prefix_rfl, fun _ _ => Nat.le_refl _, fun _ _ => List.prefix_rfl,
    fun _ => List.prefix_rfl, fun _ h => h, fun _ _ h => h, fun _ h => h⟩

theorem Le.trans {l l' l'' : Log} (h : Le l l') (h' : Le l' l'') : Le l l'' :=
  ⟨fun s id => (h.written s id).trans (h'.written s id),
    fun s id => (h.passed s id).trans (h'.passed s id),
    fun s id => (h.grants s id).trans (h'.grants s id),
    fun s => (h.opened s).trans (h'.opened s),
    fun id hc => h'.appClosed id (h.appClosed id hc),
    fun s a hc => h'.chosen s a (h.chosen s a hc),
    fun s hc => h'.left s (h.left s hc)⟩

theorem onChan_prefix {α : Type} (f : Side → ChanId → List α) (s : Side) (id : ChanId) (x : List α)
    (t : Side) (j : ChanId) : f t j <+: onChan f s id (f s id ++ x) t j := by
  unfold onChan
  split
  · rename_i h
    rw [h.1, h.2]
    exact List.prefix_append ..
  · exact List.prefix_rfl

theorem update_prefix {α : Type} (f : Side → List α) (s : Side) (x : List α) (t : Side) :
    f t <+: Function.update f s (f s ++ x) t := by
  by_cases h : t = s
  · subst h
    rw [Function.update_self]
    exact List.prefix_append ..
  · rw [Function.update_of_ne h]

theorem update_chosen (f : Side → Option UInt32) (s : Side) (o : Option UInt32) (t : Side)
    (a : UInt32) (h : f t = some a) : Function.update f s (f s <|> o) t = some a := by
  by_cases hs : t = s
  · subst hs
    simp [h]
  · rw [Function.update_of_ne hs, h]

theorem le_called (l : Log) (s : Side) (c : Conn) (k : Call) : l.Le (l.called s c k) := by
  cases k with
  | connect env addr =>
    simp only [called]
    split
    · exact { Le.refl l with chosen := update_chosen _ _ _ }
    · exact .refl l
  | disconnect =>
    simp only [called]
    split
    · refine { Le.refl l with left := fun t h => ?_ }
      by_cases hs : t = s
      · subst hs
        simp
      · simpa [Function.update_of_ne hs] using h
    · exact .refl l
  | write id data =>
    simp only [called]
    split
    · exact { Le.refl l with written := onChan_prefix _ _ _ _ }
    · exact .refl l
  | chanOpen type dir ct =>
    simp only [called]
    split
    · exact { Le.refl l with opened := update_prefix _ _ _ }
    · exact .refl l
  | chanClose id =>
    simp only [called]
    split
    · exact { Le.refl l with appClosed := fun j h => by simp [h] }
    · exact .refl l
  | _ => exact { Le.refl l with }

theorem le_frameSent (l : Log) (s : Side) (f : Frame) : l.Le (l.frameSent s f) := by
  cases f with
  | windowUpdate id w => exact { Le.refl l with grants := onChan_prefix _ _ _ _ }
  | _ => exact .refl l

theorem le_frameHeard (l : Log) (s : Side) (stamp : Log) (c c' : Conn) (f : Frame) :
    l.Le (l.frameHeard s stamp c c' f) := by
  cases f with
  | connectInit id =>
    simp only [frameHeard]
    split
    · exact { Le.refl l with chosen := update_chosen _ _ _ }
    · exact .refl l
  | windowUpdate id w =>
    simp only [frameHeard]
    split
    · exact { Le.refl l with }
    · exact .refl l
  | data id seq idx total payload =>
    refine { Le.refl l with passed := fun t j => ?_ }
    simp only [frameHeard, onChan]
    split
    · rename_i h
      rw [h.1, h.2]
      omega
    · exact Nat.le_refl _
  | _ => exact .refl l

theorem le_transmitted (l : Log) (s : Side) (c c' : Conn) : l.Le (l.transmitted s c c') :=
  { Le.refl l with }

/-- The log after end `s` sent the frames `fs`. -/
def advance (s : Side) (l : Log) (fs : List Frame) : Log := fs.foldl (fun l f => l.frameSent s f) l

theorem le_advance (s : Side) : ∀ (fs : List Frame) (l : Log), l.Le (advance s l fs)
  | [], l => .refl l
  | f :: fs, l => (le_frameSent l s f).trans (le_advance s fs (l.frameSent s f))

theorem advance_append (s : Side) (l : Log) (fs gs : List Frame) :
    advance s l (fs ++ gs) = advance s (advance s l fs) gs := List.foldl_append

end Log

/-! ## Promises -/

/-- Two states of an end that differ only in the packet counters and timers, the queues of control
frames and events and the peer's address. -/
structure Conn.Alike (c c' : Conn) : Prop where
  localId : c'.localId = c.localId
  remoteId : c'.remoteId = c.remoteId
  server : c'.server = c.server
  state : c'.state = c.state
  cfg : c'.cfg = c.cfg
  channels : c'.channels = c.channels
  nextChanId : c'.nextChanId = c.nextChanId
  chanUsed : c'.chanUsed = c.chanUsed
  pool : c'.pool = c.pool

theorem Conn.Alike.refl (c : Conn) : c.Alike c := ⟨rfl, rfl, rfl, rfl, rfl, rfl, rfl, rfl, rfl⟩

structure Promise where
  inv : Ends → Prop
  /-- What holds of a frame in the control queue of an end. -/
  queued : Side → Log → Frame → Prop
  /-- What holds of a frame that an end sent, leaving this log. -/
  carried : Side → Log → Frame → Prop

/-- Both ends are in order. -/
def Ends.Sound (x : Ends) : Prop := ∀ s, Netchan.Sound s.isServer (x.conn s)

theorem Ends.Sound.sent {x : Ends} {s : Side} {now : UInt32} {f : Frame} {c' : Conn} (hs : x.Sound)
    (he : Emit now (x.conn s) f c') : (x.sent s c' f).Sound := by
  intro t
  by_cases ht : t = s
  · subst ht
    simp only [Ends.sent, Function.update_self]
    exact sound_emit (hs t) he
  · simp only [Ends.sent, Function.update_of_ne ht]
    exact hs t

/-- What has to be shown of a promise, for calls and frames that satisfy `okCall` and `okFrame`. -/
structure Promise.Kept (P : Promise) (okCall : Ends → Side → Call → Prop)
    (okFrame : Ends → Side → Log → Frame → Prop) : Prop where
  grow : ∀ {s : Side} {l l' : Log} {f : Frame}, l.Le l' → P.queued s l f → P.queued s l' f
  alike : ∀ {x y : Ends}, P.inv x → y.log = x.log → (∀ s, (x.conn s).Alike (y.conn s)) → P.inv y
  called : ∀ {x : Ends} {s : Side} {k : Call}, x.Sound → P.inv x → okCall x s k →
    P.inv (x.called s k) ∧
      ∀ f, Queues (x.conn s) (.call k) f → P.queued s (x.called s k).log f
  heard : ∀ {x : Ends} {s : Side} {e : Env} {stamp : Log} {f : Frame}, x.Sound → P.inv x →
    stamp.Le x.log → P.carried s.other stamp f → okFrame x s stamp f →
    P.inv (x.heard s e stamp f) ∧
      ∀ g, Queues (x.conn s) (.frame e f) g → P.queued s (x.heard s e stamp f).log g
  flushed : ∀ {x : Ends} {s : Side} {f : Frame}, P.inv x → P.queued s x.log f →
    P.inv (x.sent s (x.conn s) f) ∧ P.carried s (x.log.frameSent s f) f
  emitted : ∀ {x : Ends} {s : Side} {now : UInt32} {f : Frame} {c' : Conn}, x.Sound → P.inv x →
    Emit now (x.conn s) f c' → P.inv (x.sent s c' f) ∧ P.carried s (x.log.frameSent s f) f
  transmitted : ∀ {x : Ends} {s : Side} {c c' : Conn}, P.inv x →
    P.inv ⟨x.conn, x.log.transmitted s c c'⟩

namespace Promise

variable (P : Promise)

/-- The frames `fs`, sent one after the other from the log `l` on, are as promised. -/
def Carries (s : Side) : Log → List Frame → Prop
  | _, [] => True
  | l, f :: fs => P.carried s (l.frameSent s f) f ∧ Carries s (l.frameSent s f) fs

theorem carries_append (s : Side) : ∀ (l : Log) (fs gs : List Frame), P.Carries s l fs →
    P.Carries s (l.advance s fs) gs → P.Carries s l (fs ++ gs)
  | _, [], _, _, h => h
  | l, f :: fs, gs, hf, h => ⟨hf.1, carries_append s (l.frameSent s f) fs gs hf.2 h⟩

theorem carries_congr {P Q : Promise} (h : P.carried = Q.carried) (s : Side) :
    ∀ (l : Log) (fs : List Frame), P.Carries s l fs → Q.Carries s l fs
  | _, [], _ => trivial
  | l, f :: fs, hf => ⟨h ▸ hf.1, carries_congr h s (l.frameSent s f) fs hf.2⟩

/-- The control queue of end `s` consists of whole frames as promised. -/
def Queue (s : Side) (log : Log) (buf : List UInt8) : Prop :=
  ∃ fs, buf = encodeAll fs ∧
    ∀ f ∈ fs, (f.Fits ∧ f.AcceptedBy s.other.isServer) ∧ P.queued s log f

/-- A datagram on its way to end `s` consists of a header and whole frames as promised. -/
def OnWay (s : Side) (log : Log) (pkt : Packet) : Prop :=
  ∃ hdr fs, pkt.bytes = hdr ++ encodeAll fs ∧ hdr.length = hdrSize (byte pkt.bytes 0) ∧
    (∀ f ∈ fs, f.Fits ∧ f.AcceptedBy s.isServer) ∧ P.Carries s.other pkt.stamp fs ∧
    (pkt.stamp.advance s.other fs).Le log

/-- The promise holds of the two ends. -/
structure At (x : Ends) : Prop where
  sound : x.Sound
  inv : P.inv x
  queue : ∀ s, P.Queue s x.log (x.conn s).ctrlBuf

/-- The promise holds of the two ends and the network. -/
structure Holds (w : World) : Prop where
  ends : P.At w.toEnds
  net : ∀ s, ∀ pkt ∈ w.net s, P.OnWay s w.log pkt

end Promise

/-- The calls and frames of a step satisfy `okCall` and `okFrame`, and control frames are sent
whole. -/
def Op.Meets (okCall : Ends → Side → Call → Prop) (okFrame : Ends → Side → Log → Frame → Prop)
    (w : World) : Op → Prop
  | .call s k => okCall w.toEnds s k
  | .send s _ buflen => Whole (w.conn s) buflen
  | .deliver s i env source => ∀ pkt ∈ (w.net s)[i]?, headerOk (w.conn s) pkt.bytes = true →
    Along (hearFrame s env) (fun x f => okFrame x.1 s (x.2.frameSent s.other f) f)
      ((framesFed w.toEnds s pkt env source).1, pkt.stamp)
      (framesFed w.toEnds s pkt env source).2
  | _ => True

theorem Op.Meets.anyCall {okCall : Ends → Side → Call → Prop}
    {okFrame : Ends → Side → Log → Frame → Prop} {w : World} {op : Op}
    (h : op.Meets okCall okFrame w) : op.Meets (fun _ _ _ => True) okFrame w := by
  cases op with
  | call s k => trivial
  | send s env buflen => exact h
  | deliver s i env source => exact h
  | dup s i => trivial
  | drop s i => trivial

theorem Op.Meets.anyFrame {okCall : Ends → Side → Call → Prop}
    {okFrame : Ends → Side → Log → Frame → Prop} {w : World} {op : Op}
    (h : op.Meets okCall okFrame w) : op.Meets okCall (fun _ _ _ _ => True) w := by
  cases op with
  | call s k => exact h
  | send s env buflen => exact h
  | deliver s i env source => exact fun pkt hpkt hok => (h pkt hpkt hok).mono fun _ _ _ => trivial
  | dup s i => trivial
  | drop s i => trivial

theorem Op.Meets.bothCalls {okCall okCall' : Ends → Side → Call → Prop}
    {okFrame : Ends → Side → Log → Frame → Prop} {w : World} {op : Op}
    (h : op.Meets okCall okFrame w) (h' : op.Meets okCall' okFrame w) :
    op.Meets (fun x s k => okCall x s k ∧ okCall' x s k) okFrame w := by
  cases op with
  | call s k => exact ⟨h, h'⟩
  | send s env buflen => exact h
  | deliver s i env source => exact h
  | dup s i => trivial
  | drop s i => trivial

theorem Op.Meets.sendsWhole {okCall : Ends → Side → Call → Prop}
    {okFrame : Ends → Side → Log → Frame → Prop} {w : World} {op : Op}
    (h : op.Meets okCall okFrame w) : op.SendsWhole w := by
  cases op with
  | send s env buflen => exact h
  | _ => trivial

instance {okCall : Ends → Side → Call → Prop} {okFrame : Ends → Side → Log → Frame → Prop}
    [∀ x s k, Decidable (okCall x s k)] [∀ x s l f, Decidable (okFrame x s l f)] (w : World) :
    ∀ op : Op, Decidable (op.Meets okCall okFrame w)
  | .call s k => inferInstanceAs (Decidable (okCall w.toEnds s k))
  | .send s _ buflen => inferInstanceAs (Decidable (Whole (w.conn s) buflen))
  | .deliver s i _ _ => inferInstanceAs (Decidable (∀ pkt ∈ (w.net s)[i]?, _ → _))
  | .dup .. | .drop .. => inferInstanceAs (Decidable True)

namespace Promise

variable {P : Promise} {okCall : Ends → Side → Call → Prop}
  {okFrame : Ends → Side → Log → Frame → Prop}

theorem Queue.grow (hP : P.Kept okCall okFrame) {s : Side} {l l' : Log} {buf : List UInt8}
    (h : P.Queue s l buf) (hl : l.Le l') : P.Queue s l' buf := by
  obtain ⟨fs, hb, hf⟩ := h
  exact ⟨fs, hb, fun f hm => ⟨(hf f hm).1, hP.grow hl (hf f hm).2⟩⟩

theorem OnWay.grow {s : Side} {l l' : Log} {pkt : Packet} (h : P.OnWay s l pkt) (hl : l.Le l') :
    P.OnWay s l' pkt := by
  obtain ⟨hdr, fs, h1, h2, h3, h4, h5⟩ := h
  exact ⟨hdr, fs, h1, h2, h3, h4, h5.trans hl⟩

/-! ## One end does something -/

theorem isServer_other (s : Side) : s.other.isServer = !s.isServer := by cases s <;> rfl

theorem At.stepped (hP : P.Kept okCall okFrame) {x : Ends} {s : Side} {c' : Conn} {l' : Log}
    {st : Step} (h : P.At x) (hl : x.log.Le l') (hsound : Netchan.Sound s.isServer c')
    (hadds : Adds (x.conn s).ctrlBuf c'.ctrlBuf (Queues (x.conn s) st))
    (hinv : P.inv ⟨Function.update x.conn s c', l'⟩)
    (hnew : ∀ f, Queues (x.conn s) st f → P.queued s l' f) :
    P.At ⟨Function.update x.conn s c', l'⟩ := by
  refine ⟨fun t => ?_, hinv, fun t => ?_⟩
  · by_cases ht : t = s
    · subst ht
      simp only [Function.update_self]
      exact hsound
    · simp only [Function.update_of_ne ht]
      exact h.sound t
  · by_cases ht : t = s
    · subst ht
      simp only [Function.update_self]
      obtain ⟨fs, hb, hf⟩ := (h.queue t).grow hP hl
      obtain ⟨gs, hb', hg⟩ := hadds
      refine ⟨fs ++ gs, by rw [hb', hb, encodeAll_append], fun f hm => ?_⟩
      rcases List.mem_append.1 hm with hm | hm
      · exact hf f hm
      · refine ⟨⟨(hg f hm).fits, ?_⟩, hnew f (hg f hm)⟩
        have := (hg f hm).accepted
        rwa [(h.sound t).server, ← isServer_other] at this
    · simp only [Function.update_of_ne ht]
      exact (h.queue t).grow hP hl

theorem At.called (hP : P.Kept okCall okFrame) {x : Ends} {s : Side} {k : Call} (h : P.At x)
    (hok : okCall x s k) : P.At (x.called s k) := by
  obtain ⟨hinv, hnew⟩ := hP.called h.sound h.inv hok
  exact h.stepped hP (Log.le_called ..) (sound_call (h.sound s) k) (call_ctrl _ k) hinv hnew

theorem At.heard (hP : P.Kept okCall okFrame) {x : Ends} {s : Side} {e : Env} {stamp : Log}
    {f : Frame} (h : P.At x) (hle : stamp.Le x.log) (hf : P.carried s.other stamp f)
    (hok : okFrame x s stamp f) : P.At (x.heard s e stamp f) := by
  obtain ⟨hinv, hnew⟩ := hP.heard (e := e) h.sound h.inv hle hf hok
  exact h.stepped hP (Log.le_frameHeard ..) (sound_frame (h.sound s) e f) (frame_ctrl e _ f)
    hinv hnew

/-- The states of the ends matter only up to what `Alike` compares. -/
theorem At.alike (hP : P.Kept okCall okFrame) {x : Ends} {s : Side} {c' : Conn} (h : P.At x)
    (ha : (x.conn s).Alike c') (hc : c'.ctrlBuf = (x.conn s).ctrlBuf) :
    P.At ⟨Function.update x.conn s c', x.log⟩ := by
  have hall : ∀ t, (x.conn t).Alike (Function.update x.conn s c' t) := by
    intro t
    by_cases ht : t = s
    · subst ht
      rw [Function.update_self]
      exact ha
    · rw [Function.update_of_ne ht]
      exact .refl _
  refine ⟨fun t => ?_, hP.alike h.inv rfl hall, fun t => ?_⟩
  · exact (h.sound t).congr (hall t).server (hall t).cfg (hall t).channels
  · by_cases ht : t = s
    · subst ht
      simp only [Function.update_self, hc]
      exact h.queue t
    · simp only [Function.update_of_ne ht]
      exact h.queue t

/-- **The frames of a datagram are processed.** -/
theorem At.hears (hP : P.Kept okCall okFrame) {s : Side} {env : Env} : ∀ (fs : List Frame) (x : Ends)
    (stamp : Log), P.At x → P.Carries s.other stamp fs → (stamp.advance s.other fs).Le x.log →
    Along (hearFrame s env) (fun x f => okFrame x.1 s (x.2.frameSent s.other f) f) (x, stamp) fs →
    P.At (run (hearFrame s env) (x, stamp) fs).1 ∧
      x.log.Le (run (hearFrame s env) (x, stamp) fs).1.log
  | [], x, _, h, _, _, _ => ⟨h, .refl _⟩
  | f :: fs, x, stamp, h, hc, hle, hok => by
    have hf : (stamp.frameSent s.other f).Le x.log := (Log.le_advance s.other fs _).trans hle
    have h1 := h.heard hP (e := env) hf hc.1 hok.1
    obtain ⟨h2, hle2⟩ := At.hears hP fs (x.heard s env (stamp.frameSent s.other f) f)
      (stamp.frameSent s.other f) h1 hc.2 (hle.trans (Log.le_frameHeard ..)) hok.2
    exact ⟨h2, (Log.le_frameHeard ..).trans hle2⟩

theorem hears_conn (s : Side) (env : Env) : ∀ (fs : List Frame) (x : Ends) (stamp : Log),
    (run (hearFrame s env) (x, stamp) fs).1.conn =
      Function.update x.conn s (run (stepFrame env) (x.conn s) fs)
  | [], x, _ => by simp
  | f :: fs, x, stamp => by
    rw [run_cons, run_cons, hearFrame, hears_conn s env fs]
    simp [Ends.heard]

theorem fedConn_alike (env : Env) (c : Conn) (pkt : List UInt8) (source : Option Addr) :
    c.Alike (fedConn env c pkt source) ∧ (fedConn env c pkt source).ctrlBuf = c.ctrlBuf := by
  unfold fedConn updatePeer
  dsimp only
  repeat' split
  all_goals exact ⟨⟨rfl, rfl, rfl, rfl, rfl, rfl, rfl, rfl, rfl⟩, rfl⟩

theorem parsed_packet {c : Conn} {pkt hdr : List UInt8} {fs : List Frame} (env : Env)
    (source : Option Addr) (hp : pkt = hdr ++ encodeAll fs)
    (hh : hdr.length = hdrSize (byte pkt 0)) (hf : ∀ f ∈ fs, f.Fits ∧ f.AcceptedBy c.server) :
    parsed env (pkt.drop (hdrSize (byte pkt 0))).length (fedConn env c pkt source)
      (pkt.drop (hdrSize (byte pkt 0))) = fs := by
  have hbody : pkt.drop (hdrSize (byte pkt 0)) = encodeAll fs := by
    rw [← hh, hp, List.drop_left]
  rw [hbody]
  refine parsed_encode env fs _ _ (fun f hm => ?_) (Nat.le_refl _)
  rw [(fedConn_alike env c pkt source).1.server]
  exact hf f hm

/-- **A `netchan_feed` of whole frames** processes them one by one. -/
theorem feed_packet {c : Conn} {pkt hdr : List UInt8} {fs : List Frame} (env : Env)
    (source : Option Addr) (hok : headerOk c pkt = true) (hp : pkt = hdr ++ encodeAll fs)
    (hh : hdr.length = hdrSize (byte pkt 0)) (hf : ∀ f ∈ fs, f.Fits ∧ f.AcceptedBy c.server) :
    (netchanFeed env c pkt source).2 = run (stepFrame env) (fedConn env c pkt source) fs := by
  rw [netchanFeed, if_pos hok, parseFrames_run, parsed_packet env source hp hh hf]

theorem framesOf_encode : ∀ (fs : List Frame) (fuel : Nat), (∀ f ∈ fs, f.Fits) →
    (encodeAll fs).length ≤ fuel → framesOf fuel (encodeAll fs) = fs
  | [], fuel, _, _ => by cases fuel <;> rfl
  | f :: fs, fuel, hf, hl => by
    obtain ⟨b, p, hfb, hb⟩ := encode_cons f
    have hd := decodeFrame_encode (hf f (.head _)) (encodeAll fs)
    rw [encodeAll_cons] at hl ⊢
    rw [hfb, List.cons_append] at hd hl ⊢
    cases fuel with
    | zero => simp at hl
    | succ fuel =>
      simp only [List.length_cons, List.length_append] at hl
      simp only [framesOf, hb, ↓reduceIte, hd]
      rw [← List.cons_append, List.drop_left]
      exact congrArg _ (framesOf_encode fs fuel (fun g hg => hf g (.tail _ hg)) (by omega))

theorem packetFrames_encode {hdr : List UInt8} {fs : List Frame} {pkt : List UInt8}
    (hp : pkt = hdr ++ encodeAll fs) (hh : hdr.length = hdrSize (byte pkt 0))
    (hf : ∀ f ∈ fs, f.Fits) : packetFrames pkt = fs := by
  simp only [packetFrames]
  rw [← hh, hp, List.drop_left]
  exact framesOf_encode fs _ hf (Nat.le_refl _)

/-- **What a datagram on its way does when it arrives**: nothing, or its frames are processed one by
one. -/
theorem receive_cases {w : World} {s : Side} {pkt : Packet} (env : Env) (source : Option Addr)
    (hs : Netchan.Sound s.isServer (w.conn s)) (hpkt : P.OnWay s w.log pkt) :
    w.receive s pkt env source = w ∨
    headerOk (w.conn s) pkt.bytes = true ∧ ∃ fs, packetFrames pkt.bytes = fs ∧
      (framesFed w.toEnds s pkt env source).2 = fs ∧ P.Carries s.other pkt.stamp fs ∧
      (pkt.stamp.advance s.other fs).Le w.log ∧
      (w.receive s pkt env source).toEnds =
        (run (hearFrame s env) ((framesFed w.toEnds s pkt env source).1, pkt.stamp) fs).1 := by
  obtain ⟨hdr, fs, hbytes, hhdr, hfit, hcar, hle⟩ := hpkt
  have hframes := packetFrames_encode hbytes hhdr fun f hf => (hfit f hf).1
  rw [← hs.server] at hfit
  by_cases hh : headerOk (w.conn s) pkt.bytes = true
  · have hparsed : (framesFed w.toEnds s pkt env source).2 = fs :=
      parsed_packet env source hbytes hhdr hfit
    refine .inr ⟨hh, fs, hframes, hparsed, hcar, hle, ?_⟩
    have hconn := hears_conn s env fs (framesFed w.toEnds s pkt env source).1 pkt.stamp
    have hfeed := feed_packet env source hh hbytes hhdr hfit
    simp only [World.receive, if_pos hh, hparsed, hfeed]
    generalize run (hearFrame s env) ((framesFed w.toEnds s pkt env source).1, pkt.stamp) fs = r
      at hconn
    simp only [framesFed, Function.update_self, Function.update_idem] at hconn
    rw [← hconn]
  · refine .inl ?_
    simp only [World.receive, if_neg hh, netchanFeed, Function.update_eq_self]

/-- **A datagram is delivered.** -/
theorem Holds.receive (hP : P.Kept okCall okFrame) {w : World} {s : Side} {pkt : Packet} {env : Env}
    {source : Option Addr} (h : P.Holds w) (hpkt : P.OnWay s w.log pkt)
    (hok : headerOk (w.conn s) pkt.bytes = true →
      Along (hearFrame s env) (fun x f => okFrame x.1 s (x.2.frameSent s.other f) f)
        ((framesFed w.toEnds s pkt env source).1, pkt.stamp)
        (framesFed w.toEnds s pkt env source).2) :
    P.Holds (w.receive s pkt env source) := by
  rcases receive_cases env source (h.ends.sound s) hpkt with
    hw | ⟨hh, fs, -, hparsed, hcar, hle, hends⟩
  · rw [hw]
    exact h
  · obtain ⟨halike, hctrl⟩ := fedConn_alike env (w.conn s) pkt.bytes source
    have hx0 : P.At (framesFed w.toEnds s pkt env source).1 := h.ends.alike hP halike hctrl
    rw [hparsed] at hok
    obtain ⟨h1, hle1⟩ := At.hears hP fs _ pkt.stamp hx0 hcar hle (hok hh)
    have hlog : w.log.Le (w.receive s pkt env source).log := by
      show w.log.Le (w.receive s pkt env source).toEnds.log
      rw [hends]
      exact hle1
    exact ⟨hends ▸ h1, fun t p hp => (h.net t p hp).grow hlog⟩

/-! ## A datagram is sent -/

theorem flushes (hP : P.Kept okCall okFrame) {s : Side} : ∀ (fs : List Frame) (x : Ends), P.inv x →
    (∀ f ∈ fs, P.queued s x.log f) →
      P.inv ⟨x.conn, x.log.advance s fs⟩ ∧ P.Carries s x.log fs
  | [], _, h, _ => ⟨h, trivial⟩
  | f :: fs, x, h, hf => by
    obtain ⟨h1, hc⟩ := hP.flushed h (hf f (.head _))
    have hx : x.sent s (x.conn s) f = ⟨x.conn, x.log.frameSent s f⟩ := by
      simp only [Ends.sent, Function.update_eq_self]
    rw [hx] at h1
    obtain ⟨h2, hcs⟩ := flushes hP fs ⟨x.conn, x.log.frameSent s f⟩ h1
      fun g hg => hP.grow (Log.le_frameSent ..) (hf g (.tail _ hg))
    exact ⟨h2, hc, hcs⟩

theorem emits (hP : P.Kept okCall okFrame) {s : Side} {now : UInt32} {c c' : Conn} {fs : List Frame}
    (he : Emits now c fs c') : ∀ (x : Ends), x.conn s = c → x.Sound → P.inv x →
      Ends.Sound ⟨Function.update x.conn s c', x.log.advance s fs⟩ ∧
      P.inv ⟨Function.update x.conn s c', x.log.advance s fs⟩ ∧ P.Carries s x.log fs := by
  induction he with
  | nil c =>
    rintro x rfl hs h
    have hx : (⟨Function.update x.conn s (x.conn s), x.log.advance s []⟩ : Ends) = x := by
      simp only [Function.update_eq_self]
      rfl
    rw [hx]
    exact ⟨hs, h, trivial⟩
  | @cons c c1 c2 f fs h1 _ ih =>
    rintro x rfl hs h
    obtain ⟨hinv, hcar⟩ := hP.emitted hs h h1
    obtain ⟨hs2, hinv2, hcar2⟩ := ih (x.sent s c1 f) (by simp [Ends.sent]) (hs.sent h1) hinv
    simp only [Ends.sent, Function.update_idem] at hs2 hinv2
    exact ⟨hs2, hinv2, hcar, hcar2⟩

theorem byte_headerOf (c : Conn) (p : List UInt8) :
    (headerOf c).length = hdrSize (byte (headerOf c ++ p) 0) := by
  unfold headerOf sendHeader
  split
  · show 5 = hdrSize ncPktFlagInit
    decide
  · show 7 = hdrSize ncPktFlagPktnum
    decide

/-- Sent whole, the control queue is emptied. -/
theorem ctrlSent_whole {c : Conn} {buflen : Nat} (h : Whole c buflen)
    (hb : ¬ buflen < sendHdrSize c) : ctrlSent c buflen = c.ctrlBuf.length := by
  have h := h.resolve_left hb
  have hroom : sendRoom c buflen < 2 ^ 64 :=
    Nat.lt_of_le_of_lt (Nat.min_le_left _ _) (Nat.lt_trans c.cfg.mtu.toNat_lt (by decide))
  unfold ctrlSent sizeSub
  have hmod : (sendRoom c buflen + 2 ^ 64 - sendHdrSize c) % 2 ^ 64 =
      sendRoom c buflen - sendHdrSize c := by
    omega
  rw [hmod]
  omega

/-- Frames are sent one after the other, each of them whole. -/
theorem emits_sound {server : Bool} {now : UInt32} {c c' : Conn} {fs : List Frame}
    (he : Emits now c fs c') : Netchan.Sound server c →
      Netchan.Sound server c' ∧ ∀ f ∈ fs, f.Fits ∧ ∀ b, f.AcceptedBy b := by
  induction he with
  | nil c => exact fun hs => ⟨hs, by simp⟩
  | cons h1 _ ih =>
    intro hs
    obtain ⟨hs', hfs⟩ := ih (sound_emit hs h1)
    refine ⟨hs', fun g hg => ?_⟩
    rcases List.mem_cons.1 hg with rfl | hg
    · exact emit_fits hs h1
    · exact hfs g hg

/-- **What `netchan_send_next` does to the world**: nothing, or it sends the whole control queue and
then frame by frame. -/
theorem transmit_cases {w : World} {s : Side} (env : Env) {buflen : Nat}
    (hs : Netchan.Sound s.isServer (w.conn s)) (hq : P.Queue s w.log (w.conn s).ctrlBuf)
    (hw : Whole (w.conn s) buflen) :
    w.transmit s env buflen = w ∨
    ∃ qs fs c', (∀ f ∈ qs, P.queued s w.log f) ∧
      (ctrlFlushed (w.conn s) buflen).ctrlBuf = [] ∧
      Emits env.now (ctrlFlushed (w.conn s) buflen) fs c' ∧
      (∀ f ∈ qs ++ fs, f.Fits ∧ f.AcceptedBy s.other.isServer) ∧
      packetFrames (headerOf (w.conn s) ++ encodeAll (qs ++ fs)) = qs ++ fs ∧
      w.transmit s env buflen =
        { conn := Function.update w.conn s
            { c' with lastSendMs := env.now, pktsSent := (w.conn s).pktsSent + 1 }
          net := Function.update w.net s.other (w.net s.other ++
            [⟨headerOf (w.conn s) ++ encodeAll (qs ++ fs), w.log⟩])
          log := (w.log.advance s (qs ++ fs)).transmitted s (w.conn s)
            { c' with lastSendMs := env.now, pktsSent := (w.conn s).pktsSent + 1 } } := by
  rcases netchanSendNext_cases env (w.conn s) buflen with he | ⟨hb, fs, c', hem, he⟩
  · refine .inl ?_
    simp only [World.transmit, he, Function.update_eq_self]
  · obtain ⟨qs, hqs, hq⟩ := hq
    have hsent := ctrlSent_whole hw hb
    have hflushed : Netchan.Sound s.isServer (ctrlFlushed (w.conn s) buflen) :=
      hs.congr rfl rfl rfl
    obtain ⟨-, hfit⟩ := emits_sound hem hflushed
    have hbytes : headerOf (w.conn s) ++ (w.conn s).ctrlBuf.take (ctrlSent (w.conn s) buflen) ++
        encodeAll fs = headerOf (w.conn s) ++ encodeAll (qs ++ fs) := by
      rw [hsent, List.take_length, hqs, List.append_assoc, ← encodeAll_append]
    have hall : ∀ f ∈ qs ++ fs, f.Fits ∧ f.AcceptedBy s.other.isServer := by
      intro f hf
      rcases List.mem_append.1 hf with hf | hf
      · exact (hq f hf).1
      · exact ⟨(hfit f hf).1, (hfit f hf).2 _⟩
    have hframes : packetFrames (headerOf (w.conn s) ++ encodeAll (qs ++ fs)) = qs ++ fs :=
      packetFrames_encode rfl (byte_headerOf _ _) fun f hf => (hall f hf).1
    refine .inr ⟨qs, fs, c', fun f hf => (hq f hf).2, by simp [ctrlFlushed, hsent], hem, hall,
      hframes, ?_⟩
    simp only [World.transmit, he, hbytes, hframes]
    rfl

/-- The states of the ends, one of which has changed only in what `Alike` does not compare. -/
theorem alike_update (conn : Side → Conn) {s : Side} {c c' : Conn} (h : c.Alike c') (t : Side) :
    (Function.update conn s c t).Alike (Function.update conn s c' t) := by
  by_cases ht : t = s
  · subst ht
    simpa only [Function.update_self] using h
  · simp only [Function.update_of_ne ht]
    exact .refl _

theorem Holds.transmit (hP : P.Kept okCall okFrame) {w : World} {s : Side} {env : Env} {buflen : Nat}
    (h : P.Holds w) (hw : Whole (w.conn s) buflen) : P.Holds (w.transmit s env buflen) := by
  rcases transmit_cases env (h.ends.sound s) (h.ends.queue s) hw with
    he | ⟨qs, fs, c', hq, hempty, hem, hfit, -, he⟩
  · rw [he]
    exact h
  · obtain ⟨h1, hc1⟩ := flushes hP qs w.toEnds h.ends.inv hq
    -- the queue is empty now, and the packet number moved on
    have halike : ∀ t, (w.conn t).Alike
        (Function.update w.conn s (ctrlFlushed (w.conn s) buflen) t) := by
      intro t
      have ha : (w.conn s).Alike (ctrlFlushed (w.conn s) buflen) :=
        ⟨rfl, rfl, rfl, rfl, rfl, rfl, rfl, rfl, rfl⟩
      have hu := alike_update w.conn (s := s) ha t
      rwa [Function.update_eq_self] at hu
    have h2 : P.inv ⟨Function.update w.conn s (ctrlFlushed (w.conn s) buflen),
        w.log.advance s qs⟩ := hP.alike h1 rfl halike
    have hs2 : Ends.Sound ⟨Function.update w.conn s (ctrlFlushed (w.conn s) buflen),
        w.log.advance s qs⟩ := fun t =>
      (h.ends.sound t).congr (halike t).server (halike t).cfg (halike t).channels
    obtain ⟨hs3, h3, hc3⟩ := emits hP (s := s) hem _ (Function.update_self ..) hs2 h2
    simp only [Function.update_idem] at hs3 h3
    have hsent : c'.Alike { c' with lastSendMs := env.now, pktsSent := (w.conn s).pktsSent + 1 } :=
      ⟨rfl, rfl, rfl, rfl, rfl, rfl, rfl, rfl, rfl⟩
    have halike' := alike_update w.conn (s := s) hsent
    have hlog : w.log.advance s (qs ++ fs) = (w.log.advance s qs).advance s fs :=
      Log.advance_append ..
    have hctrl : ({ c' with lastSendMs := env.now, pktsSent := (w.conn s).pktsSent + 1 } :
        Conn).ctrlBuf = [] := (emits_ctrl hem).trans hempty
    generalize { c' with lastSendMs := env.now, pktsSent := (w.conn s).pktsSent + 1 } = c''
      at he halike' hctrl
    have hle : (w.log.advance s (qs ++ fs)).Le
        ((w.log.advance s (qs ++ fs)).transmitted s (w.conn s) c'') := Log.le_transmitted ..
    have hle' := (Log.le_advance s (qs ++ fs) w.log).trans hle
    rw [he]
    refine ⟨⟨fun t => ?_, ?_, fun t => ?_⟩, fun t p hp => ?_⟩
    · exact (hs3 t).congr (halike' t).server (halike' t).cfg (halike' t).channels
    · rw [hlog]
      exact hP.transmitted (hP.alike (y := ⟨Function.update w.conn s c'', _⟩) h3 rfl halike')
    · by_cases ht : t = s
      · subst ht
        simp only [Function.update_self, hctrl]
        exact ⟨[], rfl, by simp⟩
      · simp only [Function.update_of_ne ht]
        exact (h.ends.queue t).grow hP hle'
    · by_cases ht : t = s.other
      · subst ht
        simp only [Function.update_self] at hp
        rcases List.mem_append.1 hp with hp | hp
        · exact (h.net _ p hp).grow hle'
        · rw [List.mem_singleton.1 hp]
          refine ⟨_, qs ++ fs, rfl, byte_headerOf _ _, hfit, ?_, ?_⟩
          · rw [Side.other_other]
            exact P.carries_append s _ _ _ hc1 hc3
          · rw [Side.other_other]
            exact hle
      · simp only [Function.update_of_ne ht] at hp
        exact (h.net t p hp).grow hle'

/-! ## Every step -/

/-- **A promise that is kept holds after every step** that meets its conditions. -/
theorem step (hP : P.Kept okCall okFrame) {w : World} {op : Op} (h : P.Holds w)
    (hop : op.Meets okCall okFrame w) : P.Holds (w.step op) := by
  cases op with
  | call s k =>
    exact ⟨h.ends.called hP hop, fun t p hp => (h.net t p hp).grow (Log.le_called ..)⟩
  | send s env buflen => exact h.transmit hP hop
  | deliver s i env source =>
    simp only [World.step]
    cases hi : (w.net s)[i]? with
    | none => exact h
    | some pkt =>
      have hmem : pkt ∈ w.net s := List.mem_of_getElem? hi
      have h' : P.Holds { w with net := Function.update w.net s ((w.net s).eraseIdx i) } := by
        refine ⟨h.ends, fun t p hp => ?_⟩
        by_cases ht : t = s
        · subst ht
          simp only [Function.update_self] at hp
          exact h.net t p (List.mem_of_mem_eraseIdx hp)
        · simp only [Function.update_of_ne ht] at hp
          exact h.net t p hp
      exact h'.receive hP (h.net s pkt hmem) (hop pkt hi)
  | dup s i =>
    simp only [World.step]
    cases hi : (w.net s)[i]? with
    | none => exact h
    | some pkt =>
      refine ⟨h.ends, fun t p hp => ?_⟩
      by_cases ht : t = s
      · subst ht
        simp only [Function.update_self] at hp
        rcases List.mem_append.1 hp with hp | hp
        · exact h.net t p hp
        · rw [List.mem_singleton.1 hp]
          exact h.net t pkt (List.mem_of_getElem? hi)
      · simp only [Function.update_of_ne ht] at hp
        exact h.net t p hp
  | drop s i =>
    refine ⟨h.ends, fun t p hp => ?_⟩
    by_cases ht : t = s
    · subst ht
      simp only [World.step, Function.update_self] at hp
      exact h.net t p (List.mem_of_mem_eraseIdx hp)
    · simp only [World.step, Function.update_of_ne ht] at hp
      exact h.net t p hp

theorem meets_of_whole {w : World} {op : Op} (h : op.SendsWhole w)
    (hc : ∀ x s k, okCall x s k) (hf : ∀ x s l f, okFrame x s l f) :
    op.Meets okCall okFrame w := by
  cases op with
  | call s k => exact hc _ _ _
  | send s env buflen => exact h
  | deliver s i env source =>
    intro pkt _ _
    exact (along_true _).mono fun x f _ => hf _ _ _ _
  | _ => trivial

theorem init (cfg : Side → Cfg) (hinv : P.inv (World.init cfg).toEnds) : P.Holds (World.init cfg) := by
  refine ⟨⟨fun s => ⟨rfl, ?_, ?_⟩, hinv, fun s => ⟨[], rfl, by simp⟩⟩, ?_⟩
  · rintro id ch ⟨⟩
  · rintro id ch ⟨⟩
  · rintro s pkt ⟨⟩

end Promise

/-! ## The log of the world -/

theorem hears_le (s : Side) (env : Env) : ∀ (fs : List Frame) (x : Ends × Log),
    x.1.log.Le (run (hearFrame s env) x fs).1.log
  | [], _ => .refl _
  | f :: fs, x => (Log.le_frameHeard ..).trans (hears_le s env fs (hearFrame s env x f))

theorem World.le_step (w : World) (op : Op) : w.log.Le (w.step op).log := by
  cases op with
  | call s k => exact Log.le_called ..
  | send s env buflen =>
    simp only [World.step, World.transmit]
    split
    · exact .refl _
    · exact (Log.le_advance s _ w.log).trans (Log.le_transmitted ..)
  | deliver s i env source =>
    simp only [World.step]
    split
    · exact .refl _
    · simp only [World.receive]
      split
      · exact hears_le s env _ ((framesFed w.toEnds s _ env source).1, _)
      · exact .refl _
  | dup s i =>
    simp only [World.step]
    split <;> exact .refl _
  | drop s i => exact .refl _

theorem World.le_run (w : World) (ops : List Op) : w.log.Le (Lib.run World.step w ops).log :=
  run_invariant (I := fun w' : World => w.log.Le w'.log) (A := fun _ _ => True)
    (fun w' op h _ => h.trans (w'.le_step op)) (.refl _) (along_true ops)

end Netchan
