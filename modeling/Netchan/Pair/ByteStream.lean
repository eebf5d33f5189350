import Netchan.Pair.Tape

/-!
# A STREAM channel is a byte stream

`InStream` joins the two halves of a STREAM channel with the frames on their way between them: the
positions of the fragments climb from what was received to what was sent, and the acknowledgements from
what was freed to what was passed. Every step over a network that keeps the order keeps it
(`streamLine_kept`), as long as no read cuts a message, so what is read is a prefix of what was written
(`stream_bytes`). `short_read_skips`: a read with a small buffer loses the rest of the message.
-/

namespace Netchan

open Lib

/-! ## The two ends -/

/-- A channel from `c` to `d` and the frames on their way: `there` to `d` and `back` to `c`. -/
structure InStream (id : ChanId) (c d : Conn) (ms : List (List UInt8)) (there back : List Frame)
    (tape : List UInt8) (acked passed q r : Nat) : Prop where
  sends : SendHalf c id ms acked r
  hears : RecvHalf d id (maxFragPayload c) ms passed q tape
  data : Climb (fun a f m => f.Advances id (maxFragPayload c) ms a m) q there r
  acks : Climb (fun a f m => f.Acks id a m) acked back passed

/-- A STREAM channel from end `s` to the other one. -/
def streamLine (s : Side) (id : ChanId) : Line (List UInt8) where
  inv x F tape := ∃ acked passed q r, InStream id (x.conn s) (x.conn s.other) (x.log.written s id)
    (F s.other) (F s) tape acked passed q r
  note tape x t k := tape ++ if t = s.other then k.taken (x.conn t) id else []

section
variable (lab : Side → ChanId → Option Label) (calls : Side → Call → Prop)

/-- The ends of the channels agree, and the frames that wait are neither data nor
acknowledgements. -/
def Streaming : Promise where
  inv := ChansOk lab calls
  queued s log f := f.Announces lab calls s log ∧
    match f with
    | .data _ _ _ _ _ | .ack _ _ => False
    | _ => True
  carried := Frame.Announces lab calls

/-- By the labels, the channel is a STREAM channel from end `s` to the other one. -/
def StreamFrom (s : Side) (id : ChanId) : Prop :=
  ∃ l : Label, l.type = .stream ∧ l.role = .sender ∧
    (s.Owns id ∧ lab s id = some l ∨ s.other.Owns id ∧ lab s.other id = some l.flip)

variable {lab calls} {x : Ends} {s : Side} {id : ChanId}

theorem streaming_kept {okFrame : Ends → Side → Log → Frame → Prop} :
    (Streaming lab calls).Kept (Foreseen lab calls) okFrame where
  grow hl h := ⟨h.1.mono hl, h.2⟩
  alike := announces_kept.alike
  called := by
    intro x s k hs h hok
    obtain ⟨h1, h2⟩ := announces_called h hok
    exact ⟨h1, fun f hq => ⟨h2 f hq, by cases hq <;> trivial⟩⟩
  heard := by
    intro x s env stamp f hs h hle hf _
    exact ⟨announces_heard h hle hf, fun g hq => by cases hq <;> exact ⟨trivial, trivial⟩⟩
  flushed h hq := ⟨announces_sent h rfl fun _ => rfl, hq.1.mono (Log.le_frameSent ..)⟩
  emitted := announces_kept.emitted
  transmitted := announces_kept.transmitted

theorem StreamFrom.kinds (h : StreamFrom lab s id) (hx : ChansOk lab calls x) :
    (∀ ch, (x.conn s).channels id = some ch → ch.type = .stream) ∧
      ∀ ch, (x.conn s.other).channels id = some ch → ch.role = .receiver ∧ ch.type = .stream := by
  obtain ⟨hs, ho⟩ := ChanFrom.kinds h hx
  exact ⟨fun ch hc => (hs ch hc).2, ho⟩

/-- A call writes nothing too long to the channel, and a read of it takes the oldest message whole. -/
def StreamCall (s : Side) (id : ChanId) (x : Ends) (t : Side) (k : Call) : Prop :=
  if t = s then k.Cuts (x.conn t) id else k.TakesWhole (x.conn t) id

/-- A DATA frame on the channel finds room, and none overflows a buffer. -/
def StreamFrame (id : ChanId) (x : Ends) (t : Side) (f : Frame) : Prop :=
  FramesFit (x.conn t) (.frame {} f) ∧ f.FindsRoom (x.conn t) id

theorem StreamFrame.fit {t : Side} {f : Frame} (h : StreamFrame id x t f) (env : Env) :
    FramesFit (x.conn t) (.frame env f) := by
  cases f <;> exact h.1

namespace InStream

variable {c c' d d' : Conn} {ms ms' : List (List UInt8)} {there back : List Frame} {tape tape' : List UInt8}
  {acked passed q r : Nat} {f : Frame}

theorem near (h : InStream id c d ms there back tape acked passed q r) :
    ms.length ≤ passed + ncOutgoingSlots := by
  have h1 := h.sends.near
  have h2 := h.acks.le (acks_climbing id)
  omega

theorem called (h : InStream id c d ms there back tape acked passed q r)
    (hs : SendHalf c' id ms' acked r) (hcfg : c'.cfg = c.cfg) (hm : ms <+: ms') :
    InStream id c' d ms' there back tape acked passed q r := by
  have hfp : maxFragPayload c' = maxFragPayload c := maxFragPayload_congr hcfg
  refine ⟨hs, ?_, ?_, h.acks⟩
  · rw [hfp]
    exact h.hears.grow hm (Nat.le_refl q)
  · rw [hfp]
    exact h.data.mono fun _ _ _ hf => hf.grow hm

theorem acknowledged (h : InStream id c d ms there (f :: back) tape acked passed q r) {env : Env}
    (hfit : FramesFit c (.frame env f)) :
    ∃ acked', InStream id (stepFrame env c f) d ms there back tape acked' passed q r := by
  obtain ⟨m, hf, hacks⟩ := h.acks
  have hfp : maxFragPayload (stepFrame env c f) = maxFragPayload c :=
    maxFragPayload_congr (stepFrame_fixed env c f).2.1
  have hle := (acks_climbing id).le hf
  refine ⟨m, sendHalf_frame h.sends env hfit hle ?_, by rw [hfp]; exact h.hears,
    by rw [hfp]; exact h.data, hacks⟩
  rintro a rfl n hn hi
  rw [hf.2 rfl] at hi
  refine acked_passed ?_ hi
  have h1 := h.sends.near
  simp only [ncOutgoingSlots] at h1
  omega

theorem heard (h : InStream id c d ms (f :: there) back tape acked passed q r) {env : Env}
    (hkind : ∀ ch, d.channels id = some ch → ch.role = .receiver ∧ ch.type = .stream)
    (hfit : FramesFit d (.frame env f)) (hroom : f.FindsRoom d id) :
    ∃ passed' q', InStream id c (stepFrame env d f) ms there back tape acked passed' q' r := by
  obtain ⟨m, hf, hdata⟩ := h.data
  obtain ⟨passed', hle, hd⟩ := recvHalf_frame h.hears hkind h.near env hfit hroom hf
  exact ⟨passed', m, h.sends, hd, hdata, h.acks.weaken hle⟩

theorem emitted (h : InStream id c d ms there back tape acked passed q r)
    (hkind : ∀ ch, c.channels id = some ch → ch.type = .stream)
    (hids : ∀ j ch, c.channels j = some ch → ch.id = j) {now : UInt32} (he : Emit now c f c') :
    ∃ r', InStream id c' d ms (there ++ [f]) back tape acked passed q r' := by
  obtain ⟨r', hf, hs⟩ := sendHalf_emit h.sends hkind hids he
  have hfp : maxFragPayload c' = maxFragPayload c := maxFragPayload_congr (emit_cfg he).1
  refine ⟨r', hs, by rw [hfp]; exact h.hears, ?_, h.acks⟩
  rw [hfp]
  exact h.data.push hf (advances_climbing ..)

theorem answered (h : InStream id c d ms there back tape acked passed q r)
    (hids : ∀ j ch, d.channels j = some ch → ch.id = j) {now : UInt32} (he : Emit now d f d') :
    InStream id c d' ms there (back ++ [f]) tape acked passed q r := by
  obtain ⟨hf, hd⟩ := recvHalf_emit h.hears hids he
  exact ⟨h.sends, hd, h.data, h.acks.push hf (acks_climbing id)⟩

end InStream

theorem written_heard (l : Log) (t : Side) (stamp : Log) (d d' : Conn) (f : Frame) :
    (l.frameHeard t stamp d d' f).written = l.written := (Log.frameHeard_messages l t stamp d d' f).1

/-- **The channel stays in stream** with every call, every frame and every datagram that is sent. -/
theorem streamLine_kept (hlab : StreamFrom lab s id) :
    (streamLine s id).Kept (Streaming lab calls) (StreamCall s id) (StreamFrame id) where
  alike := by
    rintro x y F tape ⟨acked, passed, q, r, h⟩ hl ha
    refine ⟨acked, passed, q, r, ?_⟩
    have hfp := maxFragPayload_congr (ha s).cfg
    rw [hl]
    exact ⟨h.sends.alike (ha s), by rw [hfp]; exact h.hears.alike (ha s.other),
      by rw [hfp]; exact h.data, h.acks⟩
  called := by
    rintro x F tape t k hx ⟨acked, passed, q, r, h⟩ hok
    obtain ⟨hkind, hkind'⟩ := hlab.kinds hx
    refine ⟨acked, passed, q, r, ?_⟩
    simp only [streamLine, Ends.called]
    rcases Side.eq_or_eq_other s t with rfl | rfl
    · obtain ⟨-, -, hwrite, -⟩ := Log.called_messages x.log t (x.conn t) k
      have hs : SendHalf (k.apply (x.conn t)) id
          ((x.log.called t (x.conn t) k).written t id) acked r := by
        refine sendHalf_call h.sends hkind ?_ (fun data he ha => ?_) fun hn =>
          Log.called_written _ _ _ _ _ _ fun _ => hn
        · simpa [StreamCall] using hok
        · rw [hwrite id data he ha, onChan_same]
      rw [if_neg t.other_ne.symm, List.append_nil]
      simpa [Function.update_of_ne t.other_ne] using
        h.called hs (call_cfg (x.conn t) k).1 ((Log.le_called ..).written t id)
    · have hd := recvHalf_call h.hears (fun ch hc => (hkind' ch hc).1) (k := k)
        (by simpa [StreamCall, s.other_ne] using hok)
      rw [if_pos rfl, Log.called_written _ _ _ _ _ _ fun he => absurd he s.other_ne.symm]
      simpa [Function.update_of_ne s.other_ne.symm] using
        (⟨h.sends, hd, h.data, h.acks⟩ : InStream id (x.conn s) _ _ _ _ _ _ _ _ _)
  heard := by
    rintro x F tape t e stamp f fs hx ⟨acked, passed, q, r, h⟩ hF hok
    obtain ⟨-, hkind⟩ := hlab.kinds hx
    simp only [streamLine, Ends.heard, written_heard]
    rcases Side.eq_or_eq_other s t with rfl | rfl
    · rw [hF] at h
      obtain ⟨acked', h'⟩ := h.acknowledged (hok.fit e)
      exact ⟨acked', passed, q, r, by simpa [Function.update_of_ne t.other_ne] using h'⟩
    · rw [hF] at h
      obtain ⟨passed', q', h'⟩ := h.heard hkind (hok.fit e) hok.2
      exact ⟨acked, passed', q', r, by simpa [Function.update_of_ne s.other_ne.symm] using h'⟩
  lost := by
    rintro x F tape t fs ⟨acked, passed, q, r, h⟩ hsub
    refine ⟨acked, passed, q, r, h.sends, h.hears, ?_, ?_⟩
    · rcases Side.eq_or_eq_other s t with rfl | rfl
      · rw [Function.update_of_ne t.other_ne]
        exact h.data
      · rw [Function.update_self]
        exact h.data.sublist (advances_climbing ..) hsub
    · rcases Side.eq_or_eq_other s t with rfl | rfl
      · rw [Function.update_self]
        exact h.acks.sublist (acks_climbing id) hsub
      · rw [Function.update_of_ne s.other_ne.symm]
        exact h.acks
  flushed := by
    rintro x F tape t f ⟨acked, passed, q, r, h⟩ ⟨-, hq⟩
    refine ⟨acked, passed, q, r, ?_⟩
    simp only [Ends.sent, Function.update_eq_self, (Log.frameSent_messages x.log t f).1]
    refine ⟨h.sends, h.hears, ?_, ?_⟩
    · rcases Side.eq_or_eq_other s t with rfl | rfl
      · rw [Function.update_self]
        refine h.data.push ((advances_other ?_).2 (Nat.le_refl r)) (advances_climbing ..)
        rintro seq idx total payload rfl
        exact hq
      · rw [Side.other_other, Function.update_of_ne s.other_ne]
        exact h.data
    · rcases Side.eq_or_eq_other s t with rfl | rfl
      · rw [Function.update_of_ne t.other_ne.symm]
        exact h.acks
      · rw [Side.other_other, Function.update_self]
        refine h.acks.push ((acks_other ?_).2 (Nat.le_refl passed)) (acks_climbing id)
        rintro a rfl
        exact hq
  emitted := by
    rintro x F tape t now f c' hs hx ⟨acked, passed, q, r, h⟩ he
    obtain ⟨hkind, -⟩ := hlab.kinds hx
    simp only [streamLine, Ends.sent, (Log.frameSent_messages x.log t f).1]
    rcases Side.eq_or_eq_other s t with rfl | rfl
    · obtain ⟨r', h'⟩ := h.emitted hkind (hs t).ids he
      exact ⟨acked, passed, q, r', by
        simpa [Function.update_of_ne t.other_ne, Function.update_of_ne t.other_ne.symm] using h'⟩
    · have h' := h.answered (hs s.other).ids he
      exact ⟨acked, passed, q, r, by
        simpa [Function.update_of_ne s.other_ne, Function.update_of_ne s.other_ne.symm] using h'⟩
  transmitted h := h

end

/-! ## Runs -/

instance (s : Side) (id : ChanId) (x : Ends) (t : Side) (k : Call) :
    Decidable (StreamCall s id x t k) := inferInstanceAs (Decidable (ite ..))

instance (id : ChanId) (x : Ends) (t : Side) (f : Frame) : Decidable (StreamFrame id x t f) :=
  inferInstanceAs (Decidable (_ ∧ _))

/-- The network keeps the order, control frames are sent whole, and calls and frames are as
`StreamCall` and `StreamFrame` say. -/
def Op.Streams (s : Side) (id : ChanId) (w : World) (op : Op) : Prop :=
  op.Declares ∧ op.Fifo ∧ op.Meets (StreamCall s id) (fun x t _ f => StreamFrame id x t f) w

instance (s : Side) (id : ChanId) (w : World) (op : Op) : Decidable (op.Streams s id w) :=
  inferInstanceAs (Decidable (_ ∧ _))

/-- The bytes that end `t` takes from the channel in a step. -/
def Op.taken (t : Side) (id : ChanId) (w : World) : Op → List UInt8
  | .call s k => if s = t then k.taken (w.conn s) id else []
  | _ => []

/-- The bytes that end `t` reads on the channel in a run, one read after the other. -/
def World.tape (t : Side) (id : ChanId) : World → List Op → List UInt8
  | _, [] => []
  | w, op :: ops => op.taken t id w ++ tape t id (w.step op) ops

theorem tape_concat (t : Side) (id : ChanId) (op : Op) : ∀ (ops : List Op) (w : World),
    w.tape t id (ops ++ [op]) = w.tape t id ops ++ op.taken t id (Lib.run World.step w ops)
  | [], w => by simp [World.tape]
  | o :: ops, w => by
    rw [List.cons_append, World.tape, World.tape, tape_concat t id op ops, List.append_assoc]
    rfl

theorem streamLine_noted (s : Side) (id : ChanId) (tape : List UInt8) (w : World) (op : Op) :
    (streamLine s id).noted tape w op = tape ++ op.taken s.other id w := by
  cases op with
  | call t k => rfl
  | _ => exact (List.append_nil tape).symm

theorem inStream_init (cfg : Side → Cfg) (s : Side) (id : ChanId) :
    (streamLine s id).inv (World.init cfg).toEnds (World.init cfg).flight [] := by
  have hst (t : Side) : StoreOk ((World.init cfg).conn t) :=
    (store_congr (k := (World.init cfg).conn t) (S := ∅) (store_open t.isServer) rfl rfl).1
  refine ⟨0, 0, 0, 0, ⟨hst s, ?_, fun _ => rfl, Nat.zero_le _⟩,
    ⟨hst s.other, ?_, fun _ => rfl, Nat.le_refl 0, Nat.zero_le _, rfl⟩, Nat.le_refl 0, Nat.le_refl 0⟩
  · rintro ch ⟨⟩
  · rintro ch ⟨⟩

/-- **A STREAM channel is a byte stream** in every run over a network that keeps the order in which no
read cuts a message and no message is cut into more fragments than the protocol has, or into longer
ones than the receiver takes: what was read is a prefix of what was written. -/
theorem stream_bytes (cfg : Side → Cfg) (s : Side) (id : ChanId) (ops : List Op)
    (h : Along World.step (fun w op => op.Streams s id w) (.init cfg) ops) {ch : Chan}
    (hc : ((World.run cfg ops).conn s).channels id = some ch) (hr : ch.role = .sender)
    (ht : ch.type = .stream) :
    (World.init cfg).tape s.other id ops <+: ((World.run cfg ops).log.written s id).flatten := by
  let lab := (World.run cfg ops).labels
  let calls : Side → Call → Prop := fun t k => Op.call t k ∈ ops
  have hmeets : Along World.step (fun w op =>
      op.Meets (Foreseen lab calls) (fun x t _ f => StreamFrame id x t f) w) (.init cfg) ops :=
    foreseen_run ops _ rfl (h.mono fun w op hop => ⟨hop.1, Op.Meets.anyCall hop.2.2⟩)
      fun _ _ hk => hk
  have hchans : ChansOk lab calls (World.run cfg ops).toEnds :=
    (run_invariant (fun _ _ hw hop => Promise.step streaming_kept hw hop)
      (Promise.init (P := Streaming lab calls) cfg (chansOk_init lab calls cfg)) hmeets).ends.inv
  have hlab : StreamFrom lab s id := by
    refine ⟨ch.label, ht, hr, ?_⟩
    exact (hchans.chans s id ch hc).imp (fun ho => ⟨ho.owns, ho.label⟩) fun ho => ⟨ho.owns, ho.label⟩
  have hrun := run_history (I := fun as w => (Streaming lab calls).Holds w ∧
      (streamLine s id).inv w.toEnds w.flight ((World.init cfg).tape s.other id as))
    ⟨Promise.init cfg (chansOk_init lab calls cfg), inStream_init cfg s id⟩
    (fun as op _ hw hop => ⟨Promise.step streaming_kept hw.1 hop.1, by
      rw [tape_concat, ← streamLine_noted]
      exact Line.step (streamLine_kept hlab) streaming_kept hw.1 hop.1 hop.2.2.2 hop.2.2.1 hw.2⟩)
    (hmeets.and h)
  obtain ⟨-, acked, passed, q, r, hin⟩ := hrun
  have hread : (World.init cfg).tape s.other id ops <+:
      (((World.run cfg ops).log.written s id).take passed).flatten := ⟨_, hin.hears.tape⟩
  exact hread.trans (List.take_prefix ..).flatten

/-- A datagram has room for 45 bytes of a message. -/
def narrow : Side → Cfg := fun _ => { netchanCfgDefault with mtu := 60 }

/-- A message in two fragments and one in a single fragment are delivered, and then read with buffers
of `n` and 8 bytes. -/
def streamOps (n : Nat) : List Op :=
  openOpsOf .stream ++ [.call .client (.write 0 (List.replicate 50 1)),
    .call .client (.write 0 [4, 5]), .send .client { now := 10 } 1200,
    .send .client { now := 11 } 1200, .send .client { now := 12 } 1200,
    .deliver .server 0 { now := 13 } (some [2]), .deliver .server 0 { now := 14 } (some [2]),
    .deliver .server 0 { now := 15 } (some [2]), .call .server (.read 0 n),
    .call .server (.read 0 8)]

theorem stream_bytes_narrow :
    (World.init narrow).tape .server 0 (streamOps 50) <+:
        ((World.run narrow (streamOps 50)).log.written .client 0).flatten ∧
      (World.init narrow).tape .server 0 (streamOps 50) = List.replicate 50 1 ++ [4, 5] := by
  have hall : ∀ ch ∈ ((World.run narrow (streamOps 50)).conn .client).channels 0,
      ch.role = .sender ∧ ch.type = .stream := by decide +kernel
  have hsome : (((World.run narrow (streamOps 50)).conn .client).channels 0).isSome := by
    decide +kernel
  obtain ⟨ch, hc⟩ := Option.isSome_iff_exists.1 hsome
  obtain ⟨hr, ht⟩ := hall ch hc
  have htape : (World.init narrow).tape .server 0 (streamOps 50) =
      List.replicate 50 1 ++ [4, 5] := by decide +kernel
  have hread := stream_bytes narrow .client 0 (streamOps 50) (by decide +kernel) hc hr ht
  exact ⟨hread, htape⟩

/-- **A read with a small buffer loses the rest of the message**: every datagram is delivered once and
in order and finds room, the first byte of fifty is read, and the next read starts at the next
message. -/
theorem short_read_skips :
    Along World.step (fun w op => op.Declares ∧ op.Fifo ∧
      op.Meets (fun _ _ _ => True) (fun x t _ f => StreamFrame 0 x t f) w) (.init narrow)
        (streamOps 1) ∧
    (((World.run narrow (streamOps 1)).conn .client).channels 0).isSome ∧
    (∀ ch ∈ ((World.run narrow (streamOps 1)).conn .client).channels 0,
      ch.role = .sender ∧ ch.type = .stream) ∧
    (World.init narrow).tape .server 0 (streamOps 1) = [1, 4, 5] ∧
    ((World.run narrow (streamOps 1)).log.written .client 0).flatten =
      List.replicate 50 1 ++ [4, 5] ∧
    ¬ (World.init narrow).tape .server 0 (streamOps 1) <+:
      ((World.run narrow (streamOps 1)).log.written .client 0).flatten := by
  decide +kernel

end Netchan
