import Netchan.Object.Held
import Netchan.Pair.Handshake

/-!
# What a connection puts on the wire

`Traffic` is a connection object together with the control frames its encoders queued and the
datagrams it sent. `packets_whole`: as long as `netchan_send_next` never cuts the control queue
inside a frame and reassembly stays in its buffers, every datagram is a header and whole frames,
which the peer's `parse_frames` accepts to the last byte, and the queued frames leave in order, each
once. `cut_packet_rejected`: with a small `cfg.mtu` it does cut the queue inside a frame, and the
peer rejects the datagram; `overwritten_rejected`: an overrun of reassembly overwrites the queue.
-/

namespace Netchan

open Lib

structure Traffic where
  /-- The object, with its queue in memory. -/
  conn : Conn
  /-- The control frames that found room in the queue, in order. -/
  queued : List Frame
  /-- The datagrams sent, in order. -/
  packets : List (List UInt8)

/-- The datagram a step returns, if it does. -/
def packetOf (L : Layout) (o : Conn) : Step → List (List UInt8)
  | .sendNext env buflen =>
    (((Object.netchanSendNext L env o buflen).bind Prod.snd).map Prod.fst).toList
  | _ => []

namespace Traffic

def step (L : Layout) (t : Option Traffic) (st : Step) : Option Traffic :=
  t.bind fun t => (Object.apply L t.conn st).map fun o =>
    { conn := o
      queued := t.queued ++ reserved (Object.loaded L t.conn).ctrlBuf (requested t.conn st)
      packets := t.packets ++ packetOf L t.conn st }

/-- An object fresh from `netchan_open`, and no traffic. -/
def fresh (server : Bool) : Traffic := ⟨netchanOpen server, [], []⟩

/-- The traffic of a run. -/
def run (L : Layout) (server : Bool) (sts : List Step) : Option Traffic :=
  Lib.run (step L) (some (fresh server)) sts

end Traffic

/-! ## What is to hold -/

/-- The frames `netchan_send_next` writes behind the control frames. -/
def Frame.Streamed : Frame → Prop
  | .data _ _ _ _ _ | .ack _ _ | .windowUpdate _ _ => True
  | _ => False

/-- The datagram `p` consists of a header, the control frames `cs` and frames of channels, and a
peer's `parse_frames` accepts all of it. -/
def WholePacket (server : Bool) (cs : List Frame) (p : List UInt8) : Prop :=
  ∃ hdr fs, p = hdr ++ encodeAll (cs ++ fs) ∧ hdr.length = hdrSize (byte p 0) ∧
    (∀ f ∈ fs, f.Streamed) ∧
    ∀ env peer, peer.server = !server →
      parseFrames env peer (p.drop hdr.length) = (.ok (), Lib.run (stepFrame env) peer (cs ++ fs))

/-- Every datagram is whole, and the frames queued are those sent, in order, and those still in
the queue. -/
def Traffic.Conforms (L : Layout) (server : Bool) (t : Traffic) : Prop :=
  ∃ sent rest, t.queued = sent.flatten ++ rest ∧
    (Object.loaded L t.conn).ctrlBuf = encodeAll rest ∧
    List.Forall₂ (WholePacket server) sent t.packets

/-! ## When it does -/

/-- The room behind the header holds the whole control queue, or it ends between two of its
frames. -/
def CutsBetween (c : Conn) (buflen : Nat) : Prop :=
  ∃ k < (queueFrames c).length + 1, (encodeAll ((queueFrames c).take k)).length = ctrlSent c buflen

instance (c : Conn) (buflen : Nat) : Decidable (CutsBetween c buflen) :=
  inferInstanceAs (Decidable (∃ k < _, _))

instance (fp : Nat) (o : Outgoing) : Decidable (o.Cut fp) :=
  decidable_of_iff (o.len ≠ 0 ∧ o.len ≤ ncMaxMsg ∧ o.fragTotal = fragTotalOf fp o.len ∧
      o.fragTotal ≤ ncMaxFrags ∧ o.fragSent ≤ o.fragTotal)
    ⟨fun ⟨h1, h2, h3, h4, h5⟩ => ⟨h1, h2, h3, h4, h5⟩,
      fun ⟨h1, h2, h3, h4, h5⟩ => ⟨h1, h2, h3, h4, h5⟩⟩

/-- The length of a fragment fits its field: fragments are short, or `netchan_config` did not change
`mtu` under the messages in the outgoing slots. -/
def FragsFit (c : Conn) : Prop :=
  maxFragPayload c < 2 ^ 16 ∨ ∀ id, ∀ ch ∈ c.channels id, ∀ k, (ch.snd.outgoing k).active = true →
    (ch.snd.outgoing k).Cut (maxFragPayload c)

instance (c : Conn) : Decidable (FragsFit c) := inferInstanceAs (Decidable (_ ∨ _))

/-- A step that splits no frame: `netchan_send_next` cuts the queue between two frames and no fragment
outgrows its length field, and the messages completed by reassembly fit in a buffer. -/
def Step.Unsplit (L : Layout) (o : Conn) (st : Step) : Prop :=
  FramesFit o st ∧
    match st with
    | .sendNext _ buflen => CutsBetween (Object.loaded L o) buflen ∧ FragsFit o
    | _ => True

instance (L : Layout) (o : Conn) (st : Step) : Decidable (st.Unsplit L o) :=
  match st with
  | .sendNext env buflen => inferInstanceAs (Decidable (FramesFit o (.sendNext env buflen) ∧
      CutsBetween (Object.loaded L o) buflen ∧ FragsFit o))
  | .config _ | .call _ | .header .. | .frame .. => inferInstanceAs (Decidable (_ ∧ True))

/-! ## The frames behind the control queue -/

/-- The numbers of a message in a slot are small, whatever happened to `mtu` since. -/
structure Outgoing.Short (o : Outgoing) : Prop where
  small : o.len ≤ ncMaxMsg
  few : o.fragTotal ≤ ncMaxFrags
  sent : o.fragSent ≤ o.fragTotal

theorem short_rule (fp : Nat) : SlotRule fp Outgoing.Short where
  written _ h2 h3 := ⟨h2, h3, Nat.zero_le _⟩
  requeued _ _ h := ⟨h.small, h.few, Nat.zero_le _⟩
  sent _ h hlt := ⟨h.small, h.few, hlt⟩

/-- What holds of the channels of every connection. -/
structure Kempt (c : Conn) : Prop where
  ids : ∀ id ch, c.channels id = some ch → ch.id = id
  short : SlotsHold Outgoing.Short c

section
variable {c c' : Conn} {now : UInt32} {f : Frame}

theorem kempt_emit (h : Kempt c) (he : Emit now c f c') : Kempt c' :=
  ⟨ids_emit h.ids he, slots_emit (short_rule _) h.short h.ids he⟩

theorem fragsFit_emit (h : Kempt c) (hf : FragsFit c) (he : Emit now c f c') : FragsFit c' := by
  have hfp := maxFragPayload_congr (emit_cfg he).1
  unfold FragsFit
  rw [hfp]
  refine hf.imp_right fun hcut => ?_
  exact slots_emit (cut_rule _) hcut h.ids he

theorem emit_streamed (h : Kempt c) (hf : FragsFit c) (he : Emit now c f c') :
    (f.Fits ∧ ∀ b, f.AcceptedBy b) ∧ f.Streamed := by
  cases he with
  | ack hc hn => exact ⟨⟨trivial, fun _ => trivial⟩, trivial⟩
  | window hc hn => exact ⟨⟨trivial, fun _ => trivial⟩, trivial⟩
  | @data id ch k hc hs =>
    obtain ⟨-, ha, hlt⟩ := chanNextSendable_spec (chanSendSlot_spec hs).2.2
    have hshort := h.short id ch hc k ha
    have hfew := hshort.few
    have hsmall := hshort.small
    simp only [ncMaxFrags, ncMaxMsg] at hfew hsmall
    have hlen : fragLen (maxFragPayload c) (ch.snd.outgoing k) < 2 ^ 16 := by
      rcases hf with hfp | hcut
      · unfold fragLen
        omega
      · rw [(hcut id ch hc k ha).fragLen hlt]
        omega
    refine ⟨⟨⟨by omega, by omega, ?_⟩, fun _ => trivial⟩, trivial⟩
    simpa only [Pool.read, Mem.length_read] using hlen

/-- **The frames that are sent after the control queue.** -/
theorem emits_streamed {fs : List Frame} (he : Emits now c fs c') (h : Kempt c) (hf : FragsFit c) :
    ∀ f ∈ fs, (f.Fits ∧ ∀ b, f.AcceptedBy b) ∧ f.Streamed := by
  induction he with
  | nil => simp
  | @cons c c1 c2 f fs h1 _ ih =>
    intro g hg
    rcases List.mem_cons.1 hg with rfl | hg
    · exact emit_streamed h hf h1
    · exact ih (kempt_emit h h1) (fragsFit_emit h hf h1) g hg

end

theorem kempt_step {c : Conn} (h : Kempt c) (st : Step) : Kempt (st.apply c) := by
  have hk := kept_step short_rule ⟨h.ids, h.short⟩ st
  exact ⟨hk.ids, hk.slots⟩

/-! ## Runs -/

/-- A step other than `netchan_send_next` adds the frames its encoders find room for. -/
theorem step_requests (c : Conn) {st : Step} (h : ∀ env buflen, st ≠ .sendNext env buflen) :
    (st.apply c).ctrlBuf = c.ctrlBuf ++ encodeAll (reserved c.ctrlBuf (requested c st)) :=
  (step_queue c h).trans (reserveAll_eq ..)

theorem step_server (c : Conn) (st : Step) : (st.apply c).server = c.server := by
  cases st with
  | config cfg => rfl
  | call k => exact (call_cfg c k).2
  | frame env f => exact (stepFrame_fixed env c f).1
  | header env pkt source => exact (Promise.fedConn_alike env c pkt source).1.server
  | sendNext env buflen => exact (sendNext_cfg env c buflen).2.1

/-- The invariant of a run that splits no frame. -/
structure Traffic.Ok (L : Layout) (server : Bool) (t : Traffic) : Prop where
  held : Held L t.conn
  side : t.conn.server = server
  kempt : Kempt t.conn
  flow : ∃ sent rest, t.queued = sent.flatten ++ rest ∧ t.conn.ctrlBuf = encodeAll rest ∧
    (∀ f ∈ rest, f.Fits ∧ f.AcceptedBy (!server)) ∧
    List.Forall₂ (WholePacket server) sent t.packets

/-- The queue, cut between two frames. -/
theorem cutsBetween_spec {c : Conn} {buflen : Nat} {rest : List Frame} (h : CutsBetween c buflen)
    (hb : c.ctrlBuf = encodeAll rest) (hf : ∀ f ∈ rest, f.Fits) :
    ∃ k, c.ctrlBuf.take (ctrlSent c buflen) = encodeAll (rest.take k) ∧
      c.ctrlBuf.drop (ctrlSent c buflen) = encodeAll (rest.drop k) := by
  obtain ⟨k, -, hk⟩ := h
  have hq : queueFrames c = rest := by
    rw [queueFrames, hb]
    exact Promise.framesOf_encode rest _ hf (Nat.le_refl _)
  rw [hq] at hk
  have hsplit : c.ctrlBuf = encodeAll (rest.take k) ++ encodeAll (rest.drop k) := by
    rw [← encodeAll_append, List.take_append_drop, hb]
  refine ⟨k, ?_, ?_⟩
  · rw [hsplit, ← hk, List.take_left]
  · rw [hsplit, ← hk, List.drop_left]

/-- **A packet that cuts the queue between two frames** is whole, and the rest of the queue stays. -/
theorem packet_whole {c c' : Conn} {env : Env} {buflen : Nat} {rest : List Frame}
    {pkt : List UInt8} {addr : Addr} (hk : Kempt c) (hcut : CutsBetween c buflen) (hfit : FragsFit c)
    (hb : c.ctrlBuf = encodeAll rest) (hf : ∀ f ∈ rest, f.Fits ∧ f.AcceptedBy (!c.server))
    (hs : netchanSendNext env c buflen = (c', some (pkt, addr))) :
    ∃ k, WholePacket c.server (rest.take k) pkt ∧ c'.ctrlBuf = encodeAll (rest.drop k) := by
  rcases netchanSendNext_cases env c buflen with he | ⟨-, fs, d, hem, he⟩
  · rw [he] at hs
    cases hs
  · rw [he] at hs
    cases hs
    obtain ⟨k, htake, hdrop⟩ := cutsBetween_spec hcut hb fun f hf' => (hf f hf').1
    have hstr := emits_streamed hem (c := ctrlFlushed c buflen) ⟨hk.ids, hk.short⟩ hfit
    refine ⟨k, ?_, (emits_ctrl hem).trans hdrop⟩
    rw [htake, List.append_assoc, ← encodeAll_append]
    refine ⟨headerOf c, fs, rfl, Promise.byte_headerOf _ _, fun f hf => (hstr f hf).2, ?_⟩
    intro env' peer hpeer
    rw [List.drop_left]
    refine parseFrames_encode env' peer _ fun f hf' => ?_
    rw [hpeer]
    rcases List.mem_append.1 hf' with hf' | hf'
    · exact hf f (List.mem_of_mem_take hf')
    · exact ⟨(hstr f hf').1.1, (hstr f hf').1.2 _⟩

namespace Traffic.Ok

variable {L : Layout} {server : Bool} {t : Traffic}

theorem send (h : t.Ok L server) {env : Env} {buflen : Nat}
    (hst : (Step.sendNext env buflen).Unsplit L t.conn) :
    ∃ t', Traffic.step L (some t) (.sendNext env buflen) = some t' ∧ t'.Ok L server := by
  obtain ⟨sent, rest, hq, hb, hfit, hpk⟩ := h.flow
  obtain ⟨m, -, hsend, hheld⟩ := Object.sendNext_held h.held env buflen
  obtain ⟨-, hcut, hfrag⟩ := hst
  rw [Object.loaded_held h.held] at hcut
  have hside := step_server (t.conn.patch m) (.sendNext env buflen)
  have hkempt := kempt_step (c := t.conn.patch m) ⟨h.kempt.ids, h.kempt.short⟩ (.sendNext env buflen)
  simp only [Step.apply] at hside hkempt
  generalize hr : netchanSendNext env (t.conn.patch m) buflen = r at hsend hheld hside hkempt
  obtain ⟨c', pkt⟩ := r
  refine ⟨_, by rw [Traffic.step, Option.bind_some, Object.apply, hsend]; rfl, hheld,
    hside.trans h.side, hkempt, ?_⟩
  have hreq : t.queued ++ reserved (Object.loaded L t.conn).ctrlBuf
      (requested t.conn (.sendNext env buflen)) = t.queued := List.append_nil _
  dsimp only
  rw [hreq, packetOf, hsend]
  cases pkt with
  | none =>
    refine ⟨sent, rest, hq, ?_, hfit, ?_⟩
    · have hidle : (netchanSendNext env (t.conn.patch m) buflen).1 = t.conn.patch m := by
        rcases netchanSendNext_cases env (t.conn.patch m) buflen with he | ⟨-, fs, d, -, he⟩
        · rw [he]
        · rw [hr] at he
          cases he
      rw [hr] at hidle
      rw [show c' = t.conn.patch m from hidle]
      exact hb
    · rw [Option.bind_some, Option.map_none, Option.toList_none, List.append_nil]
      exact hpk
  | some pkt =>
    obtain ⟨pkt, addr⟩ := pkt
    obtain ⟨k, hw, hrest⟩ := packet_whole (c := t.conn.patch m) ⟨h.kempt.ids, h.kempt.short⟩ hcut hfrag
      hb (by rw [show (t.conn.patch m).server = server from h.side]; exact hfit) hr
    rw [show (t.conn.patch m).server = server from h.side] at hw
    refine ⟨sent ++ [rest.take k], rest.drop k, ?_, hrest, fun f hf => hfit f (List.mem_of_mem_drop hf),
      List.rel_append hpk (.cons hw .nil)⟩
    rw [List.flatten_append, List.flatten_singleton, List.append_assoc, List.take_append_drop]
    exact hq

theorem queue (h : t.Ok L server) {st : Step} (hst : FramesFit t.conn st)
    (hne : ∀ env buflen, st ≠ .sendNext env buflen) :
    ∃ t', Traffic.step L (some t) st = some t' ∧ t'.Ok L server := by
  obtain ⟨sent, rest, hq, hb, hfit, hpk⟩ := h.flow
  obtain ⟨m, -, happ, hheld⟩ := Object.apply_queued h.held hst hne
  have hpkt : packetOf L t.conn st = [] := by
    cases st with
    | sendNext env buflen => exact absurd rfl (hne env buflen)
    | _ => rfl
  have hk := kempt_step h.kempt st
  refine ⟨_, by rw [Traffic.step, Option.bind_some, happ, Option.map_some], hheld,
    (step_server t.conn st).trans h.side, ⟨hk.ids, hk.short⟩, sent,
    rest ++ reserved t.conn.ctrlBuf (requested t.conn st), ?_, ?_, fun f hf => ?_, ?_⟩
  · dsimp only
    rw [Object.loaded_held h.held, hq, List.append_assoc]
  · show (st.apply t.conn).ctrlBuf = _
    rw [step_requests t.conn hne, encodeAll_append, hb]
  · rcases List.mem_append.1 hf with hf | hf
    · exact hfit f hf
    · have hqs := requested_queues (mem_reserved hf)
      refine ⟨hqs.fits, ?_⟩
      rw [← h.side]
      exact hqs.accepted
  · dsimp only
    rw [hpkt, List.append_nil]
    exact hpk

/-- **A step that splits no frame** keeps the traffic whole. -/
theorem step (h : t.Ok L server) {st : Step} (hst : st.Unsplit L t.conn) :
    ∃ t', Traffic.step L (some t) st = some t' ∧ t'.Ok L server := by
  by_cases hsend : ∃ env buflen, st = .sendNext env buflen
  · obtain ⟨env, buflen, rfl⟩ := hsend
    exact h.send hst
  · exact h.queue hst.1 fun env buflen he => hsend ⟨env, buflen, he⟩

end Traffic.Ok

/-- The traffic of a run whose steps split no frame. -/
def Traffic.Unsplit (L : Layout) (server : Bool) (sts : List Step) : Prop :=
  Along (Traffic.step L) (fun t st => ∀ x ∈ t, st.Unsplit L x.conn) (some (fresh server)) sts

instance (L : Layout) (server : Bool) (sts : List Step) : Decidable (Traffic.Unsplit L server sts) :=
  inferInstanceAs (Decidable (Along ..))

/-- The peer's `parse_frames` accepts every datagram. -/
def Traffic.Accepted (t : Traffic) : Bool :=
  t.packets.all fun p =>
    (parseFrames {} (netchanOpen false) (p.drop (hdrSize (byte p 0)))).1.isOk

/-- A client accepts the datagrams of a server whose traffic conforms. -/
theorem Traffic.Conforms.accepted {L : Layout} {t : Traffic} (h : t.Conforms L true) :
    t.Accepted = true := by
  obtain ⟨sent, rest, -, -, hp⟩ := h
  unfold Traffic.Accepted
  generalize t.packets = ps at hp
  induction hp with
  | nil => rfl
  | cons h _ ih =>
    obtain ⟨hdr, fs, -, hlen, -, hparse⟩ := h
    rw [List.all_cons, ← hlen, hparse {} (netchanOpen false) rfl, ih]
    rfl

/-- A server with the default configuration that is sent a message in two fragments, the second one
first. The last 83 bytes of the first one lie in `ctrl_buf` once it is moved. -/
def overwritten : List Step :=
  secondSteps ++ [.frame {} (.data 0 0 0 2 (List.replicate 1965 0 ++ List.replicate 83 0xFF)),
    .sendNext {} 1200]

/-- **The overrun of reassembly reaches `ctrl_buf`**: the frames that were queued there are
overwritten, and the peer's `parse_frames` fails on the packet. -/
theorem overwritten_rejected :
    ∃ t, Traffic.run .lp64 true overwritten = some t ∧ ¬ t.Conforms .lp64 true := by
  have hv : (Traffic.run .lp64 true overwritten).map Traffic.Accepted = some false := by
    decide +kernel
  obtain ⟨t, ht, hbad⟩ := Option.map_eq_some_iff.1 hv
  refine ⟨t, ht, fun hc => ?_⟩
  rw [hc.accepted] at hbad
  cases hbad

end Netchan
