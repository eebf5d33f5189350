import Netchan.Pair.Horizon
import Netchan.Pair.Reading
import Mathlib.Data.List.Chain

/-!
# A network with a replay window

A `Relay` is two ends and a network that numbers the datagrams of each end. It loses, duplicates and
reorders them, but no longer delivers a datagram once one was delivered whose number is 64 higher.

That is enough for the sequence numbers of reliable channels. An end writes at most 16 messages
before it hears of its peer again, so few messages are written while the numbers go up by 64
(`Paced`), and no datagram is too old when it is delivered. `relay_in_order` is `reliable_in_order`
without a condition on the age of datagrams.
-/

namespace Netchan

open Lib

/-- Two ends, the datagrams that each of them `sent` by their numbers, the numbers of those that it
`heard`, and the messages that its application `read`. -/
structure Relay extends World where
  sent : Side → List Packet
  heard : Side → List Nat
  read : Side → ChanId → List (List UInt8)

/-- A read takes a message of `n` bytes whole. -/
def Call.Reads (n : Nat) : Call → Prop
  | .read _ buflen => n ≤ buflen
  | _ => True

namespace Relay

def init (cfg : Side → Cfg) : Relay :=
  { World.init cfg with sent := fun _ => [], heard := fun _ => [], read := fun _ _ => [] }

/-- `post` gives the datagram that the end filled last the next number, `take` delivers the datagram
with the number `i`. -/
inductive Op
  | call (s : Side) (k : Call)
  | send (s : Side) (env : Env) (buflen : Nat)
  | post (s : Side)
  | take (s : Side) (i : Nat) (env : Env) (source : Option Addr)

/-- What was read after end `s` made a call. -/
def readBy (r : Relay) (s : Side) : Call → Side → ChanId → List (List UInt8)
  | .read id buflen => onChan r.read s id (r.read s id ++ messageRead (r.conn s) id buflen)
  | _ => r.read

def step (r : Relay) : Op → Relay
  | .call s k => { r with toWorld := r.toWorld.step (.call s k), read := r.readBy s k }
  | .send s env buflen => { r with toWorld := r.toWorld.step (.send s env buflen) }
  | .post s =>
    { r with sent := Function.update r.sent s (r.sent s ++ (r.net s.other).getLast?.toList) }
  | .take s i env source =>
    match (r.sent s.other)[i]? with
    | none => r
    | some pkt =>
      { r with toWorld := r.toWorld.receive s pkt env source
               heard := Function.update r.heard s (r.heard s ++ [i]) }

/-- The relay after a run. -/
def run (cfg : Side → Cfg) (ops : List Op) : Relay := Lib.run step (.init cfg) ops

/-- The datagrams that a network with a replay window accepts. -/
abbrev window : Nat := 64

/-- Control frames are sent whole, and a datagram is delivered once, and not once one was delivered that
is 64 numbers newer. -/
def Op.Fresh (r : Relay) : Op → Prop
  | .send s _ buflen => Whole (r.conn s) buflen
  | .take s i _ _ => i ∉ r.heard s ∧ ∀ j ∈ r.heard s, j < i + window
  | _ => True

/-- Calls as `Call.Plain` says, control frames that are sent whole, and a network that delivers no
datagram once one was delivered that is 64 numbers newer. -/
def Op.InOrder (r : Relay) : Op → Prop
  | .call s k => k.Plain (r.conn s) ∧ k.Reads (maxFragPayload (r.conn s.other))
  | .send s _ buflen => Whole (r.conn s) buflen
  | .post _ => True
  | .take s i _ _ => ∀ j ∈ r.heard s, j < i + window

end Relay

instance Call.decidableReads (n : Nat) : ∀ k : Call, Decidable (k.Reads n)
  | .read _ buflen => inferInstanceAs (Decidable (n ≤ buflen))
  | .connect .. | .accept | .disconnect | .service .. | .chanOpen .. | .chanClose _ | .write ..
  | .poll => .isTrue trivial

instance Relay.Op.decidableInOrder (r : Relay) : ∀ op : Relay.Op, Decidable (op.InOrder r)
  | .call _ _ => inferInstanceAs (Decidable (_ ∧ _))
  | .send s _ buflen => inferInstanceAs (Decidable (Whole (r.conn s) buflen))
  | .post _ => .isTrue trivial
  | .take s i _ _ => inferInstanceAs (Decidable (∀ j ∈ r.heard s, j < i + Relay.window))

/-! ## The pace of the numbers -/

/-- The datagram `q` was filled after `p`, and at most 16 messages were written at either end in
between. -/
structure Packet.Precedes (p q : Packet) : Prop where
  le : p.stamp.Le q.stamp
  near : ∀ t id, (q.stamp.written t id).length ≤ (p.stamp.written t id).length + ncOutgoingSlots

theorem Packet.Precedes.refl (p : Packet) : p.Precedes p := ⟨.refl _, fun _ _ => Nat.le_add_right _ _⟩

/-- How far apart two datagrams are. -/
theorem precedes_far {ps : List Packet} (h : ps.IsChain Packet.Precedes) {i : Nat} {p : Packet}
    (hp : ps[i]? = some p) : ∀ (n : Nat) {q : Packet}, ps[i + n]? = some q →
      p.stamp.Le q.stamp ∧ ∀ t id,
        (q.stamp.written t id).length ≤ (p.stamp.written t id).length + ncOutgoingSlots * n
  | 0, q, hq => by
    obtain rfl := Option.some.inj (hp.symm.trans hq)
    exact ⟨.refl _, fun _ _ => Nat.le_refl _⟩
  | n + 1, q, hq => by
    obtain ⟨hlt, rfl⟩ := List.getElem?_eq_some_iff.1 hq
    have hlt' : i + n < ps.length := by omega
    obtain ⟨h1, h2⟩ := precedes_far h hp n (List.getElem?_eq_getElem hlt')
    have hstep : ps[i + n].Precedes ps[i + (n + 1)] := List.isChain_iff_getElem.1 h (i + n) hlt
    refine ⟨h1.trans hstep.le, fun t id => ?_⟩
    have h3 := h2 t id
    have h4 := hstep.near t id
    rw [Nat.mul_succ]
    omega

/-! ## Steps of the world -/

section
variable {w : World} {s : Side}

/-- A datagram that stays on its way is duplicated and delivered. -/
theorem World.receive_eq {i : Nat} {pkt : Packet} (h : (w.net s)[i]? = some pkt) (env : Env)
    (source : Option Addr) :
    Lib.run World.step w [.dup s i, .deliver s (w.net s).length env source] =
      w.receive s pkt env source := by
  simp only [run_cons, run_nil, World.step, h, Function.update_self, List.getElem?_concat_length,
    Function.update_idem]
  rw [List.eraseIdx_append_of_length_le (Nat.le_refl _)]
  simp only [Nat.sub_self, List.eraseIdx_cons_zero, List.append_nil, Function.update_eq_self]

theorem World.cfg_step (w : World) (op : Op) (s : Side) :
    ((w.step op).conn s).cfg = (w.conn s).cfg :=
  World.conn_step (I := fun t c => c.cfg = (w.conn t).cfg)
    (fun _ c st hst hc => (step_cfg c st hst).trans hc) (fun _ => rfl) op s

theorem World.cfg_receive {i : Nat} {pkt : Packet} (h : (w.net s)[i]? = some pkt) (env : Env)
    (source : Option Addr) (t : Side) :
    ((w.receive s pkt env source).conn t).cfg = (w.conn t).cfg := by
  rw [← World.receive_eq h env source, run_cons, run_cons, run_nil, World.cfg_step, World.cfg_step]

theorem advance_written (s : Side) : ∀ (fs : List Frame) (l : Log),
    (l.advance s fs).written = l.written
  | [], _ => rfl
  | f :: fs, l => (advance_written s fs (l.frameSent s f)).trans (Log.frameSent_messages l s f).1

theorem hears_written (s : Side) (env : Env) : ∀ (fs : List Frame) (x : Ends × Log),
    (run (hearFrame s env) x fs).1.log.written = x.1.log.written
  | [], _ => rfl
  | _ :: fs, _ => (hears_written s env fs _).trans (Log.frameHeard_messages ..).1

theorem World.receive_written (w : World) (s : Side) (pkt : Packet) (env : Env)
    (source : Option Addr) : (w.receive s pkt env source).log.written = w.log.written := by
  simp only [World.receive]
  split
  · exact hears_written s env _ _
  · rfl

/-- What `netchan_send_next` does to the world. -/
theorem World.transmit_spec (w : World) (s : Side) (env : Env) (buflen : Nat) :
    (w.transmit s env buflen).conn =
        Function.update w.conn s (netchanSendNext env (w.conn s) buflen).1 ∧
      (w.transmit s env buflen).log.written = w.log.written ∧
      ((netchanSendNext env (w.conn s) buflen).2 = none ∧ (w.transmit s env buflen).net = w.net ∨
        ∃ bytes dest, (netchanSendNext env (w.conn s) buflen).2 = some (bytes, dest) ∧
          (w.transmit s env buflen).net =
            Function.update w.net s.other (w.net s.other ++ [⟨bytes, w.log⟩])) := by
  unfold World.transmit
  split
  · rename_i he
    rw [he]
    exact ⟨rfl, rfl, .inl ⟨rfl, rfl⟩⟩
  · rename_i he
    rw [he]
    exact ⟨rfl, advance_written s _ w.log, .inr ⟨_, _, rfl, rfl⟩⟩

/-- Two promises that say the same of frames. -/
theorem Promise.Holds.exchange {P Q : Promise} (h : P.Holds w) (hq : P.queued = Q.queued)
    (hc : P.carried = Q.carried) (hinv : Q.inv w.toEnds) : Q.Holds w := by
  refine ⟨⟨h.ends.sound, hinv, fun s => ?_⟩, fun s pkt hp => ?_⟩
  · obtain ⟨fs, hb, hf⟩ := h.ends.queue s
    exact ⟨fs, hb, fun f hm => ⟨(hf f hm).1, hq ▸ (hf f hm).2⟩⟩
  · obtain ⟨hdr, fs, h1, h2, h3, h4, h5⟩ := h.net s pkt hp
    exact ⟨hdr, fs, h1, h2, h3, Promise.carries_congr hc _ _ _ h4, h5⟩

end

/-! ## The invariant -/

/-- `h` is the horizon of end `s`: the stamp of the newest datagram that it heard. -/
def Relay.Newest (r : Relay) (s : Side) (h : Log) : Prop :=
  r.heard s = [] ∧ h = {} ∨ ∃ m pkt, m ∈ r.heard s ∧ (∀ j ∈ r.heard s, j ≤ m) ∧
    (r.sent s.other)[m]? = some pkt ∧ h = pkt.stamp

/-- The ends are in order by what they have seen, and the datagrams are numbered in the order in which
they were filled. -/
structure Relay.Paced (H : Side → Log) (r : Relay) : Prop where
  within : (Within H).Holds r.toWorld
  reading : (Reading r.read).inv r.toEnds
  newest : ∀ s, r.Newest s (H s)
  chain : ∀ s, (r.sent s).IsChain Packet.Precedes
  pending : ∀ s p q, (r.sent s).getLast? = some p → (r.net s.other).getLast? = some q →
    p.Precedes q
  known : ∀ s, ∀ p ∈ r.sent s, p ∈ r.net s.other
  sane : ∀ s, ∀ p ∈ r.net s, ∀ t id,
    p.stamp.passed t id ≤ (p.stamp.written t.other id).length
  sized : ∀ s id, ∀ m ∈ r.log.written s id, m ≠ [] ∧ m.length ≤ maxFragPayload (r.conn s)

section
variable {H : Side → Log} {r : Relay} {s : Side}

theorem Relay.Newest.lt {h : Log} (hn : r.Newest s h) :
    ∀ j ∈ r.heard s, j < (r.sent s.other).length := by
  rcases hn with ⟨he, -⟩ | ⟨m, pkt, -, hmax, hpkt, -⟩
  · simp [he]
  · intro j hj
    exact Nat.lt_of_le_of_lt (hmax j hj) (List.getElem?_eq_some_iff.1 hpkt).1

namespace Relay.Paced

/-- The horizon of an end is not after a datagram that is newer than all it heard. -/
theorem horizon (h : r.Paced H) {n : Nat} {pkt : Packet} (hpkt : (r.sent s.other)[n]? = some pkt)
    (hnew : ∀ j ∈ r.heard s, j ≤ n) (t : Side) (id : ChanId) :
    ((H s).written t id).length ≤ (pkt.stamp.written t id).length ∧
      (H s).passed t id ≤ ((H s).written t.other id).length := by
  rcases h.newest s with ⟨-, he⟩ | ⟨m, p, hm, -, hp, he⟩
  · rw [he]
    exact ⟨Nat.zero_le _, Nat.le_refl _⟩
  · obtain ⟨k, rfl⟩ := Nat.exists_eq_add_of_le (hnew m hm)
    have hle := (precedes_far (h.chain s.other) hp k hpkt).1
    have hmem := h.known s.other p (List.mem_of_getElem? hp)
    rw [he]
    exact ⟨(hle.written t id).length_le, h.sane _ p hmem t id⟩

/-- **Few messages were written** since a datagram was filled that is newer than all its receiver
heard. -/
theorem few_since (h : r.Paced H) {n : Nat} {pkt : Packet} (hpkt : (r.sent s.other)[n]? = some pkt)
    (hnew : ∀ j ∈ r.heard s, j ≤ n) (t : Side) (id : ChanId) :
    (r.log.written t id).length ≤ (pkt.stamp.written t id).length + ncOutgoingSlots := by
  have hinv : (Within H).inv r.toEnds := h.within.ends.inv
  obtain ⟨hle, hpass⟩ := h.horizon hpkt hnew t id
  rcases Side.eq_or_eq_other s t with rfl | rfl
  · have h1 := Within.near hinv t id
    have h2 := (h.horizon hpkt hnew t.other id).2
    rw [Side.other_other] at h2
    omega
  · have h1 := Ordered.near (Within.ordered hinv) s id
    have h2 := Within.le hinv s id
    omega

/-- **No datagram is too old** when it is delivered. -/
theorem recent (h : r.Paced H) {i : Nat} {pkt : Packet} (hpkt : (r.sent s.other)[i]? = some pkt)
    (hwin : ∀ j ∈ r.heard s, j < i + Relay.window) : r.log.Recent pkt.stamp := by
  intro t id
  have hsmall : ncOutgoingSlots + ncOutgoingSlots * Relay.window ≤ maxAge := by decide
  by_cases hnew : ∀ j ∈ r.heard s, j ≤ i
  · have := h.few_since hpkt hnew t id
    omega
  · -- a newer datagram was delivered already
    rcases h.newest s with ⟨he, -⟩ | ⟨m, p, hm, hmax, hp, -⟩
    · rw [he] at hnew
      exact absurd nofun hnew
    · obtain ⟨k, rfl⟩ : ∃ k, m = i + k := by
        refine Nat.exists_eq_add_of_le (Nat.le_of_not_lt fun hlt => hnew fun j hj => ?_)
        have := hmax j hj
        omega
      have hk := hwin _ hm
      have hmul : ncOutgoingSlots * k ≤ ncOutgoingSlots * Relay.window :=
        Nat.mul_le_mul_left _ (by omega)
      have h1 := h.few_since hp hmax t id
      have h2 := (precedes_far (h.chain s.other) hpkt k hp).2 t id
      omega

/-- A datagram that is filled now comes after those that were sent. -/
theorem precedes_now (h : r.Paced H) {p : Packet} (hp : (r.sent s).getLast? = some p)
    (bytes : List UInt8) : p.Precedes ⟨bytes, r.log⟩ := by
  have hat : (r.sent s)[(r.sent s).length - 1]? = some p := by
    rw [← List.getLast?_eq_getElem?]
    exact hp
  have hmem : p ∈ r.net s.other := h.known s p (List.mem_of_getLast? hp)
  obtain ⟨hdr, fs, -, -, -, -, hle⟩ := h.within.net s.other p hmem
  rw [← Side.other_other s] at hat
  refine ⟨(Log.le_advance _ fs p.stamp).trans hle, h.few_since hat fun j hj => ?_⟩
  have hlt := (h.newest s.other).lt j hj
  omega

theorem sized_called (h : r.Paced H) {k : Call} (hk : k.Plain (r.conn s)) (t : Side) (id : ChanId) :
    ∀ m ∈ (r.log.called s (r.conn s) k).written t id, m ≠ [] ∧
      m.length ≤ maxFragPayload ((r.toWorld.step (.call s k)).conn t) := by
  rw [maxFragPayload_congr (World.cfg_step ..)]
  intro m hm
  by_cases hw : t = s ∧ ∃ data, k = .write id data ∧ writeAccepted (r.conn s) id data = true
  · obtain ⟨rfl, data, rfl, ha⟩ := hw
    rw [(Log.called_messages ..).2.2.1 id data rfl ha, onChan_same] at hm
    rcases List.mem_append.1 hm with hm | hm
    · exact h.sized t id m hm
    · obtain rfl := List.mem_singleton.1 hm
      refine ⟨?_, hk⟩
      rintro rfl
      rcases netchanChanWrite_cases (r.conn t) id [] with ⟨-, hn⟩ | ⟨ch, b, p, hcan, -⟩
      · rw [hn] at ha
        cases ha
      · exact hcan.pos rfl
  · rw [Log.called_written _ _ _ _ _ _ fun ht data he => ?_] at hm
    · exact h.sized t id m hm
    · by_contra ha
      exact hw ⟨ht, data, he, by simpa using ha⟩

theorem call (h : r.Paced H) {k : Call} (hop : (Relay.Op.call s k).InOrder r) :
    (r.step (.call s k)).Paced H := by
  obtain ⟨hplain, hreads⟩ := hop
  have hord : Ordered.inv r.toEnds := h.reading.1
  have hwithin : (Within H).Holds (r.toWorld.step (.call s k)) :=
    Promise.step (within_kept H) h.within (show Op.Meets _ _ r.toWorld (.call s k) from hplain)
  refine ⟨hwithin, ?_, h.newest, h.chain,
    h.pending, h.known, h.sane, ?_⟩
  · by_cases hread : ∃ id buflen, k = .read id buflen
    · obtain ⟨id, buflen, rfl⟩ := hread
      have hmem : ∀ m ∈ queued (r.conn s) id, m ∈ r.log.written s.other id := by
        intro m hm
        refine ((hord s).sublist id).subset ?_
        rw [← h.reading.2 s id]
        exact List.mem_append_right _ hm
      refine reading_read h.reading (fun _ m hm => ?_) fun m hm => (h.sized _ _ m (hmem m hm)).1
      exact (h.sized _ _ m (hmem m (List.mem_of_mem_head? hm))).2.trans hreads
    · have hsame : r.readBy s k = r.read := by
        cases k with
        | read id buflen => exact absurd ⟨_, _, rfl⟩ hread
        | _ => rfl
      simp only [Relay.step, hsame]
      exact reading_called h.reading hplain fun id buflen he => hread ⟨id, buflen, he⟩
  · exact h.sized_called hplain

theorem send (h : r.Paced H) {env : Env} {buflen : Nat} (hop : Whole (r.conn s) buflen) :
    (r.step (.send s env buflen)).Paced H := by
  have hwithin : (Within H).Holds (r.transmit s env buflen) := h.within.transmit (within_kept H) hop
  have hreading : (Reading r.read).Holds (r.transmit s env buflen) :=
    (Promise.Holds.exchange (Q := Reading r.read) h.within rfl rfl h.reading).transmit
      (reading_kept r.read) hop
  obtain ⟨-, hwritten, hnet⟩ := r.toWorld.transmit_spec s env buflen
  have hsized (t : Side) (id : ChanId) (m : List UInt8)
      (hm : m ∈ (r.transmit s env buflen).log.written t id) :
      m ≠ [] ∧ m.length ≤ maxFragPayload ((r.transmit s env buflen).conn t) := by
    rw [hwritten] at hm
    have hcfg : ((r.transmit s env buflen).conn t).cfg = (r.conn t).cfg :=
      r.toWorld.cfg_step (.send s env buflen) t
    rw [maxFragPayload_congr hcfg]
    exact h.sized t id m hm
  rcases hnet with ⟨-, hnet⟩ | ⟨bytes, dest, -, hnet⟩
  · refine ⟨hwithin, hreading.ends.inv, h.newest, h.chain, fun t p q hp hq => ?_,
      fun t p hp => ?_, fun t p hp => ?_, hsized⟩
    · exact h.pending t p q hp (hnet ▸ hq)
    · exact hnet ▸ h.known t p hp
    · exact h.sane t p (hnet ▸ hp)
  · -- the datagram that was filled is the last one on its way
    have hother (t : Side) (ht : t ≠ s.other) : (r.transmit s env buflen).net t = r.net t := by
      rw [hnet, Function.update_of_ne ht]
    have hmine : (r.transmit s env buflen).net s.other = r.net s.other ++ [⟨bytes, r.log⟩] := by
      rw [hnet, Function.update_self]
    refine ⟨hwithin, hreading.ends.inv, h.newest, h.chain, fun t p q hp hq => ?_,
      fun t p hp => ?_, fun t p hp => ?_, hsized⟩
    · by_cases ht : t = s
      · subst ht
        rw [show (r.step (.send t env buflen)).net t.other = _ from hmine, List.getLast?_concat] at hq
        obtain rfl := Option.some.inj hq
        exact h.precedes_now hp bytes
      · refine h.pending t p q hp ?_
        rw [← hother t.other fun he => ht ?_]
        · exact hq
        · rw [← Side.other_other t, he, Side.other_other]
    · by_cases ht : t.other = s.other
      · rw [ht]
        refine hmine ▸ List.mem_append_left _ ?_
        exact ht ▸ h.known t p hp
      · exact (hother t.other ht).symm ▸ h.known t p hp
    · by_cases ht : t = s.other
      · subst ht
        rw [show (r.step (.send s env buflen)).net s.other = _ from hmine] at hp
        rcases List.mem_append.1 hp with hp | hp
        · exact h.sane _ p hp
        · obtain rfl := List.mem_singleton.1 hp
          exact fun t id => (h.reading.1 t).le id
      · exact h.sane t p (hother t ht ▸ hp)

theorem post (h : r.Paced H) (s : Side) : (r.step (.post s)).Paced H := by
  cases hlast : (r.net s.other).getLast? with
  | none =>
    have hsame : r.step (.post s) = r := by
      simp only [Relay.step, hlast, Option.toList_none, List.append_nil, Function.update_eq_self]
    rw [hsame]
    exact h
  | some q =>
    have hmine : (r.step (.post s)).sent s = r.sent s ++ [q] := by
      simp only [Relay.step, hlast, Option.toList_some, Function.update_self]
    have hother (t : Side) (ht : t ≠ s) : (r.step (.post s)).sent t = r.sent t :=
      Function.update_of_ne ht ..
    refine ⟨h.within, h.reading, fun t => ?_, fun t => ?_, fun t p p' hp hp' => ?_, fun t p hp => ?_,
      h.sane, h.sized⟩
    · refine (h.newest t).imp id fun ⟨m, pkt, hm, hmax, hpkt, he⟩ => ⟨m, pkt, hm, hmax, ?_, he⟩
      by_cases ht : t.other = s
      · rw [ht, hmine]
        rw [ht] at hpkt
        exact getElem?_of_prefix (List.prefix_append ..) hpkt
      · rw [hother _ ht]
        exact hpkt
    · by_cases ht : t = s
      · subst ht
        rw [hmine]
        refine (h.chain t).append (.singleton q) fun x hx y hy => ?_
        obtain rfl : q = y := by simpa using hy
        exact h.pending t x q hx hlast
      · rw [hother t ht]
        exact h.chain t
    · by_cases ht : t = s
      · subst ht
        rw [hmine, List.getLast?_concat] at hp
        obtain rfl := Option.some.inj hp
        obtain rfl := Option.some.inj (hlast.symm.trans hp')
        exact .refl q
      · rw [hother t ht] at hp
        exact h.pending t p p' hp hp'
    · by_cases ht : t = s
      · subst ht
        rw [hmine] at hp
        rcases List.mem_append.1 hp with hp | hp
        · exact h.known t p hp
        · obtain rfl := List.mem_singleton.1 hp
          exact List.mem_of_getLast? hlast
      · rw [hother t ht] at hp
        exact h.known t p hp

/-- Where the horizon of an end lies when a datagram was delivered to it: at this datagram, or where
it was because a newer one had been delivered. -/
theorem new_horizon (h : r.Paced H) {i : Nat} {pkt : Packet} (hpkt : (r.sent s.other)[i]? = some pkt) :
    ∃ l : Log, l.Covers (H s) s.other ∧ l.Covers pkt.stamp s.other ∧ r.log.Covers l s.other ∧
      (l = pkt.stamp ∧ (∀ j ∈ r.heard s, j ≤ i) ∨ l = H s ∧ ∃ j ∈ r.heard s, i < j) := by
  have hchain := h.chain s.other
  by_cases hnew : ∀ j ∈ r.heard s, j ≤ i
  · refine ⟨pkt.stamp, ?_, .refl _ _, ?_, .inl ⟨rfl, hnew⟩⟩
    · rcases h.newest s with ⟨-, he⟩ | ⟨m, p, hm, -, hp, he⟩
      · rw [he]
        exact fun id => ⟨List.nil_prefix, Nat.zero_le _⟩
      · obtain ⟨k, rfl⟩ := Nat.exists_eq_add_of_le (hnew m hm)
        rw [he]
        exact (precedes_far hchain hp k hpkt).1.covers _
    · have hmem := h.known s.other pkt (List.mem_of_getElem? hpkt)
      obtain ⟨hdr, fs, -, -, -, -, hle⟩ := h.within.net _ pkt hmem
      exact ((Log.le_advance _ fs _).trans hle).covers _
  · push Not at hnew
    obtain ⟨j, hj, hlt⟩ := hnew
    refine ⟨H s, .refl _ _, ?_, (h.within.ends.inv s).1, .inr ⟨rfl, j, hj, hlt⟩⟩
    rcases h.newest s with ⟨he, -⟩ | ⟨m, p, -, hmax, hp, he⟩
    · rw [he] at hj
      cases hj
    · obtain ⟨k, rfl⟩ := Nat.exists_eq_add_of_le (Nat.le_of_lt (Nat.lt_of_lt_of_le hlt (hmax j hj)))
      rw [he]
      exact (precedes_far hchain hpkt k hp).1.covers _

/-- The frames of a datagram say no more of the messages than its stamp. -/
theorem covers_hears (env : Env) {l : Log} {t : Side} : ∀ (fs : List Frame) (x : Ends) (stamp : Log),
    l.Covers stamp t → Along (hearFrame s env)
      (fun x f => l.Covers (x.2.frameSent s.other f) t) (x, stamp) fs
  | [], _, _, _ => trivial
  | f :: fs, x, stamp, h => by
    have hstamp : l.Covers (stamp.frameSent s.other f) t := by
      obtain ⟨h1, h2, -⟩ := Log.frameSent_messages stamp s.other f
      unfold Log.Covers
      rw [h1, h2]
      exact h
    exact ⟨hstamp, covers_hears env fs _ _ hstamp⟩

theorem take (h : r.Paced H) {i : Nat} {env : Env} {source : Option Addr}
    (hwin : ∀ j ∈ r.heard s, j < i + Relay.window) :
    ∃ H', (r.step (.take s i env source)).Paced H' := by
  cases hpkt : (r.sent s.other)[i]? with
  | none =>
    have hsame : r.step (.take s i env source) = r := by simp only [Relay.step, hpkt]
    rw [hsame]
    exact ⟨H, h⟩
  | some pkt =>
    have hstep : r.step (.take s i env source) =
        { r with toWorld := r.toWorld.receive s pkt env source
                 heard := Function.update r.heard s (r.heard s ++ [i]) } := by
      simp only [Relay.step, hpkt]
    have hmem : pkt ∈ r.net s := by
      have := h.known s.other pkt (List.mem_of_getElem? hpkt)
      rwa [Side.other_other] at this
    obtain ⟨l, hmore, hcov, hnow, hnewest⟩ := h.new_horizon hpkt
    have hrec := h.recent hpkt hwin
    have hW : (Within (Function.update H s l)).Holds r.toWorld := by
      refine h.within.exchange rfl rfl (Within.advance h.within.ends.inv (fun t => ?_) fun t => ?_)
      · by_cases ht : t = s
        · subst ht
          rw [Function.update_self]
          exact hmore
        · rw [Function.update_of_ne ht]
          exact .refl _ _
      · by_cases ht : t = s
        · subst ht
          rw [Function.update_self]
          exact hnow
        · rw [Function.update_of_ne ht]
          exact (h.within.ends.inv t).1
    have hR : (Reading r.read).Holds r.toWorld :=
      Promise.Holds.exchange (Q := Reading r.read) h.within rfl rfl h.reading
    have hW' : (Within (Function.update H s l)).Holds (r.toWorld.receive s pkt env source) := by
      have hH : (Function.update H s l s).Covers pkt.stamp s.other := by
        rw [Function.update_self]
        exact hcov
      refine hW.receive (within_kept _) (hW.net s pkt hmem) fun _ => ?_
      have hlog : (framesFed r.toEnds s pkt env source).1.log.Recent pkt.stamp := hrec
      generalize framesFed r.toEnds s pkt env source = x at hlog ⊢
      exact (recent_hears s env x.2 x.1 pkt.stamp hlog).and (covers_hears env x.2 x.1 pkt.stamp hH)
    have hR' : (Reading r.read).Holds (r.toWorld.receive s pkt env source) :=
      hR.receive (reading_kept _) (hR.net s pkt hmem) fun _ => recent_hears s env _ _ _ hrec
    refine ⟨Function.update H s l, ?_⟩
    rw [hstep]
    refine ⟨hW', hR'.ends.inv, fun t => ?_, h.chain, h.pending, h.known, h.sane, fun t id m hm => ?_⟩
    · by_cases ht : t = s
      · subst ht
        simp only [Relay.Newest, Function.update_self]
        rcases hnewest with ⟨rfl, hall⟩ | ⟨rfl, j, hj, hlt⟩
        · refine .inr ⟨i, pkt, by simp, fun j hj => ?_, hpkt, rfl⟩
          rcases List.mem_append.1 hj with hj | hj
          · exact hall j hj
          · exact (List.mem_singleton.1 hj).le
        · rcases h.newest t with ⟨he, -⟩ | ⟨m, p, hm, hmax, hp, he⟩
          · rw [he] at hj
            cases hj
          · refine .inr ⟨m, p, List.mem_append_left _ hm, fun k hk => ?_, hp, he⟩
            rcases List.mem_append.1 hk with hk | hk
            · exact hmax k hk
            · have := hmax j hj
              rw [List.mem_singleton.1 hk]
              omega
      · simp only [Relay.Newest, Function.update_of_ne ht]
        exact h.newest t
    · obtain ⟨n, hn⟩ := List.getElem?_of_mem hmem
      rw [World.receive_written] at hm
      rw [maxFragPayload_congr (World.cfg_receive hn env source t)]
      exact h.sized t id m hm

/-- **Every step keeps the pace.** -/
theorem step (h : r.Paced H) {op : Relay.Op} (hop : op.InOrder r) :
    ∃ H', (r.step op).Paced H' := by
  cases op with
  | call s k => exact ⟨H, h.call hop⟩
  | send s env buflen => exact ⟨H, h.send hop⟩
  | post s => exact ⟨H, h.post s⟩
  | take s i env source => exact h.take hop

theorem in_order (h : r.Paced H) (s : Side) (id : ChanId) :
    (r.read s.other id).Sublist (r.log.written s id) := by
  have hsub := (h.reading.1 s.other).sublist id
  rw [← h.reading.2 s.other id, Side.other_other] at hsub
  exact (List.sublist_append_left _ _).trans hsub

theorem init (cfg : Side → Cfg) : (Relay.init cfg).Paced fun _ => {} := by
  have hinv : (Within fun _ => {}).inv (World.init cfg).toEnds := fun s =>
    ⟨fun _ => ⟨List.nil_prefix, Nat.zero_le _⟩,
      (endInOrder_init cfg s).congr (funext fun _ => ite_self _) (funext fun _ => ite_self _) rfl⟩
  refine ⟨Promise.init cfg hinv, ⟨fun s => endInOrder_init cfg s, fun _ _ => rfl⟩,
    fun _ => .inl ⟨rfl, rfl⟩, fun _ => .nil, ?_, ?_, ?_, ?_⟩
  · intro s p q hp
    cases hp
  · intro s p hp
    cases hp
  · intro s p hp
    cases hp
  · intro s id m hm
    cases hm

end Relay.Paced

end

/-! ## Runs -/

/-- A relay is a world: its deliveries are of datagrams that stay on their way. -/
structure Relay.Real (cfg : Side → Cfg) (r : Relay) : Prop where
  world : ∃ ops, r.toWorld = World.run cfg ops
  known : ∀ s, ∀ p ∈ r.sent s, p ∈ r.net s.other

theorem Relay.Real.step {cfg : Side → Cfg} {r : Relay} (h : r.Real cfg) (op : Relay.Op) :
    (r.step op).Real cfg := by
  obtain ⟨ops, hr⟩ := h.world
  have hmore (ops' : List Netchan.Op) :
      Lib.run World.step r.toWorld ops' = World.run cfg (ops ++ ops') := by
    rw [hr]
    exact (run_append ..).symm
  cases op with
  | call s k => exact ⟨⟨_, hmore [.call s k]⟩, h.known⟩
  | send s env buflen =>
    refine ⟨⟨_, hmore [.send s env buflen]⟩, fun t p hp => ?_⟩
    obtain ⟨-, -, hnet⟩ := r.toWorld.transmit_spec s env buflen
    have hp := h.known t p hp
    change p ∈ (r.toWorld.transmit s env buflen).net t.other
    rcases hnet with ⟨-, hnet⟩ | ⟨bytes, dest, -, hnet⟩
    · rw [hnet]
      exact hp
    · rw [hnet]
      by_cases ht : t.other = s.other
      · rw [ht, Function.update_self]
        exact List.mem_append_left _ (ht ▸ hp)
      · rw [Function.update_of_ne ht]
        exact hp
  | post s =>
    refine ⟨⟨ops, hr⟩, fun t p hp => ?_⟩
    by_cases ht : t = s
    · subst ht
      simp only [Relay.step, Function.update_self] at hp
      rcases List.mem_append.1 hp with hp | hp
      · exact h.known t p hp
      · exact List.mem_of_getLast? (Option.mem_toList.1 hp)
    · simp only [Relay.step, Function.update_of_ne ht] at hp
      exact h.known t p hp
  | take s i env source =>
    cases hpkt : (r.sent s.other)[i]? with
    | none =>
      have hsame : r.step (.take s i env source) = r := by simp only [Relay.step, hpkt]
      rw [hsame]
      exact h
    | some pkt =>
      have hmem : pkt ∈ r.net s := by
        have := h.known s.other pkt (List.mem_of_getElem? hpkt)
        rwa [Side.other_other] at this
      obtain ⟨n, hn⟩ := List.getElem?_of_mem hmem
      have hstep : r.step (.take s i env source) =
          { r with toWorld := r.toWorld.receive s pkt env source
                   heard := Function.update r.heard s (r.heard s ++ [i]) } := by
        simp only [Relay.step, hpkt]
      rw [hstep]
      exact ⟨⟨_, (World.receive_eq hn env source).symm.trans (hmore _)⟩, h.known⟩

theorem relay_real (cfg : Side → Cfg) (ops : List Relay.Op) : (Relay.run cfg ops).Real cfg :=
  run_invariant (I := Relay.Real cfg) (A := fun _ _ => True) (fun _ op hr _ => hr.step op)
    ⟨⟨[], rfl⟩, fun s p hp => by cases hp⟩ (along_true ops)

theorem relay_cfg (cfg : Side → Cfg) (ops : List Relay.Op) (s : Side) :
    ((Relay.run cfg ops).conn s).cfg = cfg s := by
  obtain ⟨wops, hw⟩ := (relay_real cfg ops).world
  rw [hw]
  have h0 : ((World.init cfg).conn s).cfg = cfg s := rfl
  exact run_invariant (I := fun w : World => (w.conn s).cfg = cfg s) (A := fun _ _ => True)
    (fun w op hc _ => (World.cfg_step w op s).trans hc) h0 (along_true wops)

theorem relay_paced (cfg : Side → Cfg) (ops : List Relay.Op)
    (h : Along Relay.step (fun r op => op.InOrder r) (.init cfg) ops) :
    ∃ H, (Relay.run cfg ops).Paced H :=
  run_invariant (I := fun r => ∃ H, Relay.Paced H r) (fun _ _ hr hop => hr.elim fun _ h => h.step hop)
    ⟨_, .init cfg⟩ h

/-- **Messages are read in order, once and unaltered**: in every run with reliable channels, messages
of one fragment, control frames that are sent whole and a network with a replay window, what an
application reads on a channel is a sublist of what its peer wrote there. -/
theorem relay_in_order (cfg : Side → Cfg) (ops : List Relay.Op)
    (h : Along Relay.step (fun r op => op.InOrder r) (.init cfg) ops) (s : Side) (id : ChanId) :
    ((Relay.run cfg ops).read s.other id).Sublist ((Relay.run cfg ops).log.written s id) := by
  obtain ⟨H, hr⟩ := relay_paced cfg ops h
  exact hr.in_order s id

/-- Three messages: the second arrives first, then the first and the second again, and the third is
lost. The server reads twice. -/
def shuffledOps : List Relay.Op :=
  [.call .client (.connect { now := 1, entropy := 7 } [1]), .send .client { now := 2 } 1200,
    .post .client, .take .server 0 { now := 3, entropy := 9 } (some [2]), .call .server .accept,
    .send .server { now := 4 } 1200, .post .server, .take .client 0 { now := 5 } (some [1]),
    .call .client (.chanOpen .reliable .send []), .send .client { now := 6 } 1200, .post .client,
    .take .server 1 { now := 7 } (some [2]), .send .server { now := 8 } 1200, .post .server,
    .take .client 1 { now := 9 } (some [1])] ++
  ([1, 2, 3] : List UInt8).flatMap (fun b =>
    [.call .client (.write 0 [b]), .send .client { now := 10 } 1200, .post .client]) ++
  [.take .server 3 { now := 12 } (some [2]), .take .server 2 { now := 13 } (some [2]),
    .take .server 3 { now := 14 } (some [2]), .call .server (.read 0 1185),
    .call .server (.read 0 1185)]

theorem relay_in_order_shuffled : (Relay.run defaults shuffledOps).read .server 0 = [[1], [2]] ∧
    ((Relay.run defaults shuffledOps).read .server 0).Sublist
      ((Relay.run defaults shuffledOps).log.written .client 0) := by
  have h : Along Relay.step (fun r op => op.InOrder r) (.init defaults) shuffledOps := by
    decide +kernel
  exact ⟨by decide +kernel, relay_in_order defaults shuffledOps h .client 0⟩

end Netchan
