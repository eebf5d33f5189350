import Netchan.Link.Tunnel

/-!
# A client and a server

Two links over a network that does with datagrams what it wants: it loses, repeats, delays and makes
up. `Genuine` excludes one thing, a datagram that decrypts and that the peer did not seal.

`links_refine`: the connections of the two links are the ends of a relay. `data_in_order`: what the
application of one end is given is what the other end's sent, in order and once.
-/

namespace Netchan.Link

open Lib Crypto Transport

abbrev Links := Side → AuthLink

section
variable (P : Monocypher) (io : Side → Nat → Moment) (limit depth : Nat)

/-- An event at one of the links. -/
def Links.step (ls : Links) (x : Side × Event) : Links :=
  Function.update ls x.1 ((ls x.1).step P (io x.1) limit depth x.2)

/-- Nobody forges the datagrams that an event brings. -/
def Genuine (ls : Links) (x : Side × Event) : Prop :=
  x.2.Attended P (Authentic P (ls x.1.other)) (io x.1) (ls x.1)

/-- A client and a server as `auth_link_open` returns them, after the events `evs`. -/
def Joined (cfgs : Side → Cfg) (randoms : Side → Option Key) (evs : List (Side × Event))
    (ls : Links) : Prop :=
  ∃ ls0 : Links, (∀ s, (cfgs s).server = s.isServer ∧
      authLinkOpen P (io s) limit depth (cfgs s) (randoms s) = some (ls0 s)) ∧
    Along (Links.step P io limit depth) (Genuine P io) ls0 evs ∧
    ls = run (Links.step P io limit depth) ls0 evs

end

/-! ## Moves of one link -/

section
variable {P : Monocypher} {hear : Session → List UInt8 → Prop} {l l' : AuthLink}

theorem May.attended {act : Act} (h : May P hear l act) : May P (fun _ _ => True) l act := by
  cases act with
  | opened answer pkt out => exact ⟨h.1, trivial⟩
  | _ => exact h

theorem Move.attended (h : Move P hear l l') : Move P (fun _ _ => True) l l' := by
  cases h with
  | act hmay => exact .act hmay.attended
  | note => exact .note ..
  | close => exact .close _

/-- An act leaves the configuration of the connection and the bound of its control queue. -/
theorem plain_does (h : l.conn.Plain) (act : Act) : (l.does P act).conn.Plain := by
  cases act with
  | sendNext env out => exact plain_step l.conn (.sendNext env bufSize) (by simp) h
  | feed env plain source =>
    change (netchanFeed env l.conn plain (some source)).2.Plain
    rw [netchanFeed_run]
    refine run_invariant (A := fun _ st => ∀ cfg, st ≠ .config cfg)
      (fun c st hc hst => plain_step c st hst hc) h (along_of_forall fun st hst => ?_)
    simp only [feedSteps] at hst
    split at hst
    · rcases List.mem_cons.1 hst with rfl | hst
      · simp
      · obtain ⟨f, -, rfl⟩ := List.mem_map.1 hst
        simp
    · simp at hst
  | call k => exact plain_step l.conn (.call k) (by simp) h
  | chanOpen out => exact plain_step l.conn (.call (.chanOpen .reliable .send authName)) (by simp) h
  | write id msg out => exact plain_step l.conn (.call (.write id msg)) (by simp) h
  | read id out => exact plain_step l.conn (.call (.read id bufSize)) (by simp) h
  | _ => exact h

theorem plain_moves (h : Moves P hear l l') (hl : l.conn.Plain) : l'.conn.Plain := by
  induction h with
  | refl => exact hl
  | tail _ hm ih =>
    cases hm with
    | @act act hmay => exact plain_does ih act
    | note => exact ih
    | close => exact ih

end

/-! ## Moves of the two links -/

/-- The links `ls` are the ends of the relay after `ops`. -/
structure Bound (P : Monocypher) (l0 ls : Links) (ops : List Relay.Op) : Prop where
  moves : ∀ s, Moves P (fun _ _ => True) (l0 s) (ls s)
  fresh : Along Relay.step (fun r op => op.Fresh r) (.init defaults) ops
  own : ∀ op ∈ ops, ∃ s, IsOf s op
  calls : ∀ s, callsOf s ops = (ls s).log.filterMap Act.netchan
  tunnel : ∀ s, Tunnel s (ls s) (Relay.run defaults ops)

/-- A link that `auth_link_open` has filled in. -/
structure Fresh (s : Side) (l : AuthLink) : Prop where
  new : New l
  unused : l.crypto.Unused
  conn : l.conn = netchanOpen s.isServer

section
variable {P : Monocypher} {l0 ls : Links} {ops : List Relay.Op} {s : Side} {l' : AuthLink}

theorem plain_open (server : Bool) : (netchanOpen server).Plain := ⟨rfl, Nat.zero_le _⟩

theorem Bound.init (h0 : ∀ s, Fresh s (l0 s)) : Bound P l0 l0 [] := by
  refine ⟨fun _ => .refl, trivial, by simp, fun s => ?_, fun s => ⟨?_, ?_, ?_, ?_, ?_, ?_, ?_⟩⟩
  · rw [(h0 s).new.log]
    rfl
  · exact (h0 s).conn.symm
  all_goals rw [(h0 s).new.log]
  · exact fun _ => rfl
  · exact fun _ => rfl
  · rfl
  · simp
  · exact fun j hj => by cases hj
  · simp

theorem callsOf_append (s : Side) (ops ops' : List Relay.Op) :
    callsOf s (ops ++ ops') = callsOf s ops ++ callsOf s ops' := List.filterMap_append ..

theorem callsOf_apart {t : Side} (ht : t ≠ s) {ops : List Relay.Op} (h : ∀ op ∈ ops, IsOf s op) :
    callsOf t ops = [] := by
  refine List.filterMap_eq_nil_iff.2 fun op hop => ?_
  have hs := h op hop
  cases op with
  | call u k =>
    obtain rfl : u = s := hs
    exact if_neg (Ne.symm ht)
  | _ => rfl

theorem Bound.frame (h : Bound P l0 ls ops) (hm : Moves P (fun _ _ => True) (l0 s) l')
    (hc : l'.conn = (ls s).conn) (hl : l'.log = (ls s).log) :
    Bound P l0 (Function.update ls s l') ops := by
  have hcases (t : Side) : t = s ∧ Function.update ls s l' t = l' ∨
      t ≠ s ∧ Function.update ls s l' t = ls t := by
    by_cases ht : t = s
    · subst ht
      exact .inl ⟨rfl, Function.update_self ..⟩
    · exact .inr ⟨ht, Function.update_of_ne ht ..⟩
  refine ⟨fun t => ?_, h.fresh, h.own, fun t => ?_, fun t => ?_⟩ <;>
    rcases hcases t with ⟨rfl, he⟩ | ⟨ht, he⟩ <;> rw [he]
  · exact hm
  · exact h.moves t
  · rw [hl]
    exact h.calls t
  · exact h.calls t
  · exact (h.tunnel t).congr hc hl
  · exact h.tunnel t

/-- **A move of a link** is a few steps of the relay. -/
theorem Bound.move (h : Bound P l0 ls ops) (hun : P.Unlocks) (h0 : ∀ s, Fresh s (l0 s))
    (hm : Move P (Authentic P (ls s.other)) (ls s) l') :
    ∃ ops', Bound P l0 (Function.update ls s l') (ops ++ ops') := by
  have hmoves : Moves P (fun _ _ => True) (l0 s) l' := (h.moves s).tail hm.attended
  have hidle (hc : l'.conn = (ls s).conn) (hl : l'.log = (ls s).log) :
      ∃ ops', Bound P l0 (Function.update ls s l') (ops ++ ops') :=
    ⟨[], by rw [List.append_nil]; exact h.frame hmoves hc hl⟩
  cases hm with
  | note => exact hidle rfl rfl
  | close => exact hidle rfl rfl
  | @act act hmay =>
    obtain ⟨hsends, -⟩ := wire_moves (h.moves s.other) (h0 s.other).new (h0 s.other).unused
    obtain ⟨-, htakes⟩ := wire_moves (h.moves s) (h0 s).new (h0 s).unused
    have hplain : (ls s).conn.Plain :=
      plain_moves (h.moves s) ((h0 s).conn ▸ plain_open s.isServer)
    obtain ⟨ops', hf⟩ := (h.tunnel s).act (h.tunnel s.other) hun hsends htakes hplain hmay
    have hrun : Relay.run defaults (ops ++ ops') = run Relay.step (Relay.run defaults ops) ops' :=
      run_append ..
    refine ⟨ops', fun t => ?_, along_append.2 ⟨h.fresh, hf.fresh⟩, fun op hop => ?_, fun t => ?_,
      fun t => ?_⟩
    · by_cases ht : t = s
      · subst ht
        rw [Function.update_self]
        exact hmoves
      · rw [Function.update_of_ne ht]
        exact h.moves t
    · rcases List.mem_append.1 hop with hop | hop
      · exact h.own op hop
      · exact ⟨s, hf.own op hop⟩
    · rw [callsOf_append, h.calls t]
      by_cases ht : t = s
      · subst ht
        rw [Function.update_self, log_does, List.filterMap_append, hf.calls]
      · rw [Function.update_of_ne ht, callsOf_apart ht hf.own, List.append_nil]
    · rw [hrun]
      by_cases ht : t = s
      · subst ht
        rw [Function.update_self]
        exact hf.tunnel
      · obtain rfl : t = s.other := (Side.eq_or_eq_other s t).resolve_left ht
        rw [Function.update_of_ne ht]
        exact (h.tunnel s.other).apart_run hf.own

theorem Bound.steps (hun : P.Unlocks) (h0 : ∀ s, Fresh s (l0 s)) (h : Bound P l0 ls ops)
    (hm : Moves P (Authentic P (ls s.other)) (ls s) l') :
    ∃ ops', Bound P l0 (Function.update ls s l') (ops ++ ops') := by
  induction hm with
  | refl => exact ⟨[], by rw [List.append_nil, Function.update_eq_self]; exact h⟩
  | @tail b c _ hbc ih =>
    obtain ⟨ops', hb⟩ := ih
    have hhear : Function.update ls s b s.other = ls s.other := Function.update_of_ne s.other_ne ..
    have hself : Function.update ls s b s = b := Function.update_self ..
    have hmove : Move P (Authentic P (Function.update ls s b s.other))
        (Function.update ls s b s) c := by
      rw [hhear, hself]
      exact hbc
    obtain ⟨ops'', hc⟩ := hb.move hun h0 hmove
    rw [Function.update_idem, List.append_assoc] at hc
    exact ⟨_, hc⟩

end

/-! ## Runs -/

section
variable {P : Monocypher} {io : Side → Nat → Moment} {limit depth : Nat} {cfgs : Side → Cfg}
  {randoms : Side → Option Key} {evs : List (Side × Event)} {ls : Links}

/-- Links that are in use, and the relay. -/
def Live (P : Monocypher) (l0 ls : Links) : Prop :=
  (∃ ops, Bound P l0 ls ops) ∧ ∀ s, Alive (ls s)

theorem live_step (hun : P.Unlocks) {l0 : Links} (h0 : ∀ s, Fresh s (l0 s)) (h : Live P l0 ls)
    {x : Side × Event} (hx : Genuine P io ls x) : Live P l0 (ls.step P io limit depth x) := by
  obtain ⟨⟨ops, hb⟩, ha⟩ := h
  obtain ⟨hm, ha'⟩ : Moves P (Authentic P (ls x.1.other)) (ls x.1) _ ∧ Alive _ :=
    step_moves (ha x.1) hx
  obtain ⟨ops', hb'⟩ := hb.steps hun h0 hm
  refine ⟨⟨_, hb'⟩, fun t => ?_⟩
  by_cases ht : t = x.1
  · subst ht
    rw [Links.step, Function.update_self]
    exact ha'
  · rw [Links.step, Function.update_of_ne ht]
    exact ha t

theorem live_run (hun : P.Unlocks) {l0 : Links} (h0 : ∀ s, Fresh s (l0 s)) (h : Live P l0 ls)
    {evs : List (Side × Event)} (hgen : Along (Links.step P io limit depth) (Genuine P io) ls evs) :
    Live P l0 (run (Links.step P io limit depth) ls evs) :=
  run_invariant (I := Live P l0) (fun _ _ hl hx => live_step hun h0 hl hx) h hgen

theorem joined_live (hun : P.Unlocks) (h : Joined P io limit depth cfgs randoms evs ls) :
    ∃ l0 : Links, (∀ s, Fresh s (l0 s)) ∧ Live P l0 ls := by
  obtain ⟨ls0, hopen, hgen, rfl⟩ := h
  have hinit (s : Side) : ∃ l, AuthLink.init P (cfgs s) (randoms s) = some l ∧
      onTick P (io s) limit (nested P (io s) limit depth) l = ls0 s :=
    Option.map_eq_some_iff.1 (hopen s).2
  choose l0 hl0 htick using hinit
  have h0 (s : Side) : Fresh s (l0 s) := by
    obtain ⟨hnew, -, -, hconn, -⟩ := init_spec (hl0 s)
    exact ⟨hnew, unused_init (hl0 s), hconn.trans (congrArg netchanOpen (hopen s).1)⟩
  -- the first tick of each link
  have hstep (s : Side) : (l0 s).step P (io s) limit depth .tick = ls0 s := by
    rw [AuthLink.step, if_neg (by rw [(h0 s).new.closing]; decide)]
    exact htick s
  have hlive : Live P l0 l0 := ⟨⟨[], .init h0⟩, fun s _ => (h0 s).new.fine⟩
  have hticks : Live P l0 (run (Links.step P io limit depth) l0 [(.client, .tick), (.server, .tick)]) :=
    live_run hun h0 hlive ⟨trivial, trivial, trivial⟩
  have hls0 : run (Links.step P io limit depth) l0 [(.client, .tick), (.server, .tick)] = ls0 := by
    funext s
    cases s with
    | client => exact hstep .client
    | server => exact hstep .server
  rw [hls0] at hticks
  exact ⟨l0, h0, live_run hun h0 hticks hgen⟩

/-- **Two links are a connection over a network that delivers each datagram once at most**: whatever
reaches them, unless somebody forges, the netchan connections under them are the ends of a world whose
applications make the calls that the links' logs show. -/
theorem links_refine (hun : P.Unlocks) (h : Joined P io limit depth cfgs randoms evs ls) :
    ∃ ops, Along Relay.step (fun r op => op.Fresh r) (.init defaults) ops ∧
      (∃ wops, (Relay.run defaults ops).toWorld = World.run defaults wops) ∧
      ∀ s, (Relay.run defaults ops).conn s = (ls s).conn ∧
        callsOf s ops = (ls s).log.filterMap Act.netchan ∧
        (∀ id, (Relay.run defaults ops).log.written s id = writtenOn id (ls s).log) ∧
        ∀ id, (Relay.run defaults ops).read s id = readOn id (ls s).log := by
  obtain ⟨l0, h0, ⟨ops, hb⟩, -⟩ := joined_live hun h
  exact ⟨ops, hb.fresh, (relay_real defaults ops).world, fun s =>
    ⟨(hb.tunnel s).conn, hb.calls s, (hb.tunnel s).written, (hb.tunnel s).read⟩⟩

end

/-! ## An exchange -/

theorem sealed_mem {peer : AuthLink} {pkt : List UInt8} :
    (sealedOut peer.log).any (fun o => decide (o.2 = pkt)) = true ↔
      ∃ plain, (plain, pkt) ∈ sealedOut peer.log := by
  rw [List.any_eq_true]
  constructor
  · rintro ⟨⟨plain, pkt'⟩, hmem, he⟩
    exact ⟨plain, of_decide_eq_true he ▸ hmem⟩
  · exact fun ⟨plain, hmem⟩ => ⟨_, hmem, decide_eq_true rfl⟩

instance decidableAuthentic (P : Monocypher) (peer : AuthLink) (c : Session) (pkt : List UInt8) :
    Decidable (Authentic P peer c pkt) :=
  have : Decidable (∃ plain, (plain, pkt) ∈ sealedOut peer.log) :=
    decidable_of_iff _ sealed_mem
  inferInstanceAs (Decidable (_ → _ → _ → _ ∧ _))

instance decidableAttended {P : Monocypher} {hear : Session → List UInt8 → Prop}
    [∀ c pkt, Decidable (hear c pkt)] {io : Nat → Moment} :
    ∀ (ds : List Datagram) (l : AuthLink), Decidable (Attended P hear io ds l)
  | [], _ => .isTrue trivial
  | d :: ds, l =>
    have : Decidable (Attended P hear io ds (recvOne P io d l).2) := decidableAttended ds _
    inferInstanceAs (Decidable (_ ∧ (_ → _)))

instance decidableGenuine (P : Monocypher) (io : Side → Nat → Moment) (ls : Links) :
    ∀ x, Decidable (Genuine P io ls x)
  | (_, .readable _) => inferInstanceAs (Decidable (Attended ..))
  | (_, .tick) | (_, .cmd _) | (_, .close) => .isTrue trivial

/-- The links in turn are given all that the other one has sent since, twice; `seen` counts what they
were given. -/
def sampleExchange : Nat → Side → Links → (Side → Nat) → List (Side × Event)
  | 0, _, _, _ => []
  | n + 1, s, ls, seen =>
    let out := sentOut (ls s.other).log
    let ds := (out.drop (seen s)).map fun pkt => ⟨pkt, samplePeer⟩
    let x : Side × Event := (s, .readable (ds ++ ds))
    x :: sampleExchange n s.other (ls.step sampleMonocypher sampleIo 8 4 x)
      (Function.update seen s out.length)

/-- The events of an exchange with `n` turns. -/
def sampleTurns (n : Nat) : List (Side × Event) := sampleExchange n .server sampleLink fun _ => 0

def sampleLinks (n : Nat) : Links :=
  run (Links.step sampleMonocypher sampleIo 8 4) sampleLink (sampleTurns n)

theorem sample_joined {n : Nat} (h : Along (Links.step sampleMonocypher sampleIo 8 4)
    (Genuine sampleMonocypher sampleIo) sampleLink (sampleTurns n)) :
    Joined sampleMonocypher sampleIo 8 4 sampleCfg sampleRandom (sampleTurns n) (sampleLinks n) :=
  ⟨sampleLink, fun s => ⟨by cases s <;> rfl, (Option.some_get (sample_opens s)).symm⟩, h, rfl⟩

/-- A client and a server that have connected. -/
theorem links_refine_sample : ((sampleLinks 4) .client).conn.state = .connected ∧
    ∃ ops, ∀ s, (Relay.run defaults ops).conn s = (sampleLinks 4 s).conn := by
  obtain ⟨ops, -, -, h⟩ := links_refine sample_unlocks (sample_joined (n := 4) (by decide +kernel))
  exact ⟨by decide +kernel, ops, fun s => (h s).1⟩

end Netchan.Link
