import Netchan.Link.Wire
import Netchan.Pair.Relay

/-!
# Two links

Two authenticated links, a client and a server, and whoever is between them. Which datagrams reach
them is not restricted, but that nobody forges one (`Authentic`).

`Tunnel` relates a link to one end of a `Relay`: the two have the same netchan connection, what was
sealed is what the relay numbers, and what was opened is what it delivers. Every move of a link is a
few steps of the relay (`tunnel_move`), and the replay window of nc_crypto is the relay's
(`links_refine`).
-/

namespace Netchan.Link

open Lib Crypto Transport

/-! ## What a link wrote and read -/

/-- The messages that netchan took from the link on a channel. -/
def writtenOn (id : ChanId) (log : List Act) : List (List UInt8) :=
  log.filterMap fun
    | .write j msg (.ok n) => if j = id ∧ n ≠ 0 then some msg else none
    | _ => none

/-- The messages that the link read from a channel. -/
def readOn (id : ChanId) (log : List Act) : List (List UInt8) :=
  log.filterMap fun
    | .read j (.ok (b :: msg)) => if j = id then some (b :: msg) else none
    | _ => none

theorem writtenOn_append (id : ChanId) (log log' : List Act) :
    writtenOn id (log ++ log') = writtenOn id log ++ writtenOn id log' :=
  List.filterMap_append ..

theorem readOn_append (id : ChanId) (log log' : List Act) :
    readOn id (log ++ log') = readOn id log ++ readOn id log' :=
  List.filterMap_append ..

/-! ## A link and an end of a relay -/

/-- A counter that was opened. -/
def Opens (log : List Act) (j : Nat) : Prop := ∃ o ∈ openedIn log, rd64be o.1 1 = .ofNat (j + 1)

/-- A datagram that the link may be given now. -/
def Waits (s : Side) (log : List Act) (r : Relay) (plain : List UInt8) : Prop :=
  ∃ i p, (r.sent s.other)[i]? = some p ∧ p.bytes = plain ∧
    (i ∉ r.heard s ∧ ∀ j ∈ r.heard s, j < i + Relay.window) ∧ Opens log i

/-- The link is the end `s` of the relay. -/
structure Tunnel (s : Side) (l : AuthLink) (r : Relay) : Prop where
  conn : r.conn s = l.conn
  written : ∀ id, r.log.written s id = writtenOn id l.log
  read : ∀ id, r.read s id = readOn id l.log
  sent : (r.sent s).map Packet.bytes = (sealedOut l.log).map Prod.fst
  filled : ∀ env plain dest, l.log.getLast? = some (.sendNext env (some (plain, dest))) →
    ((r.net s.other).getLast?.map Packet.bytes) = some plain
  heard : ∀ j ∈ r.heard s, j < (r.sent s.other).length ∧ Opens l.log j
  ready : ∀ answer pkt b plain, l.log.getLast? = some (.opened answer pkt (some (b :: plain))) →
    Waits s l.log r (b :: plain)

section
variable {P : Monocypher} {hear : Session → List UInt8 → Prop} {s : Side} {l l' : AuthLink}
  {r : Relay}

/-- Only the connection and the log matter. -/
theorem Tunnel.congr (h : Tunnel s l r) (hc : l'.conn = l.conn) (hl : l'.log = l.log) :
    Tunnel s l' r := by
  obtain ⟨h1, h2, h3, h4, h5, h6, h7⟩ := h
  refine ⟨hc ▸ h1, ?_, ?_, ?_, ?_, ?_, ?_⟩ <;> rw [hl] <;> assumption

theorem openedIn_mem {o : List UInt8 × List UInt8} (h : o ∈ openedIn l.log) (act : Act) :
    o ∈ openedIn (l.does P act).log := by
  rw [openedIn_does]
  exact List.mem_append_left _ h

theorem Tunnel.next (h : Tunnel s l r) {r' : Relay} {act : Act}
    (hconn : r'.conn s = (l.does P act).conn)
    (hw : ∀ id, r'.log.written s id = r.log.written s id ++ writtenOn id [act])
    (hr : ∀ id, r'.read s id = r.read s id ++ readOn id [act])
    (hs : (r'.sent s).map Packet.bytes = (r.sent s).map Packet.bytes ++ (sealedOut [act]).map Prod.fst)
    (hother : r'.sent s.other = r.sent s.other)
    (hheard : ∀ j ∈ r'.heard s, j ∈ r.heard s ∨ j < (r.sent s.other).length ∧ Opens l.log j)
    (hfill : ∀ env plain dest, act = .sendNext env (some (plain, dest)) →
      (r'.net s.other).getLast?.map Packet.bytes = some plain)
    (hready : ∀ answer pkt b plain, act = .opened answer pkt (some (b :: plain)) →
      Waits s (l.does P act).log r' (b :: plain)) : Tunnel s (l.does P act) r' := by
  have hopens (j : Nat) (hj : Opens l.log j) : Opens (l.does P act).log j := by
    obtain ⟨o, ho, hn⟩ := hj
    exact ⟨o, openedIn_mem ho act, hn⟩
  refine ⟨hconn, fun id => ?_, fun id => ?_, ?_, ?_, ?_, ?_⟩
  · rw [hw, h.written, log_does, writtenOn_append]
  · rw [hr, h.read, log_does, readOn_append]
  · rw [hs, h.sent, sealedOut_does, List.map_append]
  · rw [getLast_does]
    exact fun env plain dest he => hfill env plain dest (Option.some.inj he)
  · rw [hother]
    intro j hj
    have hj : j < (r.sent s.other).length ∧ Opens l.log j := (hheard j hj).elim (h.heard j) id
    exact ⟨hj.1, hopens j hj.2⟩
  · rw [getLast_does]
    exact fun answer pkt b plain he => hready answer pkt b plain (Option.some.inj he)

/-- Acts that neither fill a datagram nor open one. -/
def Act.Settled : Act → Prop
  | .sendNext _ (some _) | .opened _ _ (some (_ :: _)) => False
  | _ => True

theorem Act.Settled.fills {act : Act} (h : act.Settled) (env : Netchan.Env) (plain : List UInt8)
    (dest : Addr) : act ≠ .sendNext env (some (plain, dest)) := by
  rintro rfl
  exact h

theorem Act.Settled.opens {act : Act} (h : act.Settled) (answer : Option Key → Bool)
    (pkt : List UInt8) (b : UInt8) (plain : List UInt8) :
    act ≠ .opened answer pkt (some (b :: plain)) := by
  rintro rfl
  exact h

theorem Tunnel.idle (h : Tunnel s l r) {act : Act} (hconn : (l.does P act).conn = l.conn)
    (hw : ∀ id, writtenOn id [act] = []) (hr : ∀ id, readOn id [act] = [])
    (hs : sealedOut [act] = []) (hact : act.Settled) : Tunnel s (l.does P act) r := by
  refine h.next (h.conn.trans hconn.symm) (fun id => ?_) (fun id => ?_) ?_ rfl (fun _ => .inl)
    (fun _ _ _ he => (hact.fills _ _ _ he).elim) fun _ _ _ _ he => (hact.opens _ _ _ _ he).elim
  · rw [hw, List.append_nil]
  · rw [hr, List.append_nil]
  · rw [hs, List.map_nil, List.append_nil]

theorem Tunnel.call (h : Tunnel s l r) {act : Act} {k : Netchan.Call}
    (hconn : (l.does P act).conn = k.apply l.conn)
    (hw : ∀ id, (r.log.called s (r.conn s) k).written s id =
      r.log.written s id ++ writtenOn id [act])
    (hr : ∀ id, r.readBy s k s id = r.read s id ++ readOn id [act])
    (hs : sealedOut [act] = []) (hact : act.Settled) :
    Tunnel s (l.does P act) (r.step (.call s k)) := by
  refine h.next ?_ hw hr ?_ rfl (fun _ => .inl) (fun _ _ _ he => (hact.fills _ _ _ he).elim)
    fun _ _ _ _ he => (hact.opens _ _ _ _ he).elim
  · rw [hconn, ← h.conn]
    exact Function.update_self ..
  · rw [hs, List.map_nil, List.append_nil]
    rfl

theorem Tunnel.sendNext (h : Tunnel s l r) (env : Netchan.Env) :
    Tunnel s (l.does P (.sendNext env (netchanSendNext env l.conn bufSize).2))
      (r.step (.send s env bufSize)) := by
  obtain ⟨hconn, hw, hnet⟩ := r.toWorld.transmit_spec s env bufSize
  rw [h.conn] at hconn hnet
  refine h.next ?_ (fun id => ?_) (fun id => (List.append_nil _).symm) ?_ rfl (fun _ => .inl) ?_
    (by simp)
  · exact (congrFun hconn s).trans (Function.update_self ..)
  · exact (congrFun (congrFun hw s) id).trans (List.append_nil _).symm
  · exact (List.append_nil _).symm
  · intro env' plain dest he
    obtain ⟨-, he⟩ := Act.sendNext.inj he
    rcases hnet with ⟨hnone, -⟩ | ⟨bytes, dest', hsome, hnet⟩
    · rw [hnone] at he
      cases he
    · rw [hsome] at he
      obtain ⟨rfl, -⟩ := Prod.mk.inj (Option.some.inj he)
      have : (r.step (.send s env bufSize)).net s.other = r.net s.other ++ [⟨bytes, r.log⟩] :=
        (congrFun hnet s.other).trans (Function.update_self ..)
      rw [this, List.getLast?_concat]
      rfl

theorem Tunnel.sealed (h : Tunnel s l r) {plain pkt : List UInt8} {env : Netchan.Env} {dest : Addr}
    (hlast : l.log.getLast? = some (.sendNext env (some (plain, dest)))) :
    Tunnel s (l.does P (.sealed plain (some pkt))) (r.step (.post s)) := by
  obtain ⟨p, hp, hbytes⟩ := Option.map_eq_some_iff.1 (h.filled env plain dest hlast)
  have hsent : (r.step (.post s)).sent s = r.sent s ++ [p] := by
    simp only [Relay.step, hp, Option.toList_some, Function.update_self]
  refine h.next h.conn (fun id => (List.append_nil _).symm) (fun id => (List.append_nil _).symm) ?_
    (Function.update_of_ne s.other_ne ..) (fun _ => .inl) (by simp) (by simp)
  rw [hsent, List.map_append, List.map_singleton, hbytes]
  rfl

theorem Tunnel.feed (h : Tunnel s l r) {env : Netchan.Env} {plain : List UInt8} {source : Addr}
    {b : UInt8} {answer : Option Key → Bool} {pkt : List UInt8}
    (hlast : l.log.getLast? = some (.opened answer pkt (some (b :: plain)))) :
    ∃ i, (Relay.Op.take s i env (some source)).Fresh r ∧
      Tunnel s (l.does P (.feed env (b :: plain) source)) (r.step (.take s i env (some source))) := by
  obtain ⟨i, p, hp, hbytes, hfresh, hopen⟩ := h.ready answer pkt b plain hlast
  refine ⟨i, hfresh, ?_⟩
  have hstep : r.step (.take s i env (some source)) =
      { r with toWorld := r.toWorld.receive s p env (some source)
               heard := Function.update r.heard s (r.heard s ++ [i]) } := by
    simp only [Relay.step, hp]
  rw [hstep]
  refine h.next ?_ (fun id => ?_) (fun id => (List.append_nil _).symm) (List.append_nil _).symm rfl
    (fun j hj => ?_) (by simp) (by simp)
  · refine (Function.update_self ..).trans ?_
    rw [hbytes, h.conn]
    rfl
  · rw [World.receive_written]
    exact (List.append_nil _).symm
  · simp only [Function.update_self] at hj
    rcases List.mem_append.1 hj with hj | hj
    · exact .inl hj
    · obtain rfl := List.mem_singleton.1 hj
      exact .inr ⟨(List.getElem?_eq_some_iff.1 hp).1, hopen⟩

theorem Tunnel.write (h : Tunnel s l r) (id : ChanId) (msg : List UInt8) :
    Tunnel s (l.does P (.write id msg (netchanChanWrite l.conn id msg).1))
      (r.step (.call s (.write id msg))) := by
  refine h.call rfl (fun j => ?_) (fun _ => (List.append_nil _).symm) rfl trivial
  rw [h.conn]
  have hout : writtenOn j [.write id msg (netchanChanWrite l.conn id msg).1] =
      if id = j ∧ writeAccepted l.conn id msg = true then [msg] else [] := by
    unfold writeAccepted writtenOn
    rcases (netchanChanWrite l.conn id msg).1 with e | n
    · simp
    · by_cases hn : id = j ∧ n ≠ 0 <;> simp [hn]
  rw [hout]
  by_cases ha : writeAccepted l.conn id msg = true
  · rw [(Log.called_messages ..).2.2.1 id msg rfl ha]
    by_cases hj : id = j
    · subst hj
      rw [onChan_same, if_pos ⟨rfl, ha⟩]
    · rw [onChan_of_id _ _ _ _ _ (Ne.symm hj), if_neg fun hc => hj hc.1, List.append_nil]
  · rw [Log.called_written _ _ _ _ _ _ fun _ data he => ?_, if_neg fun hc => ha hc.2, List.append_nil]
    cases he
    simpa using ha

theorem Tunnel.read_next (h : Tunnel s l r) (id : ChanId) :
    Tunnel s (l.does P (.read id (netchanChanRead l.conn id bufSize).1))
      (r.step (.call s (.read id bufSize))) := by
  refine h.call rfl (fun _ => (List.append_nil _).symm) (fun j => ?_) rfl trivial
  have hout : readOn j [.read id (netchanChanRead l.conn id bufSize).1] =
      if j = id then messageRead l.conn id bufSize else [] := by
    unfold messageRead readOn
    rcases (netchanChanRead l.conn id bufSize).1 with e | m
    · simp
    · cases m with
      | nil => simp
      | cons b m =>
        by_cases hj : id = j
        · simp [hj]
        · simp [hj, Ne.symm hj]
  simp only [Relay.readBy, h.conn]
  rw [hout]
  by_cases hj : j = id
  · subst hj
    rw [onChan_same, if_pos rfl]
  · rw [onChan_of_id _ _ _ _ _ hj, if_neg hj, List.append_nil]

/-- A call of netchan that neither writes nor reads. -/
theorem Tunnel.call_plain (h : Tunnel s l r) {act : Act} {k : Netchan.Call}
    (hconn : (l.does P act).conn = k.apply l.conn) (hw : ∀ id msg, k ≠ .write id msg)
    (hr : ∀ id buflen, k ≠ .read id buflen) (hw' : ∀ id, writtenOn id [act] = [])
    (hr' : ∀ id, readOn id [act] = []) (hs : sealedOut [act] = []) (hact : act.Settled) :
    Tunnel s (l.does P act) (r.step (.call s k)) := by
  refine h.call hconn (fun id => ?_) (fun id => ?_) hs hact
  · rw [Log.called_written _ _ _ _ _ _ fun _ data he => absurd he (hw id data), hw', List.append_nil]
  · rw [hr', List.append_nil]
    cases k with
    | read j buflen => exact absurd rfl (hr j buflen)
    | _ => rfl

/-! ### A packet is opened -/

/-- Nobody forges: a DATA packet that decrypts under the key of the session is one that the peer
sealed under this key. -/
def Authentic (P : Monocypher) (peer : AuthLink) (c : Session) (pkt : List UInt8) : Prop :=
  byte pkt 0 = ncCryptoData → ncCryptoOverhead ≤ pkt.length →
    P.aeadUnlock c.rxKey (nonceOf (rd64be pkt 1)) (bytesAt 16 pkt 9)
        (pkt.drop ncCryptoOverhead) ≠ none →
    peer.crypto.txKey = c.rxKey ∧ ∃ plain, (plain, pkt) ∈ sealedOut peer.log

theorem rd64be_sealed (key : Key) (n : UInt64) (plain : List UInt8) :
    rd64be (Crypto.sealed P key n plain) 1 = n := by
  unfold Crypto.sealed
  dsimp only
  rw [List.append_assoc]
  exact rd64be_wr64be ..

theorem unlock_sealed (hun : P.Unlocks) (key : Key) (n : UInt64) (plain : List UInt8) :
    P.aeadUnlock key (nonceOf (rd64be (Crypto.sealed P key n plain) 1))
      (bytesAt 16 (Crypto.sealed P key n plain) 9)
      ((Crypto.sealed P key n plain).drop ncCryptoOverhead) = some plain := by
  rw [rd64be_sealed]
  have hlen : (wr64be n).length = 8 := by simp [wr64be]
  have hmac : bytesAt 16 (Crypto.sealed P key n plain) 9 = (P.aeadLock key (nonceOf n) plain).1 := by
    have h := bytesAt_append (ncCryptoData :: wr64be n) (P.aeadLock key (nonceOf n) plain).1
      (P.aeadLock key (nonceOf n) plain).2
    rw [List.length_cons, hlen] at h
    rw [← h]
    unfold Crypto.sealed
    dsimp only
    rw [List.append_assoc, List.cons_append]
  have hct : (Crypto.sealed P key n plain).drop ncCryptoOverhead =
      (P.aeadLock key (nonceOf n) plain).2 := by
    have hall : (ncCryptoData :: (wr64be n ++ (P.aeadLock key (nonceOf n) plain).1.val)).length =
        ncCryptoOverhead := by
      rw [List.length_cons, List.length_append, hlen, (P.aeadLock key (nonceOf n) plain).1.property]
    rw [← hall]
    exact List.drop_left ..
  rw [hmac, hct]
  exact hun key _ plain

/-- **A packet that is opened is one that the relay may deliver**: the peer's packet of its number,
which was not delivered yet, and none 64 numbers newer was. -/
theorem Tunnel.opened (h : Tunnel s l r) {m : AuthLink} (hm : Tunnel s.other m r) (hun : P.Unlocks)
    (hs : Sends P m) (ht : Takes P l) {answer : Option Key → Bool} {pkt : List UInt8}
    {out : Option (List UInt8)} (hmay : May P (Authentic P m) l (.opened answer pkt out)) :
    Tunnel s (l.does P (.opened answer pkt out)) r := by
  have hopen := ht.open hmay
  obtain ⟨hout, hauth⟩ := hmay
  by_cases hact : (Act.opened answer pkt out).Settled
  · exact h.idle rfl (fun _ => rfl) (fun _ => rfl) rfl hact
  obtain ⟨b, plain, rfl⟩ : ∃ b plain, out = some (b :: plain) := by
    cases out with
    | none => exact absurd trivial hact
    | some p =>
      cases p with
      | nil => exact absurd trivial hact
      | cons b plain => exact ⟨b, plain, rfl⟩
  refine h.next h.conn (fun _ => (List.append_nil _).symm) (fun _ => (List.append_nil _).symm)
    (List.append_nil _).symm rfl (fun _ => .inl) (by simp) ?_
  intro answer' pkt' b' plain' he
  cases he
  rcases open_cases P answer l.crypto pkt bufSize with
    ⟨p, c, he, h0, hlen, -, hdec, hre⟩ | ⟨c, acts, he, -⟩ | he
  · rw [he] at hout
    obtain rfl := Option.some.inj hout
    obtain ⟨hkey, p', hmem⟩ := hauth h0 hlen (by rw [hdec]; simp)
    obtain ⟨i, hi⟩ := List.getElem?_of_mem hmem
    obtain ⟨-, hpkt, -⟩ := hs.numbered i p' pkt hi
    -- what came out is what the peer put in
    have hplain : p' = b :: plain := by
      rw [← hkey, hpkt, unlock_sealed hun] at hdec
      exact Option.some.inj hdec
    have hsent : (r.sent s.other)[i]?.map Packet.bytes = some (b :: plain) := by
      rw [← List.getElem?_map, hm.sent, List.getElem?_map, hi, ← hplain]
      rfl
    obtain ⟨q, hq, hbytes⟩ := Option.map_eq_some_iff.1 hsent
    have hcount : rd64be pkt 1 = .ofNat (i + 1) := by
      rw [hpkt]
      exact rd64be_sealed ..
    have hopens : Opens (l.does P (.opened answer pkt (some (b :: plain)))).log i := by
      refine ⟨(pkt, b :: plain), ?_, hcount⟩
      rw [openedIn_does]
      exact List.mem_append_right _ (by simp [openedIn, h0])
    refine ⟨i, q, hq, hbytes, ?_, hopens⟩
    -- the numbers of the relay are the counters of the packets, less one
    have hlen' : (r.sent s.other).length = (sealedOut m.log).length := by
      have := congrArg List.length hm.sent
      simpa using this
    have hbound : (sealedOut m.log).length < 2 ^ 64 := hs.count ▸ m.crypto.txCounter.toNat_lt
    have hnum (j : Nat) (hj : j < (r.sent s.other).length) : (UInt64.ofNat (j + 1)).toNat = j + 1 :=
      UInt64.toNat_ofNat_of_lt' (by simp only [UInt64.size]; omega)
    have hlt : i < (r.sent s.other).length := (List.getElem?_eq_some_iff.1 hq).1
    obtain ⟨-, hnew, hwin⟩ := (replay_takes ht.exact).1 (by rw [hre]; rfl)
    rw [hcount] at hnew hwin
    rw [hnum i hlt] at hwin
    have hseen (j : Nat) (hj : j ∈ r.heard s) :
        UInt64.ofNat (j + 1) ∈ (openedIn l.log).map fun o => rd64be o.1 1 := by
      obtain ⟨-, o, ho, hn⟩ := h.heard j hj
      exact List.mem_map.2 ⟨o, ho, hn⟩
    refine ⟨fun hi => hnew (hseen i hi), fun j hj => ?_⟩
    have hmax := (ht.exact.le _ (hseen j hj)).2
    rw [hnum j (h.heard j hj).1] at hmax
    simp only [Relay.window]
    omega
  · rw [he] at hout
    cases hout
  · rw [he] at hout
    cases hout

/-! ### What an end does, seen from the other -/

/-- A step of the end `s`, with the link's buffer. -/
def IsOf (s : Side) : Relay.Op → Prop
  | .call t _ | .post t | .take t _ _ _ => t = s
  | .send t _ buflen => t = s ∧ buflen = bufSize

/-- What an end does leaves the other one where it is. -/
theorem Tunnel.apart (h : Tunnel s.other l r) {op : Relay.Op} (hop : IsOf s op) :
    Tunnel s.other l (r.step op) := by
  have hgrow {r' : Relay} (hconn : r'.conn s.other = r.conn s.other)
      (hw : r'.log.written s.other = r.log.written s.other) (hr : r'.read s.other = r.read s.other)
      (hs : r'.sent s.other = r.sent s.other) (hs' : r.sent s <+: r'.sent s)
      (hn : r'.net s = r.net s) (hh : r'.heard s.other = r.heard s.other) : Tunnel s.other l r' := by
    obtain ⟨h1, h2, h3, h4, h5, h6, h7⟩ := h
    simp only [Waits, Side.other_other] at h5 h6 h7
    refine ⟨hconn.trans h1, fun id => hw ▸ h2 id, fun id => hr ▸ h3 id, hs ▸ h4, ?_, ?_, ?_⟩ <;>
      simp only [Waits, Side.other_other]
    · rw [hn]
      exact h5
    · rw [hh]
      exact fun j hj => ⟨Nat.lt_of_lt_of_le (h6 j hj).1 hs'.length_le, (h6 j hj).2⟩
    · rw [hh]
      intro answer pkt b plain he
      obtain ⟨i, p, hp, hrest⟩ := h7 answer pkt b plain he
      exact ⟨i, p, getElem?_of_prefix hs' hp, hrest⟩
  have hne : s.other ≠ s := s.other_ne
  cases op with
  | call t k =>
    obtain rfl : t = s := hop
    refine hgrow (Function.update_of_ne hne ..) (funext fun id => ?_) (funext fun id => ?_) rfl
      List.prefix_rfl rfl rfl
    · exact Log.called_written _ _ _ _ _ _ fun he => absurd he hne
    · cases k with
      | read j buflen => exact onChan_of_side _ _ _ _ hne id
      | _ => rfl
  | send t env buflen =>
    obtain ⟨rfl, -⟩ : t = s ∧ buflen = bufSize := hop
    obtain ⟨hconn, hw, hnet⟩ := r.toWorld.transmit_spec t env buflen
    refine hgrow ?_ (by rw [← hw]; rfl) rfl rfl List.prefix_rfl ?_ rfl
    · exact (congrFun hconn t.other).trans (Function.update_of_ne hne ..)
    · rcases hnet with ⟨-, hnet⟩ | ⟨bytes, dest, -, hnet⟩
      · exact congrFun hnet t
      · exact (congrFun hnet t).trans (Function.update_of_ne hne.symm ..)
  | post t =>
    obtain rfl : t = s := hop
    refine hgrow rfl rfl rfl (Function.update_of_ne hne ..) ?_ rfl rfl
    simp only [Relay.step, Function.update_self]
    exact List.prefix_append ..
  | take t i env source =>
    obtain rfl : t = s := hop
    simp only [Relay.step]
    split
    · exact h
    · exact hgrow (Function.update_of_ne hne ..) (by rw [World.receive_written]) rfl rfl
        List.prefix_rfl rfl (Function.update_of_ne hne ..)

theorem Tunnel.apart_run : ∀ {ops : List Relay.Op} {r : Relay}, Tunnel s.other l r →
    (∀ op ∈ ops, IsOf s op) → Tunnel s.other l (run Relay.step r ops)
  | [], _, h, _ => h
  | op :: _, _, h, hops =>
    (h.apart (hops op (.head _))).apart_run fun op' hop' => hops op' (.tail _ hop')

/-! ### Every act -/

/-- The call of netchan that an act is. -/
def Act.netchan : Act → Option Netchan.Call
  | .call k => some k
  | .chanOpen _ => some (.chanOpen .reliable .send authName)
  | .write id msg _ => some (.write id msg)
  | .read id _ => some (.read id bufSize)
  | _ => none

/-- The calls of netchan in a run of the relay. -/
def callsOf (s : Side) (ops : List Relay.Op) : List Netchan.Call :=
  ops.filterMap fun
    | .call t k => if t = s then some k else none
    | _ => none

/-- What the relay does for an act that leads to `l'`. -/
structure Follows (s : Side) (act : Act) (l' : AuthLink) (r : Relay) (ops : List Relay.Op) : Prop where
  own : ∀ op ∈ ops, IsOf s op
  fresh : Along Relay.step (fun r op => op.Fresh r) r ops
  calls : callsOf s ops = [act].filterMap Act.netchan
  tunnel : Tunnel s l' (run Relay.step r ops)

/-- **An act is a step of the relay**, or nothing to it. -/
theorem Tunnel.act (h : Tunnel s l r) {m : AuthLink} (hm : Tunnel s.other m r) (hun : P.Unlocks)
    (hs : Sends P m) (ht : Takes P l) (hplain : l.conn.Plain) {act : Act}
    (hmay : May P (Authentic P m) l act) : ∃ ops, Follows s act (l.does P act) r ops := by
  have hnone (hcalls : act.netchan = none) (ht : Tunnel s (l.does P act) r) :
      ∃ ops, Follows s act (l.does P act) r ops :=
    ⟨[], by simp, trivial, by simp [callsOf, hcalls], ht⟩
  have hcall {k : Netchan.Call} (hcalls : act.netchan = some k)
      (ht : Tunnel s (l.does P act) (r.step (.call s k))) :
      ∃ ops, Follows s act (l.does P act) r ops :=
    ⟨[.call s k], by simp [IsOf], ⟨trivial, trivial⟩, by simp [callsOf, hcalls], ht⟩
  have hone (op : Relay.Op) (hop : IsOf s op) (hfresh : op.Fresh r) (hcalls : act.netchan = none)
      (hnocall : callsOf s [op] = []) (ht : Tunnel s (l.does P act) (r.step op)) :
      ∃ ops, Follows s act (l.does P act) r ops :=
    ⟨[op], by simpa using hop, ⟨hfresh, trivial⟩, by simp [hnocall, hcalls], ht⟩
  cases act with
  | sendNext env out =>
    obtain rfl : out = _ := hmay
    refine hone (.send s env bufSize) ⟨rfl, rfl⟩ ?_ rfl rfl (h.sendNext env)
    exact plain_whole (h.conn ▸ hplain) (by decide)
  | sealed plain out =>
    obtain ⟨-, env, dest, hlast⟩ := hmay
    cases out with
    | none => exact hnone rfl (h.idle rfl (fun _ => rfl) (fun _ => rfl) rfl trivial)
    | some pkt => exact hone (.post s) rfl trivial rfl rfl (h.sealed hlast)
  | opened answer pkt out => exact hnone rfl (h.opened hm hun hs ht hmay)
  | feed env plain source =>
    obtain ⟨hne, answer, pkt, hlast⟩ := hmay
    obtain ⟨b, plain, rfl⟩ := List.exists_cons_of_ne_nil hne
    obtain ⟨i, hfresh, hfeed⟩ := h.feed hlast
    exact hone (.take s i env (some source)) rfl hfresh rfl rfl hfeed
  | call k =>
    refine hcall rfl (h.call_plain rfl ?_ ?_ (fun _ => rfl) (fun _ => rfl) rfl trivial)
    · rintro id msg rfl
      exact hmay
    · rintro id buflen rfl
      exact hmay
  | chanOpen out =>
    exact hcall rfl (h.call_plain rfl (by simp) (by simp) (fun _ => rfl) (fun _ => rfl) rfl trivial)
  | write id msg out =>
    obtain ⟨rfl, -⟩ := hmay
    exact hcall rfl (h.write id msg)
  | read id out =>
    obtain rfl : out = _ := hmay
    exact hcall rfl (h.read_next id)
  | _ => exact hnone rfl (h.idle rfl (fun _ => rfl) (fun _ => rfl) rfl trivial)

end

end Netchan.Link
