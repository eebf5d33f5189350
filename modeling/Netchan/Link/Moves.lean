import Netchan.Crypto.Sealed
import Netchan.Link.Core
import Mathlib.Logic.Relation

/-!
# The moves of a link

`May` says what holds when the link makes a call, of a layer or to the outside. A `Move` is one such
call, or a change of the link's own notes. Every function of `auth_link.c` is a sequence of moves, so
what every move keeps holds along every run.

`Quiet` is a sequence of moves that leaves the login and its reports alone: what the functions do
that send and receive.
-/

namespace Netchan.Link

open Lib Crypto Transport

/-- Success was reported, or an end. -/
def Calm (l : AuthLink) : Prop := l.auth.state = .ok → l.up = true ∨ l.down = true

/-- The calls of nc_auth by which the application answers. -/
def IsAnswer (c : Auth.ClientCall) : Prop :=
  match c with
  | .feed _ => False
  | .resumePending _ => False
  | _ => True

/-- Why the link reports an end. -/
def Cause (l : AuthLink) : Reason → Prop
  | .peer => True
  | .auth => l.auth.state = .denied
  | .hostkey => l.crypto.failed = true

/-- When the link makes a call of netchan that exchanges no datagram. -/
def MayCall (l : AuthLink) : Netchan.Call → Prop
  | .connect _ addr => l.server = false ∧ l.crypto.haveKey = true ∧ addr = l.peer
  | .accept => l.server = true ∧ ∃ env plain source, l.log.getLast? = some (.feed env plain source)
  | .disconnect => l.crypto.haveKey = true
  | .service _ _ | .poll => True
  | .chanOpen .. | .chanClose _ | .write .. | .read .. => False

section
variable (P : Monocypher) (hear : Session → List UInt8 → Prop)

/-- When the link makes a call. `hear` says which datagrams reach it. -/
def May (l : AuthLink) : Act → Prop
  | .sendNext env out => out = (netchanSendNext env l.conn bufSize).2
  | .sealed plain out => out = (ncCryptoSeal P l.crypto plain sealedSize).1 ∧
      ∃ env dest, l.log.getLast? = some (.sendNext env (some (plain, dest)))
  | .sendto pkt _ => (∃ plain, l.log.getLast? = some (.sealed plain (some pkt))) ∨
      ncCryptoHandshakePacket l.crypto ncCryptoHelloLen = some pkt
  | .opened answer pkt out => out = (ncCryptoOpen P answer l.crypto pkt bufSize).1 ∧ hear l.crypto pkt
  | .feed _ plain _ => plain ≠ [] ∧
      ∃ answer pkt, l.log.getLast? = some (.opened answer pkt (some plain))
  | .call k => MayCall l k
  | .chanOpen out => l.tx = none ∧ out = (netchanChanOpen l.conn .reliable .send authName).1
  | .write id msg out => out = (netchanChanWrite l.conn id msg).1 ∧ l.tx = some id ∧
      ∃ tag data, msg = tag :: data ∧ msg.length ≤ bufSize ∧
        (tag = tagAuth ∧ l.authStarted = true ∨ tag = tagApp ∧ l.up = true)
  | .read id out => out = (netchanChanRead l.conn id bufSize).1
  | .start a => l.authStarted = false ∧ l.closing = false ∧ l.crypto.haveKey = true ∧
      a = conversation l
  | .server c => l.authStarted = true ∧ l.server = true ∧
      (l.closing = false ∧ (∃ env msg, c = .feed env msg) ∨ l.closing = true ∧ c = .clear)
  | .client c => l.authStarted = true ∧ l.server = false ∧ l.closing = false ∧
      ((∃ msg, c = .feed msg) ∨ IsAnswer c)
  | .up => l.authStarted = true ∧ l.closing = false ∧ l.up = false ∧ l.down = false ∧
      l.auth.state = .ok
  | .data body => l.up = true ∧ ∃ id, l.log.getLast? = some (.read id (.ok (tagApp :: body)))
  | .down why => l.down = false ∧ Cause l why
  | .need what => l.authStarted = true ∧ l.server = false ∧ l.up = false ∧ l.down = false ∧
      what = l.auth.need ∧ what ≠ .nothing

/-- A call, or a change of the link's own notes. -/
inductive Move : AuthLink → AuthLink → Prop
  | act {l : AuthLink} {act : Act} (h : May P hear l act) : Move l (l.does P act)
  | note (l : AuthLink) (rx : Option ChanId) (havePeer connectSent accepted : Bool)
      (needFired : Auth.Need) (timerId : Int) (peer : Addr) (turn : Nat) :
      Move l { l with rx, havePeer, connectSent, accepted, needFired, timerId, peer, turn }
  | close (l : AuthLink) : Move l { l with closing := true }

abbrev Moves : AuthLink → AuthLink → Prop := Relation.ReflTransGen (Move P hear)

/-! ## Functions that leave the login alone -/

/-- `l'` comes from `l` by calls that neither concern the login nor what was reported. -/
structure Quiet (l l' : AuthLink) : Prop where
  moves : Moves P hear l l'
  auth : l'.auth = l.auth
  authStarted : l'.authStarted = l.authStarted
  server : l'.server = l.server
  up : l'.up = l.up
  down : l'.down = l.down
  needFired : l'.needFired = l.needFired
  closing : l'.closing = l.closing

variable {P hear} {l l' l'' : AuthLink}

theorem Quiet.refl (l : AuthLink) : Quiet P hear l l :=
  ⟨.refl, rfl, rfl, rfl, rfl, rfl, rfl, rfl⟩

theorem Quiet.trans (h : Quiet P hear l l') (h' : Quiet P hear l' l'') : Quiet P hear l l'' :=
  ⟨h.moves.trans h'.moves, h'.auth.trans h.auth, h'.authStarted.trans h.authStarted,
    h'.server.trans h.server, h'.up.trans h.up, h'.down.trans h.down,
    h'.needFired.trans h.needFired, h'.closing.trans h.closing⟩

/-- An act of one of the lower layers. -/
def Act.isLow : Act → Bool
  | .sendNext .. | .sealed .. | .sendto .. | .opened .. | .feed .. | .call .. | .chanOpen _
  | .write .. | .read .. => true
  | _ => false

theorem quiet_act {act : Act} (h : May P hear l act) (hlow : act.isLow = true) :
    Quiet P hear l (l.does P act) := by
  refine ⟨.single (.act h), ?_, ?_, ?_, ?_, ?_, ?_, ?_⟩ <;> cases act <;> first | rfl | cases hlow

theorem quiet_note (l : AuthLink) (rx : Option ChanId) (havePeer connectSent accepted : Bool)
    (timerId : Int) (peer : Addr) (turn : Nat) :
    Quiet P hear l { l with rx, havePeer, connectSent, accepted, timerId, peer, turn } :=
  ⟨.single (.note l rx havePeer connectSent accepted l.needFired timerId peer turn), rfl, rfl,
    rfl, rfl, rfl, rfl, rfl⟩

theorem quiet_next (l : AuthLink) : Quiet P hear l l.next :=
  quiet_note l l.rx l.havePeer l.connectSent l.accepted l.timerId l.peer (l.turn + 1)

theorem log_does (l : AuthLink) (act : Act) : (l.does P act).log = l.log ++ [act] := by
  cases act <;> rfl

theorem getLast_does (l : AuthLink) (act : Act) : (l.does P act).log.getLast? = some act := by
  rw [log_does, List.getLast?_concat]

variable (io : Nat → Moment) (limit : Nat)

theorem sendHello_quiet (l : AuthLink) : Quiet P hear l (sendHello P l) := by
  unfold sendHello
  split
  · exact .refl l
  split
  · rename_i hp ss hpkt hss
    exact quiet_act (.inr hpkt) rfl
  · exact .refl l

theorem sealOut_quiet {buf : List UInt8} {dest : Addr} {env : Netchan.Env}
    (h : l.log.getLast? = some (.sendNext env (some (buf, dest)))) :
    Quiet P hear l (sealOut P l buf dest) := by
  have h1 : Quiet P hear l (l.does P (.sealed buf (ncCryptoSeal P l.crypto buf sealedSize).1)) :=
    quiet_act ⟨rfl, env, dest, h⟩ rfl
  unfold sealOut
  dsimp only
  split
  · rename_i pkt ss hpkt hss
    refine h1.trans (quiet_act (.inl ⟨buf, ?_⟩) rfl)
    rw [getLast_does, hpkt]
  · exact h1

theorem flushLoop_quiet : ∀ (n : Nat) (l : AuthLink), Quiet P hear l (flushLoop P io n l)
  | 0, l => .refl l
  | n + 1, l => by
    have h1 : Quiet P hear l.next (l.next.does P (.sendNext (io l.turn).env
        (netchanSendNext (io l.turn).env l.conn bufSize).2)) := quiet_act rfl rfl
    have h2 := (quiet_next l).trans h1
    rw [flushLoop]
    split
    · exact h2
    · rename_i buf dest hout
      rw [hout] at h2 ⊢
      exact (h2.trans (sealOut_quiet (getLast_does ..))).trans (flushLoop_quiet n _)

theorem flushOut_quiet (l : AuthLink) : Quiet P hear l (flushOut P io limit l) :=
  flushLoop_quiet io limit l

theorem service_quiet (l : AuthLink) : Quiet P hear l (service P io l) :=
  (quiet_next l).trans (quiet_act trivial rfl)

/-- The channel that was opened stays the one that is written to. -/
theorem tx_moves (h : Moves P hear l l') {id : ChanId} (htx : l.tx = some id) : l'.tx = some id := by
  induction h with
  | refl => exact htx
  | tail _ hm ih =>
    cases hm with
    | @act act hmay =>
      cases act with
      | chanOpen out =>
        rw [hmay.1] at ih
        cases ih
      | _ => exact ih
    | note => exact ih
    | close => exact ih

theorem spin_quiet {tx : ChanId} {msg : List UInt8}
    (h : ∀ l', Quiet P hear l l' → May P hear l' (.write tx msg (netchanChanWrite l'.conn tx msg).1)) :
    ∀ (spins : Nat) (l' : AuthLink),
      Quiet P hear l l' → Quiet P hear l (spin P io limit tx msg spins l').2
  | 0, l', hl => hl
  | spins + 1, l', hl => by
    have h1 : Quiet P hear l (l'.does P (.write tx msg (netchanChanWrite l'.conn tx msg).1)) :=
      hl.trans (quiet_act (h l' hl) rfl)
    rw [spin]
    split
    · split
      · exact h1.trans (flushOut_quiet io limit _)
      · exact h1
    · split
      · exact h1
      · exact spin_quiet h spins _ ((h1.trans (service_quiet io _)).trans (flushOut_quiet io limit _))

theorem chanSend_quiet {tag : UInt8} (data : List UInt8)
    (h : tag = tagAuth ∧ l.authStarted = true ∨ tag = tagApp ∧ l.up = true) :
    Quiet P hear l (chanSend P io limit l tag data).2 := by
  unfold chanSend
  split
  · exact .refl l
  split
  · exact .refl l
  · rename_i tx htx hlen
    refine spin_quiet io limit
      (fun l' hl => ⟨rfl, tx_moves hl.moves htx, tag, data, rfl, ?_, ?_⟩) 64 l (.refl l)
    · rw [List.length_cons]
      exact Nat.le_of_not_lt hlen
    · rw [hl.authStarted, hl.up]
      exact h

theorem authOut_quiet : ∀ (acts : List Auth.Act) (l : AuthLink), l.authStarted = true →
    Quiet P hear l (authOut P io limit l acts)
  | [], l, _ => .refl l
  | act :: acts, l, h => by
    have hskip := authOut_quiet acts l h
    cases act with
    | emit msg =>
      have h1 : Quiet P hear l (chanSend P io limit l tagAuth msg).2 :=
        chanSend_quiet io limit msg (.inl ⟨rfl, h⟩)
      exact h1.trans (authOut_quiet acts _ (h1.authStarted.trans h))
    | _ => exact hskip

theorem connectOut_quiet (l : AuthLink) : Quiet P hear l (connectOut P io l) := by
  unfold connectOut
  split
  · rename_i hc
    obtain ⟨hs, -, hk⟩ := hc
    have h1 : Quiet P hear l (l.next.does P (.call (.connect (io l.turn).env l.peer))) :=
      (quiet_next l).trans (quiet_act ⟨by simpa [AuthLink.next] using hs, hk, rfl⟩ rfl)
    dsimp only
    split
    · exact h1.trans (quiet_note _ _ _ true _ _ _ _)
    · exact h1
  · exact .refl l

theorem openTx_quiet (l : AuthLink) : Quiet P hear l (openTx P l) := by
  unfold openTx
  split
  · rename_i h
    exact quiet_act ⟨Option.isNone_iff_eq_none.1 h.1, rfl⟩ rfl
  · exact .refl l

theorem pin_quiet (l : AuthLink) (source : Addr) : Quiet P hear l (pin l source) := by
  unfold pin
  split
  · exact quiet_note l l.rx true l.connectSent l.accepted l.timerId source l.turn
  · exact .refl l

theorem feedConn_quiet {plain : List UInt8} (source : Addr) (hne : plain ≠ [])
    {answer : Option Key → Bool} {pkt : List UInt8}
    (h : l.log.getLast? = some (.opened answer pkt (some plain))) :
    Quiet P hear l (feedConn P io l plain source) := by
  have h1 : Quiet P hear l (l.next.does P (.feed (io l.turn).env plain source)) :=
    (quiet_next l).trans (quiet_act ⟨hne, answer, pkt, h⟩ rfl)
  unfold feedConn
  dsimp only
  split
  · rename_i hs
    have hmay : May P hear (l.next.does P (.feed (io l.turn).env plain source)) (.call .accept) :=
      ⟨(by simpa using hs : _ ∧ _).1, _, _, _, getLast_does ..⟩
    exact (h1.trans (quiet_act hmay rfl)).trans (quiet_note _ _ _ _ true _ _ _)
  · exact h1

/-- A plaintext with bytes in it comes out of a DATA packet. -/
theorem opened_data {answer : Option Key → Bool} {c : Session} {pkt plain : List UInt8} {b : UInt8}
    {cap : Nat} (h : (ncCryptoOpen P answer c pkt cap).1 = some (b :: plain)) :
    byte pkt 0 = ncCryptoData := by
  rcases open_cases P answer c pkt cap with ⟨_, _, -, h0, -⟩ | ⟨_, _, he, -⟩ | he
  · exact h0
  · rw [he] at h
    cases h
  · rw [he] at h
    cases h

theorem recvOne_quiet {d : Datagram} (hhear : hear l.crypto (d.bytes.take bufSize)) :
    Quiet P hear l (recvOne P io d l).2 := by
  unfold recvOne
  generalize d.bytes.take bufSize = buf at hhear ⊢
  dsimp only
  split
  · exact .refl l
  split
  · exact .refl l
  rename_i source _
  have hpin : (pin l source).crypto = l.crypto := by
    unfold pin
    split <;> rfl
  generalize hl1 : pin l source = l1 at hpin
  have hq1 : Quiet P hear l l1 := hl1 ▸ pin_quiet l source
  generalize hpn : (ncCryptoOpen P (io l1.turn).verifyPeer l1.crypto buf bufSize).1 = pn
  generalize hl2 : l1.next.does P (.opened (io l1.turn).verifyPeer buf pn) = l2
  have hq2 : Quiet P hear l l2 :=
    hl2 ▸ (hq1.trans (quiet_next l1)).trans
      (quiet_act ⟨hpn.symm, show hear l1.crypto buf from hpin ▸ hhear⟩ rfl)
  have hlast : l2.log.getLast? = some (.opened (io l1.turn).verifyPeer buf pn) :=
    hl2 ▸ getLast_does ..
  split
  · exact hq2
  split
  · rename_i b plain
    have h0 : byte buf 0 ≠ ncCryptoHello := by
      rw [opened_data hpn]
      decide
    rw [if_neg fun hc => h0 hc.1]
    exact hq2.trans (feedConn_quiet io source (by simp) hlast)
  · split
    · exact hq2.trans (sendHello_quiet _)
    · exact hq2

/-- Only datagrams of `hear` are received. -/
def Attended (P : Monocypher) (hear : Session → List UInt8 → Prop) (io : Nat → Moment) :
    List Datagram → AuthLink → Prop
  | [], _ => True
  | d :: ds, l => hear l.crypto (d.bytes.take bufSize) ∧
      ((recvOne P io d l).1 = true → Attended P hear io ds (recvOne P io d l).2)

theorem recvLoop_quiet : ∀ (ds : List Datagram) (l : AuthLink), Attended P hear io ds l →
    Quiet P hear l (recvLoop P io ds l)
  | [], l, _ => .refl l
  | d :: ds, l, h => by
    have h1 : Quiet P hear l (recvOne P io d l).2 := recvOne_quiet io h.1
    change Quiet P hear l (if (recvOne P io d l).1 then recvLoop P io ds (recvOne P io d l).2
      else (recvOne P io d l).2)
    by_cases hmore : (recvOne P io d l).1 = true
    · rw [if_pos hmore]
      exact h1.trans (recvLoop_quiet ds _ (h.2 hmore))
    · rw [if_neg hmore]
      exact h1

end

end Netchan.Link
