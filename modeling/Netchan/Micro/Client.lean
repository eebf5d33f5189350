import Netchan.Micro.Step
import Netchan.Micro.Wire

/-!
# A client and its server

A client may broadcast its SYN, and then several servers answer it with a SYNACK that carries its
id. `mc_feed` takes the server's id and address from every such SYNACK, also when the client is
connected already; `session_step` says that nothing else changes them while it stays connected.
`client_keeps_server`: a client keeps its server exactly in the runs where no other server's SYNACK
reaches it while it is connected. `second_server_takes_over` is a run with two servers.
-/

namespace Netchan.Micro

open Lib

/-- The server session a connection belongs to: the peer's id and its address. -/
def Mc.session (c : Mc) : UInt32 × Addr := (c.remoteId, c.peer)

/-- A datagram that is a SYNACK for this client. -/
def TakesSynack (c : Mc) (pkt : List UInt8) : Prop :=
  byte pkt 4 = 2 ∧ mcHdr + 4 ≤ pkt.length ∧ c.isServer = false ∧ rd32 pkt 0 = c.localId

instance (c : Mc) (pkt : List UInt8) : Decidable (TakesSynack c pkt) :=
  inferInstanceAs (Decidable (_ ∧ _))

/-- A SYNACK that reaches the client while it is connected is its own server's: it carries the id
and comes from the address that the client has. -/
def OwnServer (c : Mc) : Step → Prop
  | .feed pkt source => c.state = .connected → TakesSynack c pkt →
      rd32 pkt mcHdr = c.remoteId ∧ source.getD c.peer = c.peer
  | _ => True

/-! ## Steps -/

theorem evPush_session (c : Mc) (e : Event) : (evPush c e).session = c.session := by
  rw [evPush_eq]
  rfl

theorem deliver_session (c : Mc) (chan mt : UInt8) (seq : UInt16) (data : List UInt8) :
    (deliver c chan mt seq data).session = c.session := by
  unfold deliver pushData
  simp only [evPush_eq]
  repeat' split
  all_goals rfl

theorem feedRecords_session : ∀ (fuel : Nat) (c : Mc) (q : List UInt8),
    (feedRecords fuel c q).session = c.session
  | 0, _, _ => rfl
  | fuel + 1, c, q => by
    unfold feedRecords
    split
    · rfl
    dsimp only
    split
    · rfl
    · rw [feedRecords_session fuel, deliver_session]

theorem processAck_session (c : Mc) (ack : UInt16) : (processAck c ack).session = c.session := by
  unfold processAck
  dsimp only
  split <;> rfl

section
variable (c : Mc) (pkt : List UInt8) (source : Option Addr)

theorem feedData_session : (feedData c pkt).2.session = c.session := by
  have hup : (dataUp c).session = c.session := by
    unfold dataUp
    split
    · rw [evPush_session]
      rfl
    · rfl
  unfold feedData
  split
  · rfl
  dsimp only
  split
  · exact hup
  · rw [feedRecords_session, processAck_session, hup]

/-- **What a datagram does to the session of a connected client**: a SYNACK sets it, any other
leaves it alone. -/
theorem mcFeed_session (h : c.state = .connected) :
    (TakesSynack c pkt ∧ (mcFeed c pkt source).2.state = .connected ∧
      (mcFeed c pkt source).2.session = (rd32 pkt mcHdr, source.getD c.peer)) ∨
    ¬ TakesSynack c pkt ∧ (mcFeed c pkt source).2.session = c.session := by
  unfold mcFeed
  split
  · refine .inr ⟨fun ht => ?_, rfl⟩
    have := ht.2.1
    omega
  dsimp only
  have hno : (byte pkt 4).toNat ≠ 2 → ¬ TakesSynack c pkt := fun hn ht => hn (by rw [ht.1]; rfl)
  split
  · rename_i h1
    refine .inr ⟨hno (by omega), ?_⟩
    unfold feedSyn
    simp only [h, reduceCtorEq, ↓reduceIte]
    repeat' split
    all_goals rfl
  · rename_i h2
    unfold feedSynack
    split
    · rename_i hg
      refine .inr ⟨fun ht => ?_, rfl⟩
      rcases hg with hg | hg
      · exact absurd (ht.2.2.1.symm.trans hg) (by simp)
      · exact hg ht.2.2.2
    split
    · rename_i hl
      exact .inr ⟨fun ht => absurd ht.2.1 (by omega), rfl⟩
    rename_i hg hl
    rw [not_or, not_not] at hg
    refine .inl ⟨⟨UInt8.toNat_inj.1 h2, by omega, by simpa using hg.1, hg.2⟩, ?_⟩
    dsimp only
    rw [if_neg (by simp [h])]
    exact ⟨h, rfl⟩
  · rename_i h3
    refine .inr ⟨hno (by omega), ?_⟩
    unfold feedAck
    simp only [h, reduceCtorEq, ↓reduceIte]
    split <;> rfl
  · rename_i h4
    exact .inr ⟨hno (by omega), feedData_session ..⟩
  · rename_i h5
    refine .inr ⟨hno (by omega), ?_⟩
    unfold feedFin
    repeat' split
    · rfl
    · rw [evPush_session]
      rfl
    · rfl
  · rename_i h2 _ _ _
    exact .inr ⟨hno h2, rfl⟩

end

theorem mcService_session (c : Mc) (nowMs : UInt32) :
    (mcService c nowMs).2.session = c.session := by
  unfold mcService
  dsimp only
  split
  · unfold serviceConnecting
    dsimp only
    split
    · split
      · exact evPush_session ..
      · split <;> rfl
    · rfl
  split
  · unfold serviceConnected
    dsimp only
    split
    · exact evPush_session ..
    split
    · split
      · exact evPush_session ..
      · split <;> rfl
    · split <;> rfl
  · rfl

/-- **What changes the session of a connected client** that stays connected: a SYNACK of another
server, and nothing else. -/
theorem session_step {c : Mc} {a : Step} (h : c.state = .connected)
    (h' : (a.apply c).state = .connected) : (a.apply c).session = c.session ↔ OwnServer c a := by
  have hsame : (a.apply c).session = c.session → OwnServer c a →
      ((a.apply c).session = c.session ↔ OwnServer c a) := fun h1 h2 => iff_of_true h1 h2
  cases a with
  | connect addr => cases h'
  | chanOpen type =>
    refine hsame ?_ trivial
    simp only [Step.apply, Step.exec, mcChanOpen]
    split <;> rfl
  | chanClose i => exact hsame rfl trivial
  | write i data =>
    refine hsame ?_ trivial
    simp only [Step.apply, Step.exec, mcWrite]
    repeat' split
    all_goals rfl
  | read i buflen =>
    refine hsame ?_ trivial
    simp only [Step.apply, Step.exec, mcRead]
    repeat' split
    all_goals rfl
  | poll =>
    refine hsame ?_ trivial
    simp only [Step.apply, Step.exec, mcPoll]
    split <;> rfl
  | feed pkt source =>
    rcases mcFeed_session c pkt source h with ⟨ht, -, he⟩ | ⟨ht, he⟩
    · show (mcFeed c pkt source).2.session = c.session ↔ _
      rw [he]
      constructor
      · intro hs _ _
        exact Prod.ext_iff.1 hs
      · intro ho
        exact Prod.ext_iff.2 (ho h ht)
    · exact hsame he fun _ ht' => absurd ht' ht
  | sendNext buflen =>
    refine hsame ?_ trivial
    simp only [Step.apply, Step.exec, mcSendNext, sendData]
    repeat' split
    all_goals rfl
  | service nowMs =>
    exact hsame (mcService_session c nowMs) trivial

/-! ## Runs -/

/-- The connection is CONNECTED before and after each of the steps. -/
def StaysConnected (c : Mc) : List Step → Prop
  | [] => c.state = .connected
  | st :: sts => c.state = .connected ∧ StaysConnected (st.apply c) sts

instance : ∀ (c : Mc) (sts : List Step), Decidable (StaysConnected c sts)
  | c, [] => inferInstanceAs (Decidable (c.state = .connected))
  | c, st :: sts =>
    have : Decidable (StaysConnected (st.apply c) sts) := instDecidableStaysConnected _ sts
    inferInstanceAs (Decidable (_ ∧ _))

/-- Wherever the run stays CONNECTED, its session stays the same. -/
def OneSession (c : Mc) (sts : List Step) : Prop :=
  ∀ pre mid suf, sts = pre ++ mid ++ suf → StaysConnected (run Step.apply c pre) mid →
    (run Step.apply c (pre ++ mid)).session = (run Step.apply c pre).session

theorem StaysConnected.first {c : Mc} : ∀ {sts : List Step}, StaysConnected c sts →
    c.state = .connected
  | [], h => h
  | _ :: _, h => h.1

/-- While it is CONNECTED and meets only its own server's SYNACKs, a client keeps its session. -/
theorem session_run : ∀ {c : Mc} {sts : List Step}, StaysConnected c sts →
    Along Step.apply OwnServer c sts → (run Step.apply c sts).session = c.session
  | _, [], _, _ => rfl
  | c, st :: sts, h, ha => by
    rw [run_cons, session_run h.2 ha.2]
    exact (session_step h.1 h.2.first).2 ha.1

/-- A packet goes to the peer, and a DATA packet carries its id. -/
theorem mcSendNext_session {c : Mc} {buflen : Nat} {pkt : List UInt8} {a : Addr}
    (h : (mcSendNext mcWindow c buflen).2 = some (pkt, a)) :
    a = c.peer ∧ (byte pkt 4 = 4 → rd32 pkt 0 = c.remoteId) := by
  unfold mcSendNext at h
  split at h
  · cases h
  split at h
  · cases h
    exact ⟨rfl, fun h4 => absurd ((byte_header ..).symm.trans h4) (by decide)⟩
  split at h
  · cases h
    exact ⟨rfl, fun _ => rd32_wr32 c.remoteId _⟩
  split at h
  · cases h
    exact ⟨rfl, fun h4 => absurd ((byte_header ..).symm.trans h4) (by decide)⟩
  split at h
  · cases h
  split at h
  · cases h
  · cases h
    exact ⟨rfl, fun _ => rd32_wr32 c.remoteId _⟩

/-- **A client keeps its server** for as long as it stays CONNECTED exactly in the runs where every
SYNACK it gets while CONNECTED is its own server's; what it sends always goes to the session it has
at that moment. -/
theorem client_keeps_server (r : UInt32) (sts : List Step) :
    (OneSession (mcOpen false r) sts ↔ Along Step.apply OwnServer (mcOpen false r) sts) ∧
    ∀ buflen pkt a,
      (mcSendNext mcWindow (run Step.apply (mcOpen false r) sts) buflen).2 = some (pkt, a) →
      a = (run Step.apply (mcOpen false r) sts).peer ∧
        (byte pkt 4 = 4 → rd32 pkt 0 = (run Step.apply (mcOpen false r) sts).remoteId) := by
  refine ⟨⟨fun h => ?_, fun h pre mid suf he hs => ?_⟩, fun _ _ _ he => mcSendNext_session he⟩
  · refine along_iff.2 fun pre st suf he => ?_
    cases st with
    | feed pkt source =>
      intro hc ht
      -- the SYNACK leaves the client CONNECTED, so its session must not change
      rcases mcFeed_session _ pkt source hc with ⟨-, hc', -⟩ | ⟨hn, -⟩
      · have hs := h pre [.feed pkt source] suf (by rw [he]; simp) ⟨hc, hc'⟩
        rw [run_concat] at hs
        exact (session_step (a := .feed pkt source) hc hc').1 hs hc ht
      · exact absurd ht hn
    | _ => trivial
  · subst he
    rw [run_append]
    exact session_run hs (along_append.1 (along_append.1 h).1).2

/-- The packet a connection sends next. -/
def nextPacket (c : Mc) : List UInt8 := ((mcSendNext mcWindow c mcMtu).2.map Prod.fst).getD []

/-- The SYNACK of a fresh server that gets the SYN of a client at `[9]`. -/
def synackOf (r : UInt32) (syn : List UInt8) : List UInt8 :=
  nextPacket (mcFeed (mcOpen true r) syn (some [9])).2

/-- A client broadcasts its SYN and hears of two servers, at `[1]` and at `[2]`. -/
def twoServers : List Step :=
  let syn := nextPacket (mcConnect (mcOpen false 7) [255])
  [.connect [255], .sendNext mcMtu, .feed (synackOf 11 syn) (some [1]),
    .feed (synackOf 12 syn) (some [2])]

/-- The second server's SYNACK takes the connected client over. -/
theorem second_server_takes_over : ¬ OneSession (mcOpen false 7) twoServers := by
  intro h
  have hs := h (twoServers.take 3) (twoServers.drop 3) [] (by simp) (by decide +kernel)
  revert hs
  decide +kernel

end Netchan.Micro
