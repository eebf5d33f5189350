import Netchan.Lib.Clock
import Netchan.Micro.Step
import Netchan.Micro.Wire

/-!
# The clock of microchan

`mc_service` gets a free running 32-bit millisecond clock. Two runs of the same calls whose clocks
differ by a constant `k` should look the same. They do as long as the deadlines behave
(`same_trace`), and the condition for it (`ClockOk`) shows where the code depends on the clock's
origin: a deadline is compared with `>=`, so the clock must not pass zero between the two in one of
the runs only; `tx_timer` is 0 for "no deadline", so no deadline may fall on 0; and `last_send` is 0
until something was sent.

`Mc.retime` replaces the times of a connection, `Shifted` relates the times of the two runs.
-/

namespace Netchan.Micro

open Lib

/-! ## The times of a connection -/

/-- The fields of `struct microchan` that hold a time. -/
structure Times where
  now : UInt32 := 0
  lastRecv : UInt32 := 0
  lastSend : UInt32 := 0
  connectTimer : UInt32 := 0
  txTimer : UInt32 := 0

/-- The connection at other times. -/
def Mc.retime (c : Mc) (t : Times) : Mc :=
  { c with now := t.now, lastRecv := t.lastRecv, lastSend := t.lastSend
           connectTimer := t.connectTimer, txTimer := t.txTimer }

/-- The times of a connection. -/
def Mc.times (c : Mc) : Times := ⟨c.now, c.lastRecv, c.lastSend, c.connectTimer, c.txTimer⟩

theorem Mc.retime_times (c : Mc) : c.retime c.times = c := rfl

/-- Adding `k` to a time passes `2 ^ 32`. -/
def Wraps (k t : UInt32) : Prop := 2 ^ 32 ≤ t.toNat + k.toNat

instance (k t : UInt32) : Decidable (Wraps k t) := inferInstanceAs (Decidable (_ ≤ _))

/-- **Two times compare alike on two clocks** exactly if both or neither pass zero. -/
theorem ge_add_iff (k a b : UInt32) : (a + k ≥ b + k ↔ a ≥ b) ↔ (Wraps k a ↔ Wraps k b) := by
  have ha := a.toNat_lt
  have hb := b.toNat_lt
  have hk := k.toNat_lt
  simp only [Wraps, ge_iff_le, UInt32.le_iff_toNat_le, UInt32.toNat_add]
  omega

theorem add_right_comm' (k a b : UInt32) : a + k + b = a + b + k := by
  rw [UInt32.add_assoc, UInt32.add_comm k, ← UInt32.add_assoc]

/-- A deadline that is 0, and so means "no deadline", on both clocks or on neither. -/
def Arms (k deadline : UInt32) : Prop := deadline = 0 ↔ deadline + k = 0

instance (k t : UInt32) : Decidable (Arms k t) := inferInstanceAs (Decidable (_ ↔ _))

/-- The times `t` of a connection in the run whose clock is ahead by `k`, against its times `u` in
the other run; `s` is its state, `sent` says whether it sent a packet yet. -/
structure Shifted (k : UInt32) (sent : Bool) (s : State) (u t : Times) : Prop where
  now : t.now = u.now + k
  recv : s = .connected → t.lastRecv = u.lastRecv + k
  send : sent = true → t.lastSend = u.lastSend + k
  unsent : sent = false → u.lastSend = 0 ∧ t.lastSend = 0
  connect : s = .connecting → t.connectTimer = u.connectTimer + k
  tx : t.txTimer = if u.txTimer = 0 then 0 else u.txTimer + k
  tx_ne : u.txTimer ≠ 0 → u.txTimer + k ≠ 0

/-- The connection `d` of the one run looks like `c` of the other. -/
def Alike (k : UInt32) (sent : Bool) (c d : Mc) : Prop :=
  ∃ t, d = c.retime t ∧ Shifted k sent c.state c.times t

/-- The results of a call in the two runs look alike. -/
def Follows {α : Type} (k : UInt32) (sent : Bool) (r r' : α × Mc) : Prop :=
  r'.1 = r.1 ∧ Alike k sent r.2 r'.2

section
variable {k : UInt32} {sent : Bool} {c : Mc} {s : State} {u t : Times}

/-- An operation that looks at no time and changes neither a time nor the state. -/
theorem Alike.map {d : Mc} (f : Mc → Mc) (hf : ∀ c t, f (c.retime t) = (f c).retime t)
    (hs : ∀ c, (f c).state = c.state) (h : Alike k sent c d) : Alike k sent (f c) (f d) := by
  obtain ⟨t, rfl, h⟩ := h
  have ht : (f c).times = c.times := by
    have := hf c c.times
    rw [Mc.retime_times] at this
    rw [this]
    rfl
  refine ⟨t, hf c t, ?_⟩
  rw [hs, ht]
  exact h

theorem Shifted.tx_zero (h : Shifted k sent s u t) : t.txTimer = 0 ↔ u.txTimer = 0 := by
  rw [h.tx]
  by_cases hc : u.txTimer = 0
  · simp [hc]
  · simp [hc, h.tx_ne hc]

/-- The state changes to one that looks at no time. -/
theorem Shifted.off (h : Shifted k sent s u t) {s' : State} (h1 : s' ≠ .connected)
    (h2 : s' ≠ .connecting) : Shifted k sent s' u t :=
  { h with recv := fun hs => absurd hs h1, connect := fun hs => absurd hs h2 }

theorem Shifted.heard (h : Shifted k sent s u t) :
    Shifted k sent s { u with lastRecv := u.now } { t with lastRecv := t.now } :=
  { h with recv := fun _ => h.now }

theorem Shifted.up (h : Shifted k sent s u t) (hr : t.lastRecv = u.lastRecv + k) :
    Shifted k sent .connected u t :=
  { h with recv := fun _ => hr, connect := nofun }

theorem Shifted.connecting (h : Shifted k sent s u t) :
    Shifted k sent .connecting { u with connectTimer := u.now + connectRetryMs }
      { t with connectTimer := t.now + connectRetryMs } :=
  { h with
    recv := nofun
    connect := fun _ => by
      show t.now + connectRetryMs = u.now + connectRetryMs + k
      rw [h.now, add_right_comm'] }

theorem Shifted.arm (h : Shifted k sent s u t) {d : UInt32} (ha : Arms k (u.now + d)) :
    Shifted k sent s { u with txTimer := u.now + d } { t with txTimer := t.now + d } :=
  { h with
    tx := by
      show t.now + d = if u.now + d = 0 then 0 else u.now + d + k
      rw [h.now, add_right_comm']
      split
      · exact ha.1 ‹_›
      · rfl
    tx_ne := fun hne h0 => hne (ha.2 h0) }

theorem Shifted.restart (h : Shifted k sent s u t) {d : UInt32} {p : Prop} [Decidable p]
    (ha : ¬ p → Arms k (u.now + d)) :
    Shifted k sent s { u with txTimer := if p then 0 else u.now + d }
      { t with txTimer := if p then 0 else t.now + d } := by
  by_cases hp : p
  · rw [if_pos hp, if_pos hp]
    exact { h with tx := rfl, tx_ne := fun hne => absurd rfl hne }
  · rw [if_neg hp, if_neg hp]
    exact h.arm (ha hp)

theorem Shifted.sends (h : Shifted k sent s u t) :
    Shifted k true s { u with lastSend := u.now } { t with lastSend := t.now } :=
  { h with send := fun _ => h.now, unsent := nofun }

theorem evPush_alike {d : Mc} (e : Event) (h : Alike k sent c d) :
    Alike k sent (evPush c e) (evPush d e) := by
  refine h.map (evPush · e) (fun c t => ?_) fun c => ?_
  · rw [evPush_eq, evPush_eq]
    rfl
  · rw [evPush_eq]

/-! ## Calls that look at no time -/

theorem mcChanOpen_follows (h : Shifted k sent c.state c.times t) (type : ChanType) :
    Follows k sent (mcChanOpen c type) (mcChanOpen (c.retime t) type) := by
  unfold mcChanOpen
  have hchan : (c.retime t).chan = c.chan := rfl
  rw [hchan]
  cases (List.finRange mcMaxChan).find? fun i => !(c.chan i).used with
  | none => exact ⟨rfl, t, rfl, h⟩
  | some i => exact ⟨rfl, t, rfl, h⟩

theorem mcWrite_follows (h : Shifted k sent c.state c.times t) (i : ChanId) (data : List UInt8) :
    Follows k sent (mcWrite mcWindow c i data) (mcWrite mcWindow (c.retime t) i data) := by
  unfold mcWrite
  refine rel_ite (fun _ => ⟨rfl, t, rfl, h⟩) fun _ => ?_
  refine rel_ite (fun _ => ⟨rfl, t, rfl, h⟩) fun _ => ?_
  refine rel_ite (fun _ => ⟨rfl, t, rfl, h⟩) fun _ => ?_
  refine rel_ite (fun _ => ?_) fun _ => ⟨rfl, t, rfl, h⟩
  exact rel_ite (fun _ => ⟨rfl, t, rfl, h⟩) fun _ => ⟨rfl, t, rfl, h⟩

theorem mcRead_follows (h : Shifted k sent c.state c.times t) (i : ChanId) (buflen : Nat) :
    Follows k sent (mcRead c i buflen) (mcRead (c.retime t) i buflen) := by
  unfold mcRead
  have hchan : (c.retime t).chan = c.chan := rfl
  rw [hchan]
  cases (c.chan i).rxq with
  | nil => exact ⟨rfl, t, rfl, h⟩
  | cons m ms =>
    dsimp only
    split
    · exact ⟨rfl, t, rfl, h⟩
    · exact ⟨rfl, t, rfl, h⟩

theorem mcPoll_follows (h : Shifted k sent c.state c.times t) :
    Follows k sent (mcPoll c) (mcPoll (c.retime t)) := by
  unfold mcPoll
  have hevq : (c.retime t).evq = c.evq := rfl
  rw [hevq]
  cases c.evq with
  | nil => exact ⟨rfl, t, rfl, h⟩
  | cons e es => exact ⟨rfl, t, rfl, h⟩

/-! ## Datagrams -/

theorem pushData_retime (c : Mc) (t : Times) (i : ChanId) (data : List UInt8) :
    pushData (c.retime t) i data = (pushData c i data).retime t := by
  unfold pushData
  rw [evPush_eq, evPush_eq]
  rfl

theorem deliver_retime (c : Mc) (t : Times) (chan mt : UInt8) (seq : UInt16) (data : List UInt8) :
    deliver (c.retime t) chan mt seq data = (deliver c chan mt seq data).retime t := by
  unfold deliver
  have hid : chanById (c.retime t) chan = chanById c chan := rfl
  by_cases h1 : mt = mtRel
  · rw [if_pos h1, if_pos h1]
    by_cases h2 : seq = c.rxNext
    · rw [if_pos h2, if_pos (show seq = (c.retime t).rxNext from h2)]
      rw [hid]
      cases chanById c chan with
      | none => rfl
      | some i =>
        dsimp only
        by_cases h3 : rxqFull (c.chan i) = true
        · rw [if_pos h3, if_pos (show rxqFull ((c.retime t).chan i) = true from h3)]
          rfl
        · rw [if_neg h3, if_neg (show ¬ rxqFull ((c.retime t).chan i) = true from h3),
            pushData_retime]
          rfl
    · rw [if_neg h2, if_neg (show ¬ seq = (c.retime t).rxNext from h2)]
      rfl
  · rw [if_neg h1, if_neg h1]
    rw [hid]
    cases chanById c chan with
    | none => rfl
    | some i => exact pushData_retime ..

theorem feedRecords_retime (t : Times) : ∀ (fuel : Nat) (c : Mc) (q : List UInt8),
    feedRecords fuel (c.retime t) q = (feedRecords fuel c q).retime t
  | 0, _, _ => rfl
  | fuel + 1, c, q => by
    unfold feedRecords
    split
    · rfl
    dsimp only
    split
    · rfl
    · rw [deliver_retime, feedRecords_retime t fuel]

theorem feedRecords_alike {d : Mc} (fuel : Nat) (q : List UInt8) (h : Alike k sent c d) :
    Alike k sent (feedRecords fuel c q) (feedRecords fuel d q) :=
  h.map (feedRecords fuel · q) (fun c t => feedRecords_retime t fuel c q)
    fun c => feedRecords_state fuel c q

/-- The ack releases some of the messages in the window, but not all. -/
def PartAck (c : Mc) (ack : UInt16) : Prop :=
  seqAfter ack c.txBase ∧ (ack - c.txBase).toNat < (c.txNext - c.txBase).toNat

instance (c : Mc) (ack : UInt16) : Decidable (PartAck c ack) := inferInstanceAs (Decidable (_ ∧ _))

theorem seqAfter_iff (a b : UInt16) :
    seqAfter a b = true ↔ 0 < (a - b).toNat ∧ (a - b).toNat < 2 ^ 15 := by
  have h := (a - b).toNat_lt
  unfold seqAfter int16
  rw [decide_eq_true_iff]
  split <;> omega

theorem ackLoop_all {ack txNext : UInt16} : ∀ {fuel : Nat} {txBase : UInt16},
    (txNext - txBase).toNat = fuel → fuel ≤ (ack - txBase).toNat → (ack - txBase).toNat < 2 ^ 15 →
    ackLoop ack txNext fuel txBase = txNext
  | 0, txBase, h, _, _ => by
    have h1 := txNext.toNat_lt
    have h2 := txBase.toNat_lt
    rw [UInt16.toNat_sub] at h
    exact UInt16.toNat_inj.1 (show txBase.toNat = txNext.toNat by omega)
  | fuel + 1, txBase, h, h1, h2 => by
    have hne : txBase ≠ txNext := by
      rintro rfl
      simp at h
    have hstep : ∀ x : UInt16, 0 < (x - txBase).toNat →
        (x - (txBase + 1)).toNat = (x - txBase).toNat - 1 := by
      intro x hx
      have h3 := x.toNat_lt
      have h4 := txBase.toNat_lt
      have h5 : (1 : UInt16).toNat = 1 := rfl
      rw [UInt16.toNat_sub] at hx
      rw [UInt16.toNat_sub, UInt16.toNat_sub, UInt16.toNat_add, h5]
      omega
    rw [ackLoop, if_pos ⟨hne, (seqAfter_iff _ _).2 ⟨by omega, h2⟩⟩]
    refine ackLoop_all ?_ ?_ ?_
    · rw [hstep _ (by omega)]
      omega
    · rw [hstep _ (by omega)]
      omega
    · rw [hstep _ (by omega)]
      omega

/-- The loop of `process_ack` stops inside the window for such an ack only. -/
theorem partAck_of_ackLoop {ack : UInt16}
    (h1 : ackLoop ack c.txNext (c.txNext - c.txBase).toNat c.txBase ≠ c.txBase)
    (h2 : ackLoop ack c.txNext (c.txNext - c.txBase).toNat c.txBase ≠ c.txNext) :
    PartAck c ack := by
  have hs : seqAfter ack c.txBase = true := by
    by_contra hs
    apply h1
    cases (c.txNext - c.txBase).toNat with
    | zero => rfl
    | succ n => rw [ackLoop, if_neg fun h => hs h.2]
  refine ⟨hs, ?_⟩
  by_contra hlt
  exact h2 (ackLoop_all rfl (by omega) ((seqAfter_iff _ _).1 hs).2)

theorem processAck_alike (h : Shifted k sent c.state c.times t) {ack : UInt16}
    (ha : PartAck c ack → Arms k (c.now + rtMs)) :
    Alike k sent (processAck c ack) (processAck (c.retime t) ack) := by
  obtain ⟨b, hb⟩ : ∃ b, b = ackLoop ack c.txNext (c.txNext - c.txBase).toNat c.txBase := ⟨_, rfl⟩
  have hp : b ≠ c.txBase → b ≠ c.txNext → PartAck c ack := by
    rw [hb]
    exact partAck_of_ackLoop
  unfold processAck
  dsimp only [Mc.retime]
  rw [← hb]
  refine rel_ite (fun h1 => ?_) fun _ => ⟨t, rfl, h⟩
  exact ⟨{ t with txTimer := if b = c.txNext then 0 else t.now + rtMs }, rfl,
    h.restart fun h2 => ha (hp h1 h2)⟩

theorem comeUp_alike (h : Shifted k sent c.state c.times t) (hr : t.lastRecv = c.lastRecv + k)
    {p : Prop} [Decidable p] :
    Alike k sent (if p then evPush { c with state := .connected } .connected else c)
      (if p then evPush { c.retime t with state := .connected } .connected else c.retime t) :=
  rel_ite (fun _ => evPush_alike _ ⟨t, rfl, h.up hr⟩) fun _ => ⟨t, rfl, h⟩

/-- A datagram carries the ack of a DATA packet for the connection, and that ack starts the
retransmit timer again. -/
def Rearms (c : Mc) (pkt : List UInt8) : Prop :=
  mcHdr ≤ pkt.length ∧ byte pkt 4 = 4 ∧ rd32 pkt 0 = c.localId ∧
    (c.state = .connected ∨ c.isServer ∧ c.state = .connecting) ∧ PartAck c (rd16 pkt 6)

instance (c : Mc) (pkt : List UInt8) : Decidable (Rearms c pkt) :=
  inferInstanceAs (Decidable (_ ∧ _))

theorem feedSyn_follows (h : Shifted k sent c.state c.times t) (pkt : List UInt8)
    (source : Option Addr) :
    Follows k sent (feedSyn c pkt source) (feedSyn (c.retime t) pkt source) := by
  unfold feedSyn
  refine rel_ite (fun _ => ⟨rfl, t, rfl, h⟩) fun _ => ?_
  refine rel_ite (fun _ => ⟨rfl, t, rfl, h⟩) fun _ => ⟨rfl, ?_⟩
  by_cases hs : c.state = .closed
  · rw [if_pos hs, if_pos (show (c.retime t).state = .closed from hs)]
    dsimp only
    rw [if_pos rfl, if_pos rfl]
    exact ⟨{ t with connectTimer := t.now + connectRetryMs }, rfl, h.connecting⟩
  · rw [if_neg hs, if_neg (show ¬ (c.retime t).state = .closed from hs)]
    exact rel_ite (fun _ => ⟨t, rfl, h⟩) fun _ => ⟨t, rfl, h⟩

/-- The client takes the id and the address of the server, then it comes up. -/
theorem synackUp_alike (h : Shifted k sent c.state c.times t) (hr : t.lastRecv = c.lastRecv + k)
    (id : UInt32) (source : Option Addr) :
    Alike k sent
      (let c := { c with peer := source.getD c.peer, remoteId := id }
      if c.state = .connecting then evPush { c with state := .connected } .connected else c)
      (let c := { c.retime t with peer := source.getD c.peer, remoteId := id }
      if c.state = .connecting then evPush { c with state := .connected } .connected else c) :=
  comeUp_alike (c := { c with peer := source.getD c.peer, remoteId := id }) (t := t) h hr

theorem feedSynack_follows (h : Shifted k sent c.state c.times t)
    (hr : t.lastRecv = c.lastRecv + k) (pkt : List UInt8) (source : Option Addr) :
    Follows k sent (feedSynack c pkt source) (feedSynack (c.retime t) pkt source) := by
  unfold feedSynack
  refine rel_ite (fun _ => ⟨rfl, t, rfl, h⟩) fun _ => ?_
  refine rel_ite (fun _ => ⟨rfl, t, rfl, h⟩) fun _ => ⟨rfl, ?_⟩
  exact (synackUp_alike h hr _ source).map (fun c => { c with sendAck := true }) (fun _ _ => rfl)
    fun _ => rfl

theorem feedAck_follows (h : Shifted k sent c.state c.times t)
    (hr : t.lastRecv = c.lastRecv + k) (pkt : List UInt8) :
    Follows k sent (feedAck c pkt) (feedAck (c.retime t) pkt) := by
  unfold feedAck
  refine rel_ite (fun _ => ⟨rfl, t, rfl, h⟩) fun _ => ?_
  exact rel_ite (fun _ => ⟨rfl, evPush_alike _ ⟨t, rfl, h.up hr⟩⟩) fun _ => ⟨rfl, t, rfl, h⟩

theorem feedFin_follows (h : Shifted k sent c.state c.times t) (pkt : List UInt8) :
    Follows k sent (feedFin c pkt) (feedFin (c.retime t) pkt) := by
  unfold feedFin
  refine rel_ite (fun _ => ⟨rfl, t, rfl, h⟩) fun _ => ?_
  exact rel_ite (fun _ => ⟨rfl, evPush_alike _ ⟨t, rfl, h.off nofun nofun⟩⟩) fun _ => ⟨rfl, t, rfl, h⟩

/-- The server comes up with the first data; then the ack and the records of the packet. -/
theorem feedData_follows (h : Shifted k sent c.state c.times t)
    (hr : t.lastRecv = c.lastRecv + k) {pkt : List UInt8}
    (ha : rd32 pkt 0 = c.localId → (c.state = .connected ∨ c.isServer ∧ c.state = .connecting) →
      PartAck c (rd16 pkt 6) → Arms k (c.now + rtMs)) :
    Follows k sent (feedData c pkt) (feedData (c.retime t) pkt) := by
  unfold feedData
  refine rel_ite (fun _ => ⟨rfl, t, rfl, h⟩) fun hid => ?_
  obtain ⟨t', he, h'⟩ : Alike k sent (dataUp c) (dataUp (c.retime t)) := comeUp_alike h hr
  dsimp only
  rw [he]
  refine rel_ite (fun _ => ⟨rfl, t', rfl, h'⟩) fun hs => ⟨rfl, ?_⟩
  refine feedRecords_alike _ _ (processAck_alike h' fun hp => ?_)
  have hup : (dataUp c).now = c.now ∧ (PartAck (dataUp c) (rd16 pkt 6) ↔ PartAck c (rd16 pkt 6)) ∧
      (¬ (dataUp c).state ≠ .connected → c.state = .connected ∨ c.isServer ∧ c.state = .connecting) := by
    unfold dataUp
    split
    next hc =>
      rw [evPush_eq]
      exact ⟨rfl, Iff.rfl, fun _ => .inr hc⟩
    next => exact ⟨rfl, Iff.rfl, fun hs => .inl (not_not.1 hs)⟩
  rw [hup.1]
  exact ha (not_not.1 hid) (hup.2.2 hs) (hup.2.1.1 hp)

theorem mcFeed_follows (h : Shifted k sent c.state c.times t) {pkt : List UInt8}
    {source : Option Addr} (ha : Rearms c pkt → Arms k (c.now + rtMs)) :
    Follows k sent (mcFeed c pkt source) (mcFeed (c.retime t) pkt source) := by
  have h' := h.heard
  unfold mcFeed
  refine rel_ite (fun _ => ⟨rfl, t, rfl, h⟩) fun hlen => ?_
  dsimp only
  split
  case h_1 => exact feedSyn_follows (c := { c with lastRecv := c.now }) h' pkt source
  case h_2 => exact feedSynack_follows (c := { c with lastRecv := c.now }) h' h.now pkt source
  case h_3 => exact feedAck_follows (c := { c with lastRecv := c.now }) h' h.now pkt
  case h_4 h4 =>
    refine feedData_follows (c := { c with lastRecv := c.now }) h' h.now fun h1 h2 h3 => ?_
    exact ha ⟨Nat.le_of_not_lt hlen, UInt8.toNat_inj.1 h4, h1, h2, h3⟩
  case h_5 => exact feedFin_follows (c := { c with lastRecv := c.now }) h' pkt
  case h_6 => exact ⟨rfl, _, rfl, h'⟩

/-! ## Packets -/

/-- `mc_send_next` gets to its DATA packet. -/
def SendsData (c : Mc) (buflen : Nat) : Prop :=
  mcHdr ≤ buflen ∧ c.sendSynack = false ∧ c.sendAck = false ∧ c.sendSyn = false ∧
    c.state = .connected ∧ ¬ (c.txUnsent = c.txNext ∧ c.txu = [] ∧ !c.ackPending)

instance (c : Mc) (buflen : Nat) : Decidable (SendsData c buflen) :=
  inferInstanceAs (Decidable (_ ∧ _))

/-- The packets of a call in the two runs look alike; from then on something was sent. -/
def Sends (k : UInt32) (sent : Bool) (r r' : Mc × Option (List UInt8 × Addr)) : Prop :=
  r'.2 = r.2 ∧ Alike k (sent || r.2.isSome) r.1 r'.1

theorem Shifted.ensure (h : Shifted k sent s u t) {d : UInt32} {p : Prop} [Decidable p]
    (ha : p → u.txTimer = 0 → Arms k (u.now + d)) :
    Shifted k sent s { u with txTimer := if p ∧ u.txTimer = 0 then u.now + d else u.txTimer }
      { t with txTimer := if p ∧ t.txTimer = 0 then t.now + d else t.txTimer } := by
  by_cases hp : p ∧ u.txTimer = 0
  · rw [if_pos hp, if_pos ⟨hp.1, h.tx_zero.2 hp.2⟩]
    exact h.arm (ha hp.1 hp.2)
  · rw [if_neg hp, if_neg fun h' => hp ⟨h'.1, h.tx_zero.1 h'.2⟩]
    exact h

theorem sendData_alike (h : Shifted k sent c.state c.times t) (cap : Nat)
    (ha : c.txBase ≠ c.txNext → c.txTimer = 0 → Arms k (c.now + rtMs)) :
    Alike k true (sendData mcWindow cap c).1 (sendData mcWindow cap (c.retime t)).1 :=
  ⟨_, rfl, (h.ensure ha).sends⟩

theorem mcSendNext_sends (h : Shifted k sent c.state c.times t) {buflen : Nat}
    (ha : SendsData c buflen → c.txBase ≠ c.txNext → c.txTimer = 0 → Arms k (c.now + rtMs)) :
    Sends k sent (mcSendNext mcWindow c buflen) (mcSendNext mcWindow (c.retime t) buflen) := by
  have hoff : Sends k sent (c, none) (c.retime t, none) := by
    refine ⟨rfl, t, rfl, ?_⟩
    rw [Option.isSome_none, Bool.or_false]
    exact h
  have hon : ∀ {d d' : Mc} {p : List UInt8 × Addr}, Alike k true d d' →
      Sends k sent (d, some p) (d', some p) := by
    intro d d' p hd
    refine ⟨rfl, ?_⟩
    rw [Option.isSome_some, Bool.or_true]
    exact hd
  unfold mcSendNext
  refine rel_ite (fun _ => hoff) fun h1 => ?_
  refine rel_ite (fun _ => hon ⟨_, rfl, h.sends⟩) fun h2 => ?_
  refine rel_ite (fun _ => hon ⟨_, rfl, h.sends⟩) fun h3 => ?_
  refine rel_ite (fun _ => hon ⟨_, rfl, h.sends⟩) fun h4 => ?_
  refine rel_ite (fun _ => hoff) fun h5 => ?_
  refine rel_ite (fun _ => hoff) fun h6 => ?_
  have hdata : SendsData c buflen := ⟨Nat.le_of_not_lt h1, Bool.eq_false_of_not_eq_true h2,
    Bool.eq_false_of_not_eq_true h3, Bool.eq_false_of_not_eq_true h4, not_not.1 h5, h6⟩
  exact hon (sendData_alike h (min buflen mcMtu) (ha hdata))

/-! ## Timers -/

/-- A deadline that is compared alike on both clocks. -/
theorem due_iff {now deadline : UInt32} (hw : Wraps k now ↔ Wraps k deadline) :
    now + k ≥ deadline + k ↔ now ≥ deadline :=
  (ge_add_iff k now deadline).2 hw

theorem retry_alike {d : Mc} (hs : c.state = .connecting) (h : Alike k sent c d) :
    Alike k sent { c with connectTimer := c.now + connectRetryMs }
      { d with connectTimer := d.now + connectRetryMs } := by
  obtain ⟨t, rfl, h⟩ := h
  refine ⟨{ t with connectTimer := t.now + connectRetryMs }, rfl, ?_⟩
  show Shifted k sent c.state _ _
  rw [hs]
  exact h.connecting

theorem serviceConnecting_follows (h : Shifted k sent c.state c.times t)
    (hs : c.state = .connecting) (hw : Wraps k c.now ↔ Wraps k c.connectTimer) :
    Follows k sent (serviceConnecting c) (serviceConnecting (c.retime t)) := by
  unfold serviceConnecting
  refine rel_ite_iff ?_ (fun _ => ?_) fun _ => ⟨rfl, t, rfl, h⟩
  · show t.now ≥ t.connectTimer ↔ _
    rw [h.now, h.connect hs]
    exact due_iff hw
  refine rel_ite (fun _ => ⟨rfl, evPush_alike _ ⟨t, rfl, h.off nofun nofun⟩⟩) fun _ => ⟨rfl, ?_⟩
  refine retry_alike ?_ (rel_ite (fun _ => ⟨t, rfl, h⟩) fun _ => ⟨t, rfl, h⟩)
  split <;> exact hs

theorem keepalive_alike (h : Shifted k sent c.state c.times t)
    (hk : sent = false → (keepaliveMs < c.now ↔ keepaliveMs < c.now + k)) :
    Alike k sent (if c.now - c.lastSend > keepaliveMs then { c with ackPending := true } else c)
      (if t.now - t.lastSend > keepaliveMs then { c.retime t with ackPending := true }
        else c.retime t) := by
  refine rel_ite_iff ?_ (fun _ => ⟨t, rfl, h⟩) fun _ => ⟨t, rfl, h⟩
  rw [h.now]
  cases sent with
  | true =>
    rw [h.send rfl]
    exact iff_of_eq (congrArg (keepaliveMs < ·) (add_sub_add k c.now c.lastSend))
  | false =>
    obtain ⟨h1, h2⟩ := h.unsent rfl
    rw [show c.lastSend = 0 from h1, h2, UInt32.sub_zero, UInt32.sub_zero]
    exact (hk rfl).symm

/-- `mc_service` meets the clock alike in both runs: a deadline it looks at does not pass zero in
one of them only, and the deadline it sets is not 0 in one of them only. -/
def ServiceOk (k : UInt32) (sent : Bool) (c : Mc) (nowMs : UInt32) : Prop :=
  (c.state = .connecting → (Wraps k nowMs ↔ Wraps k c.connectTimer)) ∧
  (c.state = .connected → ¬ nowMs - c.lastRecv > idleMs →
    (c.txBase ≠ c.txNext → c.txTimer ≠ 0 → (Wraps k nowMs ↔ Wraps k c.txTimer) ∧
      (nowMs ≥ c.txTimer → Arms k (nowMs + backoff (c.txAttempts + 1)))) ∧
    (sent = false → (keepaliveMs < nowMs ↔ keepaliveMs < nowMs + k)))

instance (k : UInt32) (sent : Bool) (c : Mc) (nowMs : UInt32) :
    Decidable (ServiceOk k sent c nowMs) :=
  inferInstanceAs (Decidable ((_ → _) ∧ (_ → _ → _ ∧ _)))

theorem serviceConnected_follows (h : Shifted k sent c.state c.times t)
    (hs : c.state = .connected) (hok : ServiceOk k sent c c.now) :
    Follows k sent (serviceConnected c) (serviceConnected (c.retime t)) := by
  unfold serviceConnected
  refine rel_ite_iff ?_ (fun _ => ⟨rfl, evPush_alike _ ⟨t, rfl, h.off nofun nofun⟩⟩) fun hidle => ?_
  · show t.now - t.lastRecv > idleMs ↔ _
    rw [h.now, h.recv hs]
    exact iff_of_eq (congrArg (idleMs < ·) (add_sub_add k c.now c.lastRecv))
  obtain ⟨htx, hkeep⟩ := hok.2 hs hidle
  refine rel_ite_iff ?_ (fun hdue => ?_) fun _ => ⟨rfl, keepalive_alike h hkeep⟩
  · show c.txBase ≠ c.txNext ∧ t.txTimer ≠ 0 ∧ t.now ≥ t.txTimer ↔ _
    have hz : t.txTimer ≠ 0 ↔ c.txTimer ≠ 0 := h.tx_zero.not
    rw [hz]
    refine and_congr_right fun hne => and_congr_right fun h0 => ?_
    rw [h.now, h.tx, if_neg (show ¬ c.times.txTimer = 0 from h0)]
    exact due_iff (htx hne h0).1
  refine rel_ite (fun _ => ⟨rfl, evPush_alike _ ⟨t, rfl, h.off nofun nofun⟩⟩) fun _ => ⟨rfl, ?_⟩
  exact keepalive_alike
    (c := { c with txAttempts := c.txAttempts + 1, txUnsent := c.txBase
                   txTimer := c.now + backoff (c.txAttempts + 1) })
    (t := { t with txTimer := t.now + backoff (c.txAttempts + 1) })
    (h.arm ((htx hdue.1 hdue.2.1).2 hdue.2.2)) hkeep

theorem serviced_follows (h : Shifted k sent c.state c.times t) (hok : ServiceOk k sent c c.now) :
    Follows k sent
      (if c.state = .connecting then serviceConnecting c
        else if c.state = .connected then serviceConnected c else (-1, c))
      (if c.state = .connecting then serviceConnecting (c.retime t)
        else if c.state = .connected then serviceConnected (c.retime t) else (-1, c.retime t)) := by
  refine rel_ite (fun hs => ?_) fun _ => rel_ite (fun hs => ?_) fun _ => ⟨rfl, t, rfl, h⟩
  · exact serviceConnecting_follows h hs (hok.1 hs)
  · exact serviceConnected_follows h hs hok

theorem mcService_follows (h : Shifted k sent c.state c.times t) {nowMs : UInt32}
    (hok : ServiceOk k sent c nowMs) :
    Follows k sent (mcService c nowMs) (mcService (c.retime t) (nowMs + k)) :=
  serviced_follows (c := { c with now := nowMs }) (t := { t with now := nowMs + k })
    { h with now := rfl } hok

/-! ## Runs -/

/-- The same call on the clock that is ahead by `k`. -/
def Step.shift (k : UInt32) : Step → Step
  | .service nowMs => .service (nowMs + k)
  | st => st

/-- What a run shows: what each call returns, and the connection after it but for its times. -/
def trace : Mc → List Step → List (Out × Mc)
  | _, [] => []
  | c, st :: sts => ((st.exec c).1, (st.apply c).retime {}) :: trace (st.apply c) sts

/-- A call, and whether a packet was sent yet. -/
def Step.advance (x : Mc × Bool) (st : Step) : Mc × Bool :=
  (st.apply x.1, match st with
    | .sendNext buflen => x.2 || (mcSendNext mcWindow x.1 buflen).2.isSome
    | _ => x.2)

/-- A call meets the clock alike in both runs. -/
def ClockOk (k : UInt32) (x : Mc × Bool) : Step → Prop
  | .service nowMs => ServiceOk k x.2 x.1 nowMs
  | .feed pkt _ => Rearms x.1 pkt → Arms k (x.1.now + rtMs)
  | .sendNext buflen =>
    SendsData x.1 buflen → x.1.txBase ≠ x.1.txNext → x.1.txTimer = 0 → Arms k (x.1.now + rtMs)
  | _ => True

instance (k : UInt32) (x : Mc × Bool) : ∀ st : Step, Decidable (ClockOk k x st)
  | .service nowMs => inferInstanceAs (Decidable (ServiceOk k x.2 x.1 nowMs))
  | .feed pkt _ => inferInstanceAs (Decidable (Rearms x.1 pkt → _))
  | .sendNext buflen => inferInstanceAs (Decidable (SendsData x.1 buflen → _ → _ → _))
  | .connect _ | .chanOpen _ | .chanClose _ | .write _ _ | .read _ _ | .poll => .isTrue trivial

/-- **One call** in the two runs. -/
theorem exec_alike {d : Mc} (h : Alike k sent c d) {st : Step} (hok : ClockOk k (c, sent) st) :
    ((st.shift k).exec d).1 = (st.exec c).1 ∧
      Alike k (st.advance (c, sent)).2 (st.apply c) ((st.shift k).apply d) := by
  obtain ⟨t, rfl, h⟩ := h
  have lift : ∀ {α : Type} {r r' : α × Mc} {f : α → Out}, Follows k sent r r' →
      f r'.1 = f r.1 ∧ Alike k sent r.2 r'.2 := fun hf => ⟨congrArg _ hf.1, hf.2⟩
  cases st with
  | connect addr => exact ⟨rfl, _, rfl, h.connecting⟩
  | chanOpen type => exact lift (mcChanOpen_follows h type)
  | chanClose i => exact ⟨rfl, t, rfl, h⟩
  | write i data => exact lift (mcWrite_follows h i data)
  | read i buflen => exact lift (mcRead_follows h i buflen)
  | poll => exact lift (mcPoll_follows h)
  | feed pkt source => exact lift (mcFeed_follows h hok)
  | sendNext buflen =>
    obtain ⟨h1, h2⟩ := mcSendNext_sends h hok
    exact ⟨congrArg Out.packet h1, h2⟩
  | service nowMs => exact lift (mcService_follows h hok)

theorem trace_alike : ∀ {sts : List Step} {c d : Mc} {sent : Bool}, Alike k sent c d →
    Along Step.advance (ClockOk k) (c, sent) sts → trace d (sts.map (·.shift k)) = trace c sts
  | [], _, _, _, _, _ => rfl
  | st :: sts, c, d, sent, h, hs => by
    obtain ⟨h1, h2⟩ := exec_alike h hs.1
    have h3 : ((st.shift k).apply d).retime {} = (st.apply c).retime {} := by
      obtain ⟨t, ht, -⟩ := h2
      rw [ht]
      rfl
    rw [List.map_cons, trace, trace, h1, h3, trace_alike h2 hs.2]

end

/-- **The origin of the clock does not show**: in every run whose calls meet the clock alike, the
calls return the same, packets and events included, and leave the same connection as on a clock
that is ahead by `k`. -/
theorem same_trace (isServer : Bool) (r k : UInt32) (sts : List Step)
    (h : Along Step.advance (ClockOk k) (mcOpen isServer r, false) sts) :
    trace { mcOpen isServer r with now := k } (sts.map (·.shift k)) =
      trace (mcOpen isServer r) sts := by
  refine trace_alike ⟨{ now := k }, rfl, ?_⟩ h
  exact ⟨(UInt32.zero_add k).symm, nofun, nofun, fun _ => ⟨rfl, rfl⟩, nofun, rfl,
    fun h => absurd rfl h⟩

/-- The clock passes zero before the client connects; its SYN is sent again after 250 ms. -/
theorem same_trace_wrapped :
    let sts : List Step := [.service 200, .connect [1], .sendNext 546, .service 500, .sendNext 546]
    trace { mcOpen false 1 with now := 4294967196 } (sts.map (·.shift 4294967196)) =
      trace (mcOpen false 1) sts :=
  same_trace false 1 4294967196 _ (by decide +kernel)

/-- **The clock passes zero while the client connects**: 10 ms after the call its SYN is sent
again, because the connect timer lies behind the wrap. -/
theorem connect_retry_early :
    let sts : List Step := [.connect [1], .sendNext 546, .service 10, .sendNext 546]
    trace { mcOpen false 1 with now := 4294967196 } (sts.map (·.shift 4294967196)) ≠
      trace (mcOpen false 1) sts := by
  intro sts h
  have h1 := congrArg (List.map fun x => match x.1 with
    | .packet p => p.isSome
    | _ => false) h
  revert h1
  decide +kernel

end Netchan.Micro
