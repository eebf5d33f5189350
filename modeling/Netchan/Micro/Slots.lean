import Netchan.Lib.Wrap
import Netchan.Micro.Transmit

/-!
# The slots of the transmit window

The slot of a reliable message is its 16-bit sequence number modulo `MC_WINDOW`. Across the wrap of
the sequence number these remainders go on only if the window divides `2 ^ 16`; with any other
window the numbers in flight may fall on one slot (`slots_collide`), and the younger message
overwrites the older. `window_slots`, for every window: in a run all slots hold the messages they
stand for exactly if no message is written on a slot in use, which the window excludes for all runs
exactly if it divides `2 ^ 16`.
-/

namespace Netchan.Micro

open Lib

/-- A connection and the messages it has accepted on reliable channels. -/
structure Audit where
  conn : Mc
  written : Written := []

def Audit.step (win : Nat) (a : Audit) (st : Step) : Audit :=
  ⟨st.applyIn win a.conn, a.written ++ st.writes win a.conn⟩

/-- A fresh connection after some calls. -/
def audit (win : Nat) (isServer : Bool) (r : UInt32) (sts : List Step) : Audit :=
  run (Audit.step win) ⟨mcOpen isServer r, []⟩ sts

/-- The number of messages from `tx_base` to `tx_next`. -/
def Mc.inFlight (c : Mc) : Nat := (c.txNext - c.txBase).toNat

/-- The slot of a sequence number. -/
def slotOf (win : Nat) (seq : UInt16) : Nat := seq.toNat % win

/-- The messages in flight have slots of their own and are in them, and `mc_send_next` finds the
numbers it sends. -/
structure SlotsRight (win : Nat) (a : Audit) : Prop where
  apart : ∀ j k, j < a.conn.inFlight → k < a.conn.inFlight →
    slotOf win (a.conn.txBase + UInt16.ofNat j) = slotOf win (a.conn.txBase + UInt16.ofNat k) → j = k
  holds : ∀ k < a.conn.inFlight, ∃ x, a.written[a.written.length - a.conn.inFlight + k]? = some x ∧
    a.conn.txw (slotOf win (a.conn.txBase + UInt16.ofNat k)) =
      ⟨a.conn.txBase + UInt16.ofNat k, idByte x.1, x.2⟩
  reads : ∀ k < (a.conn.txNext - a.conn.txUnsent).toNat,
    (a.conn.txw (slotOf win (a.conn.txUnsent + UInt16.ofNat k))).seq = a.conn.txUnsent + UInt16.ofNat k

/-- The window divides the numbers, or the messages in flight do not cross the wrap, or they are no
more than the numbers left over. -/
def Apart (win : Nat) (c : Mc) : Prop :=
  win ∣ 2 ^ 16 ∨ c.inFlight ≤ 2 ^ 16 % win ∨ c.txBase.toNat + c.inFlight ≤ 2 ^ 16

/-- A reliable message is written only where one more message in flight has a slot of its own. -/
def Roomy (win : Nat) (c : Mc) : Step → Prop
  | .write i data => (Step.write i data).writes win c ≠ [] →
      win ∣ 2 ^ 16 ∨ c.inFlight < 2 ^ 16 % win ∨ c.txBase.toNat + c.inFlight < 2 ^ 16
  | _ => True

/-! ## One state -/

section
variable {win : Nat} {a : Audit} {c : Mc} {L B U : Nat}

theorem toNat_add_ofNat (s : UInt16) (k : Nat) :
    (s + UInt16.ofNat k).toNat = (s.toNat + k) % 2 ^ 16 := by
  rw [UInt16.toNat_add, UInt16.toNat_ofNat', Nat.add_mod_mod]

theorem Flight.inFlight_eq (h : Flight win c.tx L B U) (hwin : win ≤ 32767) :
    c.inFlight = L - B := by
  have hbase : c.txBase = UInt16.ofNat B := h.base
  have hnext : c.txNext = UInt16.ofNat L := h.next
  have hlo := h.lo
  have hmid := h.mid
  have hhi := h.hi
  rw [Mc.inFlight, hbase, hnext, toNat_sub_of_le (hlo.trans hmid) (by omega)]

/-- **Slots of their own**, exactly if the state is `Apart`. -/
theorem apart_iff (h1 : 1 ≤ win) (h2 : win ≤ 32767) (hn : c.inFlight ≤ win) :
    (∀ j k, j < c.inFlight → k < c.inFlight →
      slotOf win (c.txBase + UInt16.ofNat j) = slotOf win (c.txBase + UInt16.ofNat k) → j = k) ↔
    Apart win c := by
  simp only [slotOf, toNat_add_ofNat]
  exact slots_apart c.txBase.toNat_lt hn (by omega) h1

/-- The slots hold the messages from the `B`-th on. -/
def Holds (win : Nat) (txw : Nat → TxSlot) (W : Written) (B : Nat) : Prop :=
  ∀ m x, B ≤ m → W[m]? = some x →
    txw (slotOf win (UInt16.ofNat m)) = ⟨UInt16.ofNat m, idByte x.1, x.2⟩

/-- **A state whose slots hold their messages.** -/
theorem slotsRight_of (h1 : 1 ≤ win) (h2 : win ≤ 32767)
    (h : Flight win a.conn.tx a.written.length B U) (ha : Apart win a.conn)
    (hs : Holds win a.conn.txw a.written B) : SlotsRight win a := by
  have hbase : a.conn.txBase = UInt16.ofNat B := h.base
  have hunsent : a.conn.txUnsent = UInt16.ofNat U := h.unsent
  have hnext : a.conn.txNext = UInt16.ofNat a.written.length := h.next
  have hlo := h.lo
  have hmid := h.mid
  have hhi := h.hi
  have hn := h.inFlight_eq h2
  have hget : ∀ m, m < a.written.length → ∃ x, a.written[m]? = some x := fun m hm =>
    ⟨_, List.getElem?_eq_getElem hm⟩
  refine ⟨(apart_iff h1 h2 (by omega)).2 ha, fun k hk => ?_, fun k hk => ?_⟩
  · obtain ⟨x, hx⟩ := hget (B + k) (by omega)
    have hidx : a.written.length - a.conn.inFlight + k = B + k := by omega
    refine ⟨x, by rw [hidx, hx], ?_⟩
    rw [hbase, ← UInt16.ofNat_add]
    exact hs _ x (by omega) hx
  · rw [hnext, hunsent, toNat_sub_of_le hmid (by omega)] at hk
    obtain ⟨x, hx⟩ := hget (U + k) (by omega)
    rw [hunsent, ← UInt16.ofNat_add, hs _ x (by omega) hx]

/-! ## Runs -/

/-- `Apart` by the counters. -/
def ApartAt (win L B : Nat) : Prop :=
  win ∣ 2 ^ 16 ∨ L - B ≤ 2 ^ 16 % win ∨ B % 2 ^ 16 + (L - B) ≤ 2 ^ 16

theorem Flight.apart_iff_at (h : Flight win c.tx L B U) (hwin : win ≤ 32767) :
    Apart win c ↔ ApartAt win L B := by
  have hbase : c.txBase = UInt16.ofNat B := h.base
  rw [Apart, h.inFlight_eq hwin, hbase, UInt16.toNat_ofNat', ApartAt]

theorem Flight.base_eq {t : Tx} {L' B' U' : Nat} (h : Flight win c.tx L B U)
    (h' : Flight win t L' B' U') (hwin : win ≤ 32767) (hL : L' ≤ L + 1) (hB : B ≤ B')
    (hbase : t.base = c.txBase) : B' = B := by
  have hb : UInt16.ofNat B' = UInt16.ofNat B := by
    rw [← h'.base, hbase]
    exact h.base
  have hhi := h.hi
  have hlo := h'.lo
  have hmid := h'.mid
  exact eq_of_ofNat hb (by omega) (by omega)

theorem ApartAt.advance {B' : Nat} (h : ApartAt win L B) (hB : B ≤ B') (hL : B' ≤ L) :
    ApartAt win L B' := by
  rcases h with h | h | h
  · exact .inl h
  · exact .inr (.inl (by omega))
  · exact .inr (.inr (by omega))

theorem processAck_txw (c : Mc) (ack : UInt16) : (processAck c ack).tx.txw = c.txw := by
  unfold processAck
  dsimp only
  split
  · rfl
  · rfl

/-- The slots change only by a message that is written. -/
theorem TxStep.slots {st : Step} {t : Tx} (h : TxStep win c st t) :
    (st.writes win c = [] ∧ t.txw = c.txw) ∨
    ∃ i data, st = .write i data ∧ st.writes win c = [(i, data)] ∧ t.base = c.txBase ∧
      t.txw = Function.update c.txw (c.txNext.toNat % win) ⟨c.txNext, idByte i, data⟩ := by
  cases h with
  | same st hw => exact .inl ⟨hw, rfl⟩
  | wrote i data hw hlen hroom => exact .inr ⟨i, data, rfl, hw, rfl, rfl⟩
  | queued i data txu hw hlen hsuf => exact .inl ⟨hw, rfl⟩
  | acked pkt source ack => exact .inl ⟨rfl, processAck_txw c ack⟩
  | resent nowMs hne => exact .inl ⟨rfl, rfl⟩
  | gaveUp nowMs hne => exact .inl ⟨rfl, rfl⟩
  | sent buflen => exact .inl ⟨rfl, rfl⟩

/-- A message takes a slot that none of those in flight has. -/
theorem Holds.write {txw : Nat → TxSlot} {W : Written} (h : Holds win txw W B)
    (ha : SlotsApart (2 ^ 16) win (B % 2 ^ 16) (W.length + 1 - B)) (hB : B ≤ W.length) (i : ChanId)
    (data : List UInt8) :
    Holds win (Function.update txw (slotOf win (UInt16.ofNat W.length))
      ⟨UInt16.ofNat W.length, idByte i, data⟩) (W ++ [(i, data)]) B := by
  intro m x hm hx
  by_cases hml : m < W.length
  · have hne : slotOf win (UInt16.ofNat m) ≠ slotOf win (UInt16.ofNat W.length) := by
      intro heq
      simp only [slotOf, UInt16.toNat_ofNat'] at heq
      have hmod : ∀ k, B ≤ k → (B % 2 ^ 16 + (k - B)) % 2 ^ 16 = k % 2 ^ 16 := by
        intro k hk
        rw [Nat.mod_add_mod, Nat.add_sub_cancel' hk]
      have := ha (m - B) (W.length - B) (by omega) (by omega)
        (by rw [hmod m hm, hmod W.length hB]; exact heq)
      omega
    rw [List.getElem?_append_left hml] at hx
    rw [Function.update_of_ne hne]
    exact h m x hm hx
  · have heq : m = W.length := by
      have := (List.getElem?_eq_some_iff.1 hx).1
      simp at this
      omega
    subst heq
    rw [List.getElem?_append_right (Nat.le_refl _), Nat.sub_self, List.getElem?_cons_zero,
      Option.some.injEq] at hx
    subst hx
    rw [Function.update_self]

/-- The slots hold what is in flight. -/
def Sound (win : Nat) (a : Audit) : Prop :=
  ∃ B U, Flight win a.conn.tx a.written.length B U ∧ ApartAt win a.written.length B ∧
    Holds win a.conn.txw a.written B

theorem sound_init (isServer : Bool) (r : UInt32) : Sound win ⟨mcOpen isServer r, []⟩ :=
  ⟨0, 0, ⟨rfl, rfl, rfl, Nat.le_refl _, Nat.le_refl _, Nat.zero_le _⟩,
    .inr (.inl (Nat.zero_le _)), fun m x _ hx => by simp at hx⟩

/-- A message finds room exactly if the messages in flight are apart once it is written. -/
theorem roomy_iff (hf : Flight win c.tx L B U) (hwin : win ≤ 32767) {i : ChanId}
    {data : List UInt8} (hw : (Step.write i data).writes win c = [(i, data)]) :
    Roomy win c (.write i data) ↔ ApartAt win (L + 1) B := by
  have hbase : c.txBase = UInt16.ofNat B := hf.base
  have hBL : B ≤ L := hf.lo.trans hf.mid
  have hlt : L - B < 2 ^ 16 % win ↔ L + 1 - B ≤ 2 ^ 16 % win := by omega
  have hcross : B % 2 ^ 16 + (L - B) < 2 ^ 16 ↔ B % 2 ^ 16 + (L + 1 - B) ≤ 2 ^ 16 := by omega
  rw [Roomy, hw, hf.inFlight_eq hwin, hbase, UInt16.toNat_ofNat', hlt, hcross, ApartAt]
  simp

/-- **A call keeps the slots sound**, if a message it writes finds room. -/
theorem Sound.step (h1 : 1 ≤ win) (h2 : win ≤ 32767) (h : Sound win a) {st : Step}
    (hr : Roomy win a.conn st) : Sound win (a.step win st) := by
  obtain ⟨B, U, hf, ha, hs⟩ := h
  have ht := applyIn_tx win a.conn st
  obtain ⟨B', U', hB, hf'⟩ := hf.step h2 ht
  have hlo := hf'.lo
  have hmid := hf'.mid
  have hhi := hf.hi
  have hlen : (a.step win st).written.length = a.written.length + (st.writes win a.conn).length :=
    List.length_append
  rcases ht.slots with ⟨hw, htxw⟩ | ⟨i, data, rfl, hw, hbase, htxw⟩
  · have hwr : (a.step win st).written = a.written := by
      rw [Audit.step, hw, List.append_nil]
    have htx : (a.step win st).conn.txw = a.conn.txw := htxw
    rw [hw, List.length_nil, Nat.add_zero] at hf'
    rw [hw, List.length_nil, Nat.add_zero] at hmid
    refine ⟨B', U', by rw [hwr]; exact hf', by rw [hwr]; exact ha.advance hB (hlo.trans hmid), ?_⟩
    rw [hwr, htx]
    exact fun m x hm hx => hs m x (by omega) hx
  · rw [hw, List.length_singleton] at hf' hlen hmid
    have hcn : a.conn.txNext = UInt16.ofNat a.written.length := hf.next
    obtain rfl := hf.base_eq hf' h2 (Nat.le_refl _) hB hbase
    have hBL : B' ≤ a.written.length := hf.lo.trans hf.mid
    have hroom : ApartAt win (a.written.length + 1) B' := (roomy_iff hf h2 hw).1 hr
    have hap : SlotsApart (2 ^ 16) win (B' % 2 ^ 16) (a.written.length + 1 - B') :=
      (slots_apart (Nat.mod_lt _ (by decide)) (by have := hf'.hi; omega) (by omega) h1).2 hroom
    refine ⟨B', U', by rw [hlen]; exact hf', by rw [hlen]; exact hroom, ?_⟩
    have htx : (a.step win (.write i data)).conn.txw = Function.update a.conn.txw
        (slotOf win (UInt16.ofNat a.written.length))
        ⟨UInt16.ofNat a.written.length, idByte i, data⟩ := by
      rw [← hcn]
      exact htxw
    have hwr : (a.step win (.write i data)).written = a.written ++ [(i, data)] := by
      rw [Audit.step, hw]
    rw [hwr, htx]
    exact hs.write hap hBL i data

theorem Sound.right (h1 : 1 ≤ win) (h2 : win ≤ 32767) (h : Sound win a) : SlotsRight win a := by
  obtain ⟨B, U, hf, ha, hs⟩ := h
  exact slotsRight_of h1 h2 hf ((hf.apart_iff_at h2).2 ha) hs

theorem flight_run (hwin : win ≤ 32767) (isServer : Bool) (r : UInt32) (sts : List Step) :
    ∃ B U, Flight win (audit win isServer r sts).conn.tx (audit win isServer r sts).written.length
      B U := by
  refine run_invariant (I := fun a : Audit => ∃ B U, Flight win a.conn.tx a.written.length B U)
    (A := fun _ _ => True) (fun a st h _ => ?_)
    ⟨0, 0, rfl, rfl, rfl, Nat.le_refl _, Nat.le_refl _, Nat.zero_le _⟩ (along_true sts)
  obtain ⟨B, U, hf⟩ := h
  obtain ⟨B', U', -, hf'⟩ := hf.step hwin (applyIn_tx win a.conn st)
  refine ⟨B', U', ?_⟩
  rw [Audit.step, List.length_append]
  exact hf'

/-- A message that leaves the slots right found room. -/
theorem roomy_of_right (h1 : 1 ≤ win) (h2 : win ≤ 32767)
    (hf : Flight win a.conn.tx a.written.length B U) {st : Step}
    (hr : SlotsRight win (a.step win st)) : Roomy win a.conn st := by
  have ht := applyIn_tx win a.conn st
  rcases ht.slots with ⟨hw, -⟩ | ⟨i, data, rfl, hw, hbase, -⟩
  · cases st with
    | write i data => exact fun hne => absurd hw hne
    | _ => trivial
  · obtain ⟨B', U', hB, hf'⟩ := hf.step h2 ht
    rw [hw, List.length_singleton] at hf'
    obtain rfl := hf.base_eq hf' h2 (Nat.le_refl _) hB hbase
    have hn : (a.step win (.write i data)).conn.inFlight ≤ win := by
      have heq : (a.step win (.write i data)).conn.inFlight = a.written.length + 1 - B' :=
        hf'.inFlight_eq h2
      have hhi := hf'.hi
      omega
    have hap : Apart win (a.step win (.write i data)).conn := (apart_iff h1 h2 hn).1 hr.apart
    exact (roomy_iff hf h2 hw).2 ((hf'.apart_iff_at h2).1 hap)

/-! ## A run across the wrap -/

/-- A connected client with a reliable channel 0 and `n` messages in flight from the `B`-th on. -/
structure Linked (c : Mc) (B n : Nat) : Prop where
  up : c.state = .connected
  client : c.isServer = false
  id : c.localId = 7
  used : (c.chan 0).used = true
  reliable : (c.chan 0).type = .reliable
  base : c.txBase = UInt16.ofNat B
  next : c.txNext = UInt16.ofNat (B + n)

theorem Linked.inFlight_eq {n : Nat} (h : Linked c B n) (hn : n < 2 ^ 16) : c.inFlight = n := by
  rw [Mc.inFlight, h.next, h.base, toNat_sub_of_le (by omega) (by omega)]
  omega

theorem Linked.write {n : Nat} (h : Linked a.conn B n) (hn : n < win) (hwin : win ≤ 32767) :
    Linked (a.step win (.write 0 [])).conn B (n + 1) := by
  have hroom : ¬ (a.conn.txNext - a.conn.txBase).toNat ≥ win := by
    have := h.inFlight_eq (by omega)
    rw [Mc.inFlight] at this
    omega
  have hw : (mcWrite win a.conn 0 []).2 = { a.conn with
      txw := Function.update a.conn.txw (a.conn.txNext.toNat % win) ⟨a.conn.txNext, idByte 0, []⟩
      txNext := a.conn.txNext + 1 } := by
    rw [mcWrite, if_neg (by simp [h.used]), if_neg (fun hn => hn h.up), if_neg (by simp),
      if_pos h.reliable, if_neg hroom]
  have hc : (a.step win (.write 0 [])).conn = (mcWrite win a.conn 0 []).2 := rfl
  rw [hc, hw]
  refine ⟨h.up, h.client, h.id, h.used, h.reliable, h.base, ?_⟩
  show a.conn.txNext + 1 = _
  rw [h.next, ofNat_succ]
  rfl

/-- An empty DATA packet that acknowledges everything before the `N`-th message. -/
def ackOf (N : Nat) : Step := .feed (header 7 4 (UInt16.ofNat N) ++ encodeRecs []) none

theorem Linked.ack (h : Linked a.conn B 1) : Linked (a.step win (ackOf (B + 1))).conn (B + 1) 0 := by
  have hfuel : (a.conn.txNext - a.conn.txBase).toNat = 1 := h.inFlight_eq (by decide)
  have hne : UInt16.ofNat B ≠ UInt16.ofNat (B + 1) := by
    intro heq
    have := eq_of_ofNat heq (by omega) (by omega)
    omega
  have hloop : ackLoop (UInt16.ofNat (B + 1)) a.conn.txNext 1 a.conn.txBase =
      UInt16.ofNat (B + 1) := by
    rw [h.next, h.base, ackLoop, seqAfter_ofNat (by omega) (by omega),
      if_pos ⟨hne, decide_eq_true (Nat.lt_succ_self B)⟩, ackLoop, ofNat_succ]
  have hc : (a.step win (ackOf (B + 1))).conn =
      processAck { a.conn with lastRecv := a.conn.now } (UInt16.ofNat (B + 1)) := by
    have hstep : (a.step win (ackOf (B + 1))).conn =
        (mcFeed a.conn (header 7 4 (UInt16.ofNat (B + 1)) ++ encodeRecs []) none).2 := by
      simp only [ackOf, Audit.step, Step.applyIn, Step.apply, Step.exec, Prod.map_snd, id_eq]
    rw [hstep, ← h.id, mcFeed_data h.up _ (by simp), List.foldl_nil]
  rw [hc, processAck]
  dsimp only
  rw [hfuel, hloop, h.base, if_pos (Ne.symm hne)]
  exact ⟨h.up, h.client, h.id, h.used, h.reliable, rfl, h.next⟩

/-- A message is written and acknowledged. -/
def ackedWrite (k : Nat) : List Step := [.write 0 [], ackOf (k + 1)]

theorem Linked.acked (h1 : 1 ≤ win) (h2 : win ≤ 32767) (h : Linked a.conn 0 0) : ∀ N,
    Linked (run (Audit.step win) a ((List.range N).flatMap ackedWrite)).conn N 0
  | 0 => h
  | N + 1 => by
    rw [List.range_succ, List.flatMap_append, run_append, List.flatMap_singleton]
    exact ((Linked.acked h1 h2 h N).write h1 h2).ack

theorem Linked.filled (h2 : win ≤ 32767) (h : Linked a.conn B 0) : ∀ n ≤ win,
    Linked (run (Audit.step win) a (List.replicate n (.write 0 []))).conn B n
  | 0, _ => h
  | n + 1, hn => by
    rw [List.replicate_succ', run_concat]
    exact (Linked.filled h2 h n (by omega)).write (by omega) h2

/-- A client comes up, has all but the last of the numbers used and acknowledged, and then fills its
window. -/
def fillRun (win : Nat) : List Step :=
  [.chanOpen .reliable, .connect [], .feed (header 7 2 0 ++ wr32 11) none] ++
    ((List.range 65535).flatMap ackedWrite ++ List.replicate win (.write 0 []))

/-- **A window that does not divide the numbers** overlaps itself across the wrap. -/
theorem slots_collide (h1 : 1 ≤ win) (h2 : win ≤ 32767) (h : ¬ win ∣ 2 ^ 16) :
    ¬ SlotsRight win (audit win false 7 (fillRun win)) := by
  intro hright
  have hup : Linked (run (Audit.step win) ⟨mcOpen false 7, []⟩ [.chanOpen .reliable, .connect [],
      .feed (header 7 2 0 ++ wr32 11) none]).conn 0 0 := by
    constructor <;> rfl
  have hlinked : Linked (audit win false 7 (fillRun win)).conn 65535 win := by
    rw [audit, fillRun, run_append, run_append]
    exact ((hup.acked h1 h2 65535).filled h2) win (Nat.le_refl _)
  have hn := hlinked.inFlight_eq (by omega)
  have hap := (apart_iff h1 h2 (Nat.le_of_eq hn)).1 hright.apart
  have hmod : 2 ^ 16 % win < win := Nat.mod_lt _ h1
  rw [Apart, hn, hlinked.base] at hap
  rcases hap with hd | hd | hd
  · exact h hd
  · omega
  · have hone : win = 1 := by
      have : (UInt16.ofNat 65535).toNat = 65535 := rfl
      omega
    exact h (hone ▸ Nat.one_dvd _)

end

/-! ## All runs -/

/-- **The transmit window never overwrites a message in flight**: in a run with a window of `win`
messages the slots are right in every state exactly if every message finds room, and they are right
in every state of every run exactly if the window divides `2 ^ 16`. -/
theorem window_slots {win : Nat} (h1 : 1 ≤ win) (h2 : win ≤ 32767) :
    (∀ isServer r sts,
      (∀ pre suf, sts = pre ++ suf → SlotsRight win (audit win isServer r pre)) ↔
        Along (Audit.step win) (fun a st => Roomy win a.conn st) ⟨mcOpen isServer r, []⟩ sts) ∧
    ((∀ isServer r sts, SlotsRight win (audit win isServer r sts)) ↔ win ∣ 2 ^ 16) := by
  have hsound : ∀ isServer r sts,
      Along (Audit.step win) (fun a st => Roomy win a.conn st) ⟨mcOpen isServer r, []⟩ sts →
      SlotsRight win (audit win isServer r sts) := by
    intro isServer r sts h
    have hs : Sound win (audit win isServer r sts) :=
      run_invariant (fun a st ha hr => ha.step h1 h2 hr) (sound_init isServer r) h
    exact hs.right h1 h2
  refine ⟨fun isServer r sts => ⟨fun h => ?_, fun h pre suf he => ?_⟩, fun h => ?_, fun h => ?_⟩
  · refine along_iff.2 fun pre st suf he => ?_
    obtain ⟨B, U, hf⟩ := flight_run h2 isServer r pre
    have hright := h (pre ++ [st]) suf (by rw [he, List.append_assoc]; rfl)
    rw [audit, run_concat] at hright
    exact roomy_of_right h1 h2 hf hright
  · rw [he] at h
    exact hsound isServer r pre (along_append.1 h).1
  · by_contra hdvd
    exact slots_collide h1 h2 hdvd (h false 7 (fillRun win))
  · intro isServer r sts
    refine hsound isServer r sts (along_iff.2 fun pre st suf he => ?_)
    cases st with
    | write i data => exact fun _ => .inl h
    | _ => trivial

theorem window_slots_default :
    (1 ≤ mcWindow ∧ mcWindow ≤ 32767) ∧
      ((∀ isServer r sts, SlotsRight mcWindow (audit mcWindow isServer r sts)) ↔
        mcWindow ∣ 2 ^ 16) :=
  ⟨by decide, (@window_slots mcWindow (by decide) (by decide)).2⟩

/-- With a window of three the sequence numbers 65535, 0 and 1 are in flight in slots 0, 0 and 1. -/
theorem three_slots_collide : ¬ SlotsRight 3 (audit 3 false 7 (fillRun 3)) :=
  slots_collide (by decide) (by decide) (by decide)

end Netchan.Micro
