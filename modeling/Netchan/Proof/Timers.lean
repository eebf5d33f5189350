import Netchan.Pair.Slots
import Netchan.Proof.Closing

/-!
# The timers of `netchan_service`

What `netchan_service` does to a channel (`chanTimed_alive`, `chanTimed_dead`), and two results on
top of it.

* `lost_segment_resent`: a message whose timer has run out is queued again or ends its channel
  exactly when the channel is RELIABLE, the message was not stamped with clock 0, and the session
  does not end. A STREAM channel is passed over (`stream_not_resent`).
* `wait_safe`: nothing happens before the wait it returns is over, provided every timer that the
  call itself starts again runs at least as long as one that the wait was computed from. Those that
  it starts again are not looked at (`resend_before_wait`).
-/

namespace Netchan

open Lib

/-! ## A channel -/

section
variable {cfg : Cfg} {now : UInt32}

/-- The scan goes on to its end: every slot whose timer has run out is queued again. -/
theorem serviceSlots_alive : ∀ (js : List (Fin ncOutgoingSlots)) (s : Sender) (n : Int), js.Nodup →
    (∀ k ∈ js, (s.outgoing k).Due cfg now → (s.outgoing k).attempts < ncMaxRtAttempts) →
    (serviceSlots cfg now js s n).2.1 = false ∧
      ∀ k, (serviceSlots cfg now js s n).1.outgoing k =
        if k ∈ js ∧ (s.outgoing k).Due cfg now then (s.outgoing k).requeued now else s.outgoing k
  | [], s, n, _, _ => ⟨rfl, fun k => by simp [serviceSlots]⟩
  | j :: js, s, n, hn, hlive => by
    obtain ⟨hj, hn⟩ := List.nodup_cons.1 hn
    have hrest : ∀ k ∈ js, (s.outgoing k).Due cfg now → (s.outgoing k).attempts < ncMaxRtAttempts :=
      fun k hk => hlive k (.tail _ hk)
    have hskip : ∀ m, ¬ (s.outgoing j).Due cfg now → (serviceSlots cfg now js s m).2.1 = false ∧
        ∀ k, (serviceSlots cfg now js s m).1.outgoing k =
          if k ∈ j :: js ∧ (s.outgoing k).Due cfg now then (s.outgoing k).requeued now
          else s.outgoing k := by
      intro m hnd
      obtain ⟨h1, h2⟩ := serviceSlots_alive js s m hn hrest
      refine ⟨h1, fun k => ?_⟩
      rw [h2 k]
      by_cases hk : k = j
      · subst hk
        rw [if_neg fun h => hnd h.2, if_neg fun h => hnd h.2]
      · simp only [List.mem_cons, hk, false_or]
    unfold serviceSlots
    dsimp only
    split
    · rename_i hg
      refine hskip n fun hd => ?_
      simp [hd.1, hd.2.1] at hg
    · rename_i hg
      split
      · rename_i ht
        have hdue : (s.outgoing j).Due cfg now := by
          simp only [Bool.or_eq_true, Bool.not_eq_true', beq_iff_eq, not_or, Bool.not_eq_false] at hg
          exact ⟨hg.1, hg.2, ht⟩
        rw [if_neg (Nat.not_le.2 (hlive j (.head _) hdue))]
        obtain ⟨h1, h2⟩ := serviceSlots_alive js
          { s with outgoing := Function.update s.outgoing j ((s.outgoing j).requeued now)
                   retransmissions := s.retransmissions + 1 } n hn fun k hk => by
            have hkj : k ≠ j := fun he => hj (he ▸ hk)
            simp only [Function.update_of_ne hkj]
            exact hrest k hk
        refine ⟨h1, fun k => (h2 k).trans ?_⟩
        by_cases hk : k = j
        · subst hk
          rw [if_neg fun h => hj h.1, if_pos ⟨.head _, hdue⟩]
          exact Function.update_self ..
        · simp only [List.mem_cons, hk, false_or, Function.update_of_ne hk]
      · rename_i ht
        exact hskip _ fun hd => ht hd.2.2

/-- **A channel that is not given up**: the messages whose timers have run out are queued again. -/
theorem chanTimed_alive {ch : Chan} (hr : ch.role = .sender) (ht : ch.type = .reliable)
    (h : ¬ ch.Exhausted cfg now) :
    (chanTimed cfg now ch).state = ch.state ∧ ∀ k, (chanTimed cfg now ch).snd.outgoing k =
      if (ch.snd.outgoing k).Due cfg now then (ch.snd.outgoing k).requeued now
      else ch.snd.outgoing k := by
  have hlive : ∀ k ∈ List.finRange ncOutgoingSlots, (ch.snd.outgoing k).Due cfg now →
      (ch.snd.outgoing k).attempts < ncMaxRtAttempts := by
    intro k _ hd
    by_contra ha
    exact h ⟨⟨hr, ht⟩, k, hd, Nat.le_of_not_lt ha⟩
  obtain ⟨h1, h2⟩ := serviceSlots_alive _ ch.snd 0 (List.nodup_finRange ncOutgoingSlots) hlive
  have hg : ¬ (ch.role ≠ .sender ∨ ch.type ≠ .reliable) := by simp [hr, ht]
  unfold chanTimed
  rw [if_neg hg]
  refine ⟨?_, fun k => ?_⟩
  · dsimp only
    rw [h1]
    rfl
  · dsimp only
    rw [h2 k]
    simp only [List.mem_finRange, true_and]

variable (cfg now) in
/-- A scan that meets a message that was sent too often ends there. -/
theorem serviceSlots_dead : ∀ (js : List (Fin ncOutgoingSlots)) (s : Sender) (n : Int), js.Nodup →
    (∃ k ∈ js, (s.outgoing k).Due cfg now ∧ ncMaxRtAttempts ≤ (s.outgoing k).attempts) →
    (serviceSlots cfg now js s n).2.1 = true
  | [], _, _, _, h => by simp at h
  | j :: js, s, n, hn, h => by
    obtain ⟨hj, hn⟩ := List.nodup_cons.1 hn
    obtain ⟨k, hk, hd, ha⟩ := h
    unfold serviceSlots
    dsimp only
    rcases List.mem_cons.1 hk with rfl | hk
    · rw [if_neg (by simp [hd.1, hd.2.1]), if_pos hd.2.2, if_pos ha]
    · have hkj : k ≠ j := fun he => hj (he ▸ hk)
      split
      · exact serviceSlots_dead js s n hn ⟨k, hk, hd, ha⟩
      split
      · split
        · rfl
        · refine serviceSlots_dead js _ n hn ⟨k, hk, ?_, ?_⟩
          · simpa only [Function.update_of_ne hkj] using hd
          · simpa only [Function.update_of_ne hkj] using ha
      · exact serviceSlots_dead js s _ hn ⟨k, hk, hd, ha⟩

/-- **A channel that is given up is closed.** -/
theorem chanTimed_dead {ch : Chan} (h : ch.Exhausted cfg now) :
    (chanTimed cfg now ch).state = .closed := by
  obtain ⟨⟨hr, ht⟩, k, hd, ha⟩ := h
  have hdead := serviceSlots_dead cfg now _ ch.snd 0
    (List.nodup_finRange ncOutgoingSlots) ⟨k, List.mem_finRange k, hd, ha⟩
  unfold chanTimed
  rw [if_neg (by simp [hr, ht])]
  dsimp only
  rw [hdead]
  rfl

end

/-! ## Lost segments -/

/-- A slot whose message was sent: `attempts` says how often, and it does not pass the limit. -/
structure Outgoing.Tried (o : Outgoing) : Prop where
  few : o.attempts ≤ ncMaxRtAttempts
  unsent : o.attempts = 0 → o.fragSent = 0 ∧ o.sentMs = 0

theorem tried_rule (fp : Nat) : SlotRule fp Outgoing.Tried where
  written _ _ _ := ⟨Nat.zero_le _, fun _ => ⟨rfl, rfl⟩⟩
  requeued _ ha _ := ⟨ha, fun h => absurd h (Nat.succ_ne_zero _)⟩
  sent := by
    intro o now h _
    refine ⟨?_, fun h0 => ?_⟩
    · simp only [Outgoing.sent]
      split
      · decide
      · exact h.few
    · simp only [Outgoing.sent] at h0
      split at h0
      · cases h0
      · rename_i hne
        exact absurd h0 hne

/-- The last transmission is as long ago as the backoff says: `retransmit_ms`, doubled with each
attempt, up to the ceiling. -/
def Outgoing.PastBackoff (o : Outgoing) (cfg : Cfg) (now : UInt32) : Prop :=
  min (cfg.retransmitMs.toNat * 2 ^ (o.attempts - 1)) ncMaxRtMs.toNat ≤ (now - o.sentMs).toNat

instance (o : Outgoing) (cfg : Cfg) (now : UInt32) : Decidable (o.PastBackoff cfg now) :=
  inferInstanceAs (Decidable (_ ≤ _))

/-- The timeout in 32 bits is no longer than the backoff. -/
theorem rtTimeout_le {cfg : Cfg} {o : Outgoing} (h : o.attempts ≤ ncMaxRtAttempts) :
    (rtTimeout cfg o).toNat ≤ min (cfg.retransmitMs.toNat * 2 ^ (o.attempts - 1)) ncMaxRtMs.toNat := by
  have hshift : (cfg.retransmitMs <<< UInt32.ofNat (o.attempts - 1)).toNat ≤
      cfg.retransmitMs.toNat * 2 ^ (o.attempts - 1) := by
    have hsmall : o.attempts - 1 < 32 := by
      simp only [ncMaxRtAttempts] at h
      omega
    rw [UInt32.toNat_shiftLeft, UInt32.toNat_ofNat_of_lt' (by simp only [UInt32.size]; omega),
      Nat.mod_eq_of_lt hsmall, Nat.shiftLeft_eq]
    exact Nat.mod_le _ _
  unfold rtTimeout
  dsimp only
  split
  · rename_i hbig
    exact Nat.le_min.2 ⟨(UInt32.lt_iff_toNat_lt.1 hbig).le.trans hshift, le_rfl⟩
  · rename_i hbig
    exact Nat.le_min.2 ⟨hshift, UInt32.le_iff_toNat_le.1 (UInt32.not_lt.1 hbig)⟩

theorem due_of_pastBackoff {cfg : Cfg} {now : UInt32} {o : Outgoing} (ha : o.active = true)
    (hs : o.sentMs ≠ 0) (h : o.Tried) (hp : o.PastBackoff cfg now) : o.Due cfg now :=
  ⟨ha, hs, UInt32.le_iff_toNat_le.2 ((rtTimeout_le h.few).trans hp)⟩

/-- The message in a slot is to be sent once more, or its channel is at its end. -/
def Resent (o : Outgoing) (k : Fin ncOutgoingSlots) (ch' : Chan) : Prop :=
  ((ch'.snd.outgoing k).fragSent = 0 ∧ (ch'.snd.outgoing k).attempts = o.attempts + 1 ∧
    (ch'.snd.outgoing k).attempts ≤ ncMaxRtAttempts) ∨ ch'.state = .closed

instance (o : Outgoing) (k : Fin ncOutgoingSlots) (ch' : Chan) : Decidable (Resent o k ch') :=
  inferInstanceAs (Decidable (_ ∨ _))

theorem service_channels (env : Env) (c : Conn) (now : UInt32) :
    (netchanService env c now).2.channels =
      if GivesUp c now then c.channels else fun id => (c.channels id).map (chanTimed c.cfg now) := by
  rcases netchanService_cases env c now with ⟨hg, he⟩ | ⟨hg, n, he⟩
  · rw [he, if_pos hg]
    rfl
  · rw [he, if_neg hg]
    exact serviceChans_allIds ..

theorem resent_of_due {cfg : Cfg} {now : UInt32} {ch : Chan} {k : Fin ncOutgoingSlots}
    (hr : ch.role = .sender) (ht : ch.type = .reliable) (hd : (ch.snd.outgoing k).Due cfg now) :
    Resent (ch.snd.outgoing k) k (chanTimed cfg now ch) := by
  by_cases hx : ch.Exhausted cfg now
  · exact .inr (chanTimed_dead hx)
  · have hlive : (ch.snd.outgoing k).attempts < ncMaxRtAttempts := by
      by_contra hmax
      exact hx ⟨⟨hr, ht⟩, k, hd, Nat.le_of_not_lt hmax⟩
    left
    rw [(chanTimed_alive hr ht hx).2 k, if_pos hd]
    exact ⟨rfl, rfl, hlive⟩

/-- **A lost segment is sent again, or its channel ends, exactly when** the channel was closed
already or it is RELIABLE, the call does not end the session, and the message was not stamped with
clock 0 (or another one ends the channel). -/
theorem lost_segment_resent (server : Bool) (steps : List Step) (env : Env) (now : UInt32)
    {id : ChanId} {ch : Chan} (k : Fin ncOutgoingSlots)
    (hc : (runConn server steps).channels id = some ch) (hr : ch.role = .sender)
    (ha : (ch.snd.outgoing k).active = true) (hsent : (ch.snd.outgoing k).attempts ≠ 0)
    (hp : (ch.snd.outgoing k).PastBackoff (runConn server steps).cfg now) :
    (1 ≤ (ch.snd.outgoing k).attempts ∧ (ch.snd.outgoing k).attempts ≤ ncMaxRtAttempts) ∧
      ((∃ ch', (netchanService env (runConn server steps) now).2.channels id = some ch' ∧
        Resent (ch.snd.outgoing k) k ch') ↔
      ch.state = .closed ∨ ch.type = .reliable ∧ ¬ GivesUp (runConn server steps) now ∧
        ((ch.snd.outgoing k).sentMs ≠ 0 ∨ ch.Exhausted (runConn server steps).cfg now)) := by
  have htried := (kept_run tried_rule server steps).slots id ch hc k ha
  generalize runConn server steps = c at *
  refine ⟨⟨Nat.pos_of_ne_zero hsent, htried.few⟩, ?_⟩
  rw [service_channels]
  -- a slot that is left as it is counts as resent only if its channel is closed
  have hsame : ∀ ch', ch'.snd.outgoing k = ch.snd.outgoing k → Resent (ch.snd.outgoing k) k ch' →
      ch'.state = .closed := by
    rintro ch' hk (h | h)
    · have := h.2.1
      rw [hk] at this
      omega
    · exact h
  by_cases hg : GivesUp c now
  · simp only [if_pos hg, hc, Option.some.injEq, exists_eq_left']
    constructor
    · intro h
      exact .inl (hsame ch rfl h)
    · rintro (h | ⟨-, h, -⟩)
      · exact .inr h
      · exact absurd hg h
  · simp only [if_neg hg, hc, Option.map_some, Option.some.injEq, exists_eq_left']
    constructor
    · intro h
      by_cases hrel : ch.type = .reliable
      · by_cases hx : ch.Exhausted c.cfg now
        · exact .inr ⟨hrel, hg, .inr hx⟩
        · by_cases hz : (ch.snd.outgoing k).sentMs = 0
          · obtain ⟨hst, hslots⟩ := chanTimed_alive hr hrel hx
            left
            rw [← hst]
            refine hsame _ ?_ h
            rw [hslots k, if_neg fun hd => hd.2.1 hz]
          · exact .inr ⟨hrel, hg, .inl hz⟩
      · have hskip : chanTimed c.cfg now ch = ch := if_pos (.inr hrel)
        rw [hskip] at h
        exact .inl (hsame ch rfl h)
    · rintro (h | ⟨hrel, -, hz | hx⟩)
      · exact .inr (chanTimed_closed h)
      · exact resent_of_due hr hrel (due_of_pastBackoff ha hz htried hp)
      · exact .inr (chanTimed_dead hx)

/-- A client that has sent a message of three bytes at clock 10. -/
def lostSteps (type : ChanType) : List Step :=
  [.call (.connect { now := 1, entropy := 7 } [1]), .frame {} (.connectAccept 9 ncVersion 30000),
    .call (.chanOpen type .send []), .frame {} (.windowUpdate 0 1000), .call (.write 0 [1, 2, 3]),
    .sendNext { now := 10 } 1200]

theorem lost_segment_resent_once :
    let c := runConn false (lostSteps .reliable)
    ∃ ch, c.channels 0 = some ch ∧ (ch.snd.outgoing 0).attempts = 1 ∧
      ∃ ch', (netchanService {} c 200).2.channels 0 = some ch' ∧ Resent (ch.snd.outgoing 0) 0 ch' := by
  have hch : ∃ ch, (runConn false (lostSteps .reliable)).channels 0 = some ch := by
    rw [← Option.isSome_iff_exists]
    decide +kernel
  obtain ⟨ch, hc⟩ := hch
  have hall : ∀ ch ∈ (runConn false (lostSteps .reliable)).channels 0, (ch.role = .sender ∧
      ch.type = .reliable ∧ (ch.snd.outgoing 0).active = true ∧ (ch.snd.outgoing 0).attempts = 1 ∧
      (ch.snd.outgoing 0).sentMs = 10) ∧
      (ch.snd.outgoing 0).PastBackoff (runConn false (lostSteps .reliable)).cfg 200 := by
    decide +kernel
  have hg : ¬ GivesUp (runConn false (lostSteps .reliable)) 200 := by decide +kernel
  obtain ⟨⟨hr, ht, ha, hone, hs⟩, hp⟩ := hall ch hc
  have hres := (lost_segment_resent false (lostSteps .reliable) {} 200 0 hc hr ha (by omega) hp).2.2
    (.inr ⟨ht, hg, .inl (by rw [hs]; decide)⟩)
  exact ⟨ch, hc, hone, hres⟩

/-- A session whose client has sent a message of three bytes at clock 10. -/
def lostOps (type : ChanType) : List Op :=
  openOpsOf type ++ [.call .client (.write 0 [1, 2, 3]), .send .client { now := 10 } 1200]

/-- **A lost segment of a STREAM channel is not sent again**: `netchan_service` passes it over. -/
theorem stream_not_resent :
    let c := (World.run (fun _ => netchanCfgDefault) (lostOps .stream)).conn .client
    ((slotsOf c 0 0).active = true ∧ (slotsOf c 0 0).attempts = 1 ∧
      (slotsOf c 0 0).PastBackoff c.cfg 2000 ∧ ¬ GivesUp c 2000) ∧
    (∀ ch ∈ c.channels 0, ch.role = .sender ∧ ch.type = .stream ∧ ch.state = .opened) ∧
      ((netchanService {} c 2000).2.channels 0).isSome ∧
      ∀ ch' ∈ (netchanService {} c 2000).2.channels 0, ¬ Resent (slotsOf c 0 0) 0 ch' := by
  decide +kernel

/-! ## The wait -/

/-- The wait `n` is over when the timer with `r` ms left runs out. -/
def Covers (n r : Int) : Prop := 0 ≤ n ∧ n ≤ r

theorem asInt_lt (x : UInt32) : asInt x < 2 ^ 31 := by
  have := x.toNat_lt
  unfold asInt
  split <;> omega

/-- What is left of a timer that runs for less than `2 ^ 31` ms. -/
theorem asInt_sub {a b : UInt32} (h : b < a) (hs : a.toNat - b.toNat < 2 ^ 31) :
    asInt (a - b) = a.toNat - b.toNat := by
  have hlt := UInt32.lt_iff_toNat_lt.1 h
  have hsub : (a - b).toNat = a.toNat - b.toNat := UInt32.toNat_sub_of_le _ _ (UInt32.le_of_lt h)
  rw [asInt, hsub, if_pos hs]
  omega

/-- **The wait is a running minimum.** -/
theorem foldl_sooner {ms : List Int} {n : Int} (hn : n < 2 ^ 31)
    (hms : ∀ m ∈ ms, 0 ≤ m ∧ m < 2 ^ 31) :
    ms.foldl sooner n < 2 ^ 31 ∧ (∀ r, Covers n r → Covers (ms.foldl sooner n) r) ∧
      ∀ m ∈ ms, Covers (ms.foldl sooner n) m := by
  induction ms generalizing n with
  | nil => exact ⟨hn, fun _ h => h, by simp⟩
  | cons m ms ih =>
    obtain ⟨h0, hm⟩ := hms m (.head _)
    have hlt : sooner n m < 2 ^ 31 := by
      unfold sooner
      split <;> omega
    have hself : Covers (sooner n m) m := by
      unfold sooner Covers
      split <;> omega
    obtain ⟨h1, h2, h3⟩ := ih hlt fun r hr => hms r (.tail _ hr)
    refine ⟨h1, fun r hr => h2 r ?_, fun r hr => ?_⟩
    · unfold sooner Covers at *
      split <;> omega
    · rcases List.mem_cons.1 hr with rfl | hr
      · exact h2 _ hself
      · exact h3 r hr

/-- The retransmission timer of a slot runs. -/
def Outgoing.Running (o : Outgoing) (cfg : Cfg) (now : UInt32) : Prop :=
  o.active = true ∧ o.sentMs ≠ 0 ∧ now - o.sentMs < rtTimeout cfg o

/-- What is left of it. -/
def Outgoing.left (o : Outgoing) (cfg : Cfg) (now : UInt32) : Int :=
  asInt (rtTimeout cfg o - (now - o.sentMs))

theorem rtTimeout_le_max (cfg : Cfg) (o : Outgoing) : (rtTimeout cfg o).toNat ≤ 1000 := by
  unfold rtTimeout
  dsimp only
  split
  · decide
  · rename_i h
    exact UInt32.le_iff_toNat_le.1 (UInt32.not_lt.1 h)

theorem Outgoing.Running.left_eq {o : Outgoing} {cfg : Cfg} {now : UInt32} (h : o.Running cfg now) :
    o.left cfg now = (rtTimeout cfg o).toNat - (now - o.sentMs).toNat := by
  have := rtTimeout_le_max cfg o
  exact asInt_sub h.2.2 (by omega)

section
variable {cfg : Cfg} {now : UInt32}

variable (cfg now) in
theorem serviceSlots_left : ∀ (js : List (Fin ncOutgoingSlots)) (s : Sender) (n : Int), js.Nodup →
    ∃ ms : List Int, (serviceSlots cfg now js s n).2.2 = ms.foldl sooner n ∧
      (∀ m ∈ ms, 0 ≤ m ∧ m < 2 ^ 31) ∧
      ((∀ k ∈ js, (s.outgoing k).Due cfg now → (s.outgoing k).attempts < ncMaxRtAttempts) →
        ∀ k ∈ js, (s.outgoing k).Running cfg now → (s.outgoing k).left cfg now ∈ ms)
  | [], _, _, _ => ⟨[], rfl, by simp, by simp⟩
  | j :: js, s, n, hn => by
    obtain ⟨hj, hn⟩ := List.nodup_cons.1 hn
    unfold serviceSlots
    dsimp only
    split
    · rename_i hg
      obtain ⟨ms, h1, h2, h3⟩ := serviceSlots_left js s n hn
      refine ⟨ms, h1, h2, fun hlive k hk hrun => ?_⟩
      rcases List.mem_cons.1 hk with rfl | hk
      · simp [hrun.1, hrun.2.1] at hg
      · exact h3 (fun i hi => hlive i (.tail _ hi)) k hk hrun
    · rename_i hg
      simp only [Bool.or_eq_true, Bool.not_eq_true', beq_iff_eq, not_or, Bool.not_eq_false] at hg
      split
      · rename_i ht
        split
        · rename_i ha
          refine ⟨[], rfl, by simp, fun hlive => ?_⟩
          exact absurd (hlive j (.head _) ⟨hg.1, hg.2, ht⟩) (Nat.not_lt.2 ha)
        · obtain ⟨ms, h1, h2, h3⟩ := serviceSlots_left js
            { s with outgoing := Function.update s.outgoing j ((s.outgoing j).requeued now)
                     retransmissions := s.retransmissions + 1 } n hn
          refine ⟨ms, h1, h2, fun hlive k hk hrun => ?_⟩
          have hne : ∀ i ∈ js, Function.update s.outgoing j ((s.outgoing j).requeued now) i =
              s.outgoing i := by
            intro i hi
            have hij : i ≠ j := fun he => hj (he ▸ hi)
            exact Function.update_of_ne hij ..
          rcases List.mem_cons.1 hk with rfl | hk
          · exact absurd ht (UInt32.not_le.2 hrun.2.2)
          · have hmem := h3 (fun i hi => by
              dsimp only
              rw [hne i hi]
              exact hlive i (.tail _ hi)) k hk
            dsimp only at hmem
            rw [hne k hk] at hmem
            exact hmem hrun
      · rename_i ht
        have hrun : (s.outgoing j).Running cfg now := ⟨hg.1, hg.2, UInt32.not_le.1 ht⟩
        obtain ⟨ms, h1, h2, h3⟩ := serviceSlots_left js s
          (sooner n ((s.outgoing j).left cfg now)) hn
        refine ⟨(s.outgoing j).left cfg now :: ms, h1, ?_, fun hlive k hk hk' => ?_⟩
        · intro m hm
          rcases List.mem_cons.1 hm with rfl | hm
          · refine ⟨?_, asInt_lt _⟩
            have := UInt32.lt_iff_toNat_lt.1 hrun.2.2
            rw [hrun.left_eq]
            omega
          · exact h2 m hm
        · rcases List.mem_cons.1 hk with rfl | hk
          · exact .head _
          · exact .tail _ (h3 (fun i hi => hlive i (.tail _ hi)) k hk hk')

variable (cfg now) in
/-- What the channels add to the wait. -/
theorem serviceChans_left : ∀ (is : List ChanId) (ev : Ring Event ncEventQueue) (t : Table)
    (n : Int), is.Nodup →
    ∃ ms : List Int, (serviceChans cfg now is (ev, t) n).2 = ms.foldl sooner n ∧
      (∀ m ∈ ms, 0 ≤ m ∧ m < 2 ^ 31) ∧
      ∀ id ∈ is, ∀ ch, t id = some ch → (ch.role = .sender ∧ ch.type = .reliable) →
        ¬ ch.Exhausted cfg now → ∀ k, (ch.snd.outgoing k).Running cfg now →
          (ch.snd.outgoing k).left cfg now ∈ ms
  | [], _, _, _, _ => ⟨[], rfl, by simp, by simp⟩
  | i :: is, ev, t, n, hn => by
    obtain ⟨hi, hn⟩ := List.nodup_cons.1 hn
    unfold serviceChans
    split
    · rename_i hc
      obtain ⟨ms, h1, h2, h3⟩ := serviceChans_left is ev t n hn
      refine ⟨ms, h1, h2, fun id hid ch hch => ?_⟩
      rcases List.mem_cons.1 hid with rfl | hid
      · rw [hc] at hch
        cases hch
      · exact h3 id hid ch hch
    · rename_i d hc
      split
      · rename_i hskip
        obtain ⟨ms, h1, h2, h3⟩ := serviceChans_left is ev t n hn
        refine ⟨ms, h1, h2, fun id hid ch hch hr => ?_⟩
        rcases List.mem_cons.1 hid with rfl | hid
        · rw [hc] at hch
          cases hch
          simp [hr] at hskip
        · exact h3 id hid ch hch hr
      · rename_i hr
        rw [not_or, not_not, not_not] at hr
        obtain ⟨ms, h1, h2, h3⟩ := serviceSlots_left cfg now _ d.snd n
          (List.nodup_finRange ncOutgoingSlots)
        -- the rest of the table, after a write to the channel at `i`
        have rest : ∀ (ev' : Ring Event ncEventQueue) (d' : Chan),
            ∃ ms : List Int, (serviceChans cfg now is (ev', Table.set t i d')
                (serviceSlots cfg now (List.finRange ncOutgoingSlots) d.snd n).2.2).2 =
                ms.foldl sooner n ∧ (∀ m ∈ ms, 0 ≤ m ∧ m < 2 ^ 31) ∧
              ∀ id ∈ i :: is, ∀ ch, t id = some ch → (ch.role = .sender ∧ ch.type = .reliable) →
                ¬ ch.Exhausted cfg now → ∀ k, (ch.snd.outgoing k).Running cfg now →
                  (ch.snd.outgoing k).left cfg now ∈ ms := by
          intro ev' d'
          obtain ⟨ls, g1, g2, g3⟩ := serviceChans_left is ev' (Table.set t i d')
            (serviceSlots cfg now (List.finRange ncOutgoingSlots) d.snd n).2.2 hn
          refine ⟨ms ++ ls, ?_, ?_, fun id hid ch hch hch' hx k hrun => ?_⟩
          · rw [g1, h1, List.foldl_append]
          · intro m hm
            rcases List.mem_append.1 hm with hm | hm
            · exact h2 m hm
            · exact g2 m hm
          · rcases List.mem_cons.1 hid with rfl | hid
            · rw [hc] at hch
              cases hch
              refine List.mem_append_left _ (h3 ?_ k (List.mem_finRange k) hrun)
              intro j _ hd
              by_contra hmax
              exact hx ⟨hr, j, hd, Nat.le_of_not_lt hmax⟩
            · have hne : id ≠ i := fun he => hi (he ▸ hid)
              refine List.mem_append_right _ (g3 id hid ch ?_ hch' hx k hrun)
              exact (Table.set_of_ne _ hne _).trans hch
        split
        · rename_i s m hs
          simpa only [hs] using rest (ev.offer (.chanClose i)) { d with snd := s, state := .closed }
        · rename_i s m hs
          simpa only [hs] using rest ev { d with snd := s }

end

/-- The timers that the wait is computed from, and what is left of each. -/
inductive Runs (c : Conn) (now : UInt32) : Int → Prop
  | handshake (hs : c.state = .connecting) (hc : c.server = false) :
      Runs c now (max (asInt (ncConnectRetryMs - (now - c.connectSentMs))) 0)
  | idle (hs : c.state = .connected) (hr : c.lastRecvMs > 0)
      (hl : 0 ≤ asInt (c.cfg.idleTimeoutMs - (now - c.lastRecvMs))) :
      Runs c now (asInt (c.cfg.idleTimeoutMs - (now - c.lastRecvMs)))
  | keepalive (hs : c.state = .connected) (hl : c.lastSendMs > 0)
      (h : now - c.lastSendMs < ncPingIntervalMs) :
      Runs c now (asInt (ncPingIntervalMs - (now - c.lastSendMs)))
  | slot {id : ChanId} {ch : Chan} {k : Fin ncOutgoingSlots} (hc : c.channels id = some ch)
      (hr : ch.role = .sender ∧ ch.type = .reliable) (hx : ¬ ch.Exhausted c.cfg now)
      (h : (ch.snd.outgoing k).Running c.cfg now) :
      Runs c now ((ch.snd.outgoing k).left c.cfg now)

/-- The timers that the call starts again, and for how long. A channel that is given up, and a ping
stamped with clock 0, come up again at once. -/
inductive Restarts (c : Conn) (now : UInt32) : Int → Prop
  | handshake (hs : c.state = .connecting) (hc : c.server = false)
      (h : now - c.connectSentMs ≥ ncConnectRetryMs) : Restarts c now 500
  | keepalive (hs : c.state = .connected) (hl : c.lastSendMs > 0)
      (h : now - c.lastSendMs ≥ ncPingIntervalMs) (hp : c.pingSentMs = 0) (h0 : now = 0) :
      Restarts c now 0
  | slot {id : ChanId} {ch : Chan} {k : Fin ncOutgoingSlots} (hc : c.channels id = some ch)
      (hr : ch.role = .sender ∧ ch.type = .reliable) (hd : (ch.snd.outgoing k).Due c.cfg now)
      (ha : (ch.snd.outgoing k).attempts < ncMaxRtAttempts) (h0 : now ≠ 0) :
      Restarts c now (rtTimeout c.cfg ((ch.snd.outgoing k).requeued now)).toNat
  | given {id : ChanId} {ch : Chan} (hc : c.channels id = some ch) (hx : ch.Exhausted c.cfg now) :
      Restarts c now 0

/-- The wait before the channels are looked at. -/
def sessionWait (c : Conn) (now : UInt32) : Int :=
  let n := if c.state = .connecting ∧ c.server = false then
    sooner (-1) (max (asInt (ncConnectRetryMs - (now - c.connectSentMs))) 0) else -1
  let n := if c.state = .connected ∧ c.lastRecvMs > 0 then
    sooner n (asInt (c.cfg.idleTimeoutMs - (now - c.lastRecvMs))) else n
  if c.state = .connected ∧ c.lastSendMs > 0 ∧ now - c.lastSendMs < ncPingIntervalMs then
    sooner n (asInt (ncPingIntervalMs - (now - c.lastSendMs))) else n

theorem netchanService_wait (env : Env) {c : Conn} {now : UInt32} (hg : ¬ GivesUp c now) :
    (netchanService env c now).1 =
      (serviceChans c.cfg now allIds (c.events, c.channels) (sessionWait c now)).2 := by
  have hg1 : ¬ (c.state = .connecting ∧ c.server = false ∧ now - c.connectSentMs ≥ ncConnectRetryMs ∧
    c.connectAttempts ≥ ncConnectRetries) := fun h => hg (.inl h)
  have hg2 : ¬ (c.state = .connected ∧ c.lastRecvMs > 0 ∧
    now - c.lastRecvMs ≥ c.cfg.idleTimeoutMs) := fun h => hg (.inr h)
  unfold netchanService serviceConnect sessionWait
  by_cases h1 : c.state = .connecting ∧ c.server = false
  · -- neither the idle timer nor the keepalive runs
    have hs : c.state ≠ .connected := by simp [h1.1]
    by_cases h2 : now - c.connectSentMs ≥ ncConnectRetryMs
    · have h3 : ¬ c.connectAttempts ≥ ncConnectRetries := fun h => hg1 ⟨h1.1, h1.2, h2, h⟩
      simp only [h1, h2, h3, serviceIdle, servicePing, ctrlConnectInit, ctrlReserve, and_self,
        if_true, if_false, reduceCtorEq, false_and]
    · simp only [h1, h2, serviceIdle, servicePing, and_self, if_true, if_false, reduceCtorEq,
        false_and]
  · simp only [if_neg h1]
    unfold serviceIdle
    by_cases h4 : c.state = .connected ∧ c.lastRecvMs > 0
    · have h5 : ¬ now - c.lastRecvMs ≥ c.cfg.idleTimeoutMs := fun h => hg2 ⟨h4.1, h4.2, h⟩
      simp only [if_pos h4, if_neg h5]
      unfold servicePing
      by_cases h6 : c.lastSendMs > 0
      · simp only [h4.1, h6, and_self, if_true, true_and]
        split <;> split <;> rfl
      · simp only [h4.1, h6, and_false, if_false, false_and]
    · simp only [if_neg h4]
      unfold servicePing
      by_cases h6 : c.state = .connected ∧ c.lastSendMs > 0
      · simp only [h6, and_self, if_true, true_and]
        split <;> split <;> rfl
      · have h7 : ¬ (c.state = .connected ∧ c.lastSendMs > 0 ∧
          now - c.lastSendMs < ncPingIntervalMs) := fun h => h6 ⟨h.1, h.2.1⟩
        simp only [if_neg h6, if_neg h7]

theorem ite_sooner_lt {p : Prop} [Decidable p] {n m : Int} (hn : n < 2 ^ 31) (hm : m < 2 ^ 31) :
    (if p then sooner n m else n) < 2 ^ 31 := by
  unfold sooner
  split_ifs
  · exact hm
  · exact hn
  · exact hn

theorem sessionWait_lt (c : Conn) (now : UInt32) : sessionWait c now < 2 ^ 31 := by
  have hm : max (asInt (ncConnectRetryMs - (now - c.connectSentMs))) 0 < 2 ^ 31 :=
    max_lt (asInt_lt _) (by decide)
  exact ite_sooner_lt (ite_sooner_lt (ite_sooner_lt (by decide) hm) (asInt_lt _)) (asInt_lt _)

theorem keepalive_left {c : Conn} {now : UInt32} (h : now - c.lastSendMs < ncPingIntervalMs) :
    asInt (ncPingIntervalMs - (now - c.lastSendMs)) = 5000 - (now - c.lastSendMs).toNat := by
  have hp : (ncPingIntervalMs).toNat = 5000 := by decide
  rw [asInt_sub h (by omega), hp]
  rfl

/-- **The wait is over when the first of the timers runs out.** -/
theorem service_covers (env : Env) {c : Conn} {now : UInt32} (hg : ¬ GivesUp c now) :
    (netchanService env c now).1 < 2 ^ 31 ∧
      ∀ r, Runs c now r → Covers (netchanService env c now).1 r := by
  obtain ⟨ms, h1, h2, h3⟩ := serviceChans_left c.cfg now allIds c.events c.channels
    (sessionWait c now) (List.nodup_finRange _)
  obtain ⟨f1, f2, f3⟩ := foldl_sooner (sessionWait_lt c now) h2
  rw [netchanService_wait env hg, h1]
  refine ⟨f1, fun r hr => ?_⟩
  cases hr with
  | handshake hs hc =>
    refine f2 _ ?_
    simp only [sessionWait, hs, hc, and_self, if_true, reduceCtorEq, false_and, if_false]
    unfold sooner Covers
    split <;> omega
  | idle hs hr hl =>
    refine f2 _ ?_
    have hn : sooner (-1) (asInt (c.cfg.idleTimeoutMs - (now - c.lastRecvMs))) =
        asInt (c.cfg.idleTimeoutMs - (now - c.lastRecvMs)) := if_pos (.inl (by decide))
    simp only [sessionWait, hs, hr, and_self, if_true, reduceCtorEq, false_and, if_false, true_and,
      hn]
    split
    · rename_i hk
      have hlt := UInt32.lt_iff_toNat_lt.1 hk.2
      have hp : (ncPingIntervalMs).toNat = 5000 := by decide
      rw [keepalive_left hk.2]
      unfold sooner Covers
      split <;> omega
    · exact ⟨hl, le_rfl⟩
  | keepalive hs hl h =>
    refine f2 _ ?_
    have hlt := UInt32.lt_iff_toNat_lt.1 h
    have hp : (ncPingIntervalMs).toNat = 5000 := by decide
    have hk := keepalive_left h
    simp only [sessionWait, hs, hl, h, and_self, if_true, true_and]
    unfold sooner Covers
    split <;> omega
  | slot hc hr hx h => exact f3 _ (h3 _ (List.mem_finRange _) _ hc hr hx _ h)

/-! ## A call with nothing to do -/

section
variable {cfg : Cfg} {now : UInt32}

variable (cfg now) in
theorem serviceSlots_idle : ∀ (js : List (Fin ncOutgoingSlots)) (s : Sender) (n : Int),
    (∀ k ∈ js, ¬ (s.outgoing k).Due cfg now) →
    (serviceSlots cfg now js s n).1 = s ∧ (serviceSlots cfg now js s n).2.1 = false
  | [], _, _, _ => ⟨rfl, rfl⟩
  | j :: js, s, n, h => by
    have hrest : ∀ k ∈ js, ¬ (s.outgoing k).Due cfg now := fun k hk => h k (.tail _ hk)
    unfold serviceSlots
    dsimp only
    split
    · exact serviceSlots_idle js s n hrest
    · rename_i hg
      simp only [Bool.or_eq_true, Bool.not_eq_true', beq_iff_eq, not_or, Bool.not_eq_false] at hg
      rw [if_neg fun ht => h j (.head _) ⟨hg.1, hg.2, ht⟩]
      exact serviceSlots_idle js s _ hrest

theorem serviceChans_idle : ∀ (is : List ChanId) (ev : Ring Event ncEventQueue) (t : Table) (n : Int),
    (∀ id ch, t id = some ch → (ch.role = .sender ∧ ch.type = .reliable) →
      ∀ k, ¬ (ch.snd.outgoing k).Due cfg now) →
    (serviceChans cfg now is (ev, t) n).1 = (ev, t)
  | [], _, _, _, _ => rfl
  | i :: is, ev, t, n, h => by
    unfold serviceChans
    split
    · exact serviceChans_idle is ev t n h
    · rename_i ch hc
      split
      · exact serviceChans_idle is ev t n h
      · rename_i hr
        rw [not_or, not_not, not_not] at hr
        obtain ⟨h1, h2⟩ := serviceSlots_idle cfg now
          (List.finRange ncOutgoingSlots) ch.snd n fun k _ => h i ch hc hr k
        generalize serviceSlots cfg now (List.finRange ncOutgoingSlots) ch.snd n = r at h1 h2
        obtain ⟨s, dead, m⟩ := r
        cases h1
        cases h2
        have hsame : Table.set t i ch = t := by
          simp only [Table.set, ← hc, Function.update_eq_self]
        dsimp only
        rw [hsame]
        exact serviceChans_idle is ev t m h

end

/-- **`netchan_service` with no timer run out does nothing.** -/
theorem netchanService_idle (env : Env) {c : Conn} {now : UInt32} (hg : ¬ GivesUp c now)
    (hs : serviced env c now = c)
    (hd : ∀ id ch, c.channels id = some ch → (ch.role = .sender ∧ ch.type = .reliable) →
      ∀ k, ¬ (ch.snd.outgoing k).Due c.cfg now) : (netchanService env c now).2 = c := by
  rcases netchanService_cases env c now with ⟨h, -⟩ | ⟨-, n, he⟩
  · exact absurd h hg
  · rw [he, serviceChans_idle allIds c.events c.channels n hd, hs]

theorem netchanService_gives (env : Env) {c : Conn} {now : UInt32} (hg : GivesUp c now) :
    (netchanService env c now).1 = -1 := by
  unfold netchanService
  rcases serviceConnect_cases c now with ⟨-, he⟩ | ⟨h, n, he⟩ | ⟨h, n, he⟩
  · rw [he]
  · rcases hg with hg | hg
    · exact absurd hg.2.2.2 h.2.2.2
    · rw [h.1] at hg
      cases hg.1
  · rw [he]
    dsimp only
    rcases serviceIdle_cases c now n with ⟨-, he'⟩ | ⟨hi, -⟩
    · rw [he']
    · rcases hg with hg | hg
      · exact absurd ⟨hg.1, hg.2.1, hg.2.2.1⟩ h
      · exact absurd hg hi

theorem clock_lt {x now limit : UInt32} {d : Nat} (h : (now - x).toNat + d < limit.toNat) :
    now + UInt32.ofNat d - x < limit := by
  have hcomm : now + UInt32.ofNat d - x = (now - x) + UInt32.ofNat d := by
    rw [UInt32.sub_eq_add_neg, UInt32.sub_eq_add_neg, UInt32.add_assoc, UInt32.add_assoc,
      UInt32.add_comm (UInt32.ofNat d)]
  rw [hcomm, UInt32.lt_iff_toNat_lt, UInt32.toNat_add, UInt32.toNat_ofNat']
  have h1 := Nat.mod_le ((now - x).toNat + d % 2 ^ 32) (2 ^ 32)
  have h2 := Nat.mod_le d (2 ^ 32)
  omega

/-- Every timer that the call starts again runs at least as long as one that the wait is computed
from. -/
def RestartsLate (c : Conn) (now : UInt32) : Prop :=
  ∀ x, Restarts c now x → ∃ r, r ≤ x ∧ Runs c now r

section
variable {c : Conn} {now : UInt32} {d : Nat}

/-- The slots of the channels do not run out while the timers that the wait is computed from, and
those that were started again, have time left. -/
theorem slots_quiet (hr : ∀ r, Runs c now r → (d : Int) < r)
    (hx : ∀ x, Restarts c now x → (d : Int) < x) {id : ChanId} {ch : Chan}
    (hc : c.channels id = some ch) (hrel : ch.role = .sender ∧ ch.type = .reliable)
    (k : Fin ncOutgoingSlots) :
    ¬ ((chanTimed c.cfg now ch).snd.outgoing k).Due c.cfg (now + UInt32.ofNat d) := by
  have halive : ¬ ch.Exhausted c.cfg now := by
    intro h
    have := hx 0 (.given hc h)
    omega
  rw [(chanTimed_alive hrel.1 hrel.2 halive).2 k]
  by_cases hd : (ch.snd.outgoing k).Due c.cfg now
  · rw [if_pos hd]
    rintro ⟨-, h0, hlate⟩
    have hlive : (ch.snd.outgoing k).attempts < ncMaxRtAttempts := by
      by_contra hmax
      exact halive ⟨hrel, k, hd, Nat.le_of_not_lt hmax⟩
    have hlong := hx _ (.slot hc hrel hd hlive h0)
    refine absurd hlate (UInt32.not_le.2 (clock_lt ?_))
    have hself : (now - ((ch.snd.outgoing k).requeued now).sentMs).toNat = 0 := by
      simp [Outgoing.requeued]
    omega
  · rw [if_neg hd]
    rintro ⟨ha, h0, hlate⟩
    have hrun : (ch.snd.outgoing k).Running c.cfg now :=
      ⟨ha, h0, UInt32.not_le.1 fun h => hd ⟨ha, h0, h⟩⟩
    have hlong := hr _ (.slot hc hrel halive hrun)
    have := UInt32.lt_iff_toNat_lt.1 hrun.2.2
    rw [hrun.left_eq] at hlong
    exact absurd hlate (UInt32.not_le.2 (clock_lt (by omega)))

theorem handshake_quiet (hr : ∀ r, Runs c now r → (d : Int) < r) (hs : c.state = .connecting)
    (hc : c.server = false) (h : ¬ now - c.connectSentMs ≥ ncConnectRetryMs) :
    now + UInt32.ofNat d - c.connectSentMs < ncConnectRetryMs := by
  have hlt := UInt32.not_le.1 h
  have hnat := UInt32.lt_iff_toNat_lt.1 hlt
  have hp : (ncConnectRetryMs).toNat = 500 := by decide
  have hlong := hr _ (.handshake hs hc)
  rw [asInt_sub hlt (by omega)] at hlong
  exact clock_lt (by omega)

theorem idle_quiet (hsmall : d < 2 ^ 31) (hr : ∀ r, Runs c now r → (d : Int) < r)
    (hs : c.state = .connected) (hrecv : c.lastRecvMs > 0)
    (h : ¬ now - c.lastRecvMs ≥ c.cfg.idleTimeoutMs) :
    now + UInt32.ofNat d - c.lastRecvMs < c.cfg.idleTimeoutMs := by
  have hlt := UInt32.not_le.1 h
  have hnat := UInt32.lt_iff_toNat_lt.1 hlt
  -- a timer that runs for longer than an `int` holds outlives every wait
  by_cases hbig : c.cfg.idleTimeoutMs.toNat - (now - c.lastRecvMs).toNat < 2 ^ 31
  · have hleft := asInt_sub hlt hbig
    have hlong := hr _ (.idle hs hrecv (by omega))
    rw [hleft] at hlong
    exact clock_lt (by omega)
  · exact clock_lt (by omega)

theorem keepalive_quiet (hr : ∀ r, Runs c now r → (d : Int) < r) (hs : c.state = .connected)
    (hl : c.lastSendMs > 0) (h : ¬ now - c.lastSendMs ≥ ncPingIntervalMs) :
    now + UInt32.ofNat d - c.lastSendMs < ncPingIntervalMs := by
  have hlt := UInt32.not_le.1 h
  have hlong := hr _ (.keepalive hs hl hlt)
  rw [keepalive_left hlt] at hlong
  have hp : (ncPingIntervalMs).toNat = 5000 := by decide
  exact clock_lt (by omega)

end

/-- Neither does the session come to its end, nor is a handshake retry or a ping due. -/
theorem session_quiet (env env' : Env) {c : Conn} {now : UInt32} {d : Nat} (hg : ¬ GivesUp c now)
    (hsmall : d < 2 ^ 31) (hr : ∀ r, Runs c now r → (d : Int) < r)
    (hx : ∀ x, Restarts c now x → (d : Int) < x) (ev : Ring Event ncEventQueue) (t : Table) :
    ¬ GivesUp { serviced env c now with events := ev, channels := t } (now + UInt32.ofNat d) ∧
      serviced env' { serviced env c now with events := ev, channels := t } (now + UInt32.ofNat d) =
        { serviced env c now with events := ev, channels := t } := by
  have hidle : c.state = .connected → c.lastRecvMs > 0 →
      ¬ now + UInt32.ofNat d - c.lastRecvMs ≥ c.cfg.idleTimeoutMs := by
    intro hs hrecv
    exact UInt32.not_le.2 (idle_quiet hsmall hr hs hrecv fun h => hg (.inr ⟨hs, hrecv, h⟩))
  by_cases hretry : c.state = .connecting ∧ c.server = false ∧
      now - c.connectSentMs ≥ ncConnectRetryMs
  · obtain ⟨hs, hc, hlate⟩ := hretry
    have hshort : ¬ now + UInt32.ofNat d - now ≥ ncConnectRetryMs := by
      have hlong := hx 500 (.handshake hs hc hlate)
      have hp : (ncConnectRetryMs).toNat = 500 := by decide
      have h0 : (now - now).toNat = 0 := by simp
      exact UInt32.not_le.2 (clock_lt (by omega))
    have he : serviced env c now = { ctrlConnectInit c with
        connectSentMs := now, connectAttempts := c.connectAttempts + 1 } := if_pos ⟨hs, hc, hlate⟩
    rw [he]
    refine ⟨?_, ?_⟩
    · rintro (h | h)
      · exact hshort h.2.2.1
      · exact absurd (hs.symm.trans h.1) (by decide)
    · rw [serviced, if_neg fun h => hshort h.2.2, if_neg fun h => ?_]
      exact absurd (hs.symm.trans h.1) (by decide)
  · by_cases hping : c.state = .connected ∧ c.lastSendMs > 0 ∧
        now - c.lastSendMs ≥ ncPingIntervalMs ∧ c.pingSentMs = 0
    · have he : serviced env c now = { ctrlPing c (ncRandomId env) with
          pingOpaque := ncRandomId env, pingSentMs := now } := by
        rw [serviced, if_neg hretry, if_pos hping]
      obtain ⟨hs, hl, hlate, hp⟩ := hping
      have hnow : now ≠ 0 := by
        intro h0
        have := hx 0 (.keepalive hs hl hlate hp h0)
        omega
      rw [he]
      refine ⟨?_, ?_⟩
      · rintro (h | h)
        · exact absurd (hs.symm.trans h.1) (by decide)
        · exact hidle hs h.2.1 h.2.2
      · rw [serviced, if_neg fun h => absurd (hs.symm.trans h.1) (by decide),
          if_neg fun h => hnow h.2.2.2]
    · have he : serviced env c now = c := by rw [serviced, if_neg hretry, if_neg hping]
      have hshake : ¬ (c.state = .connecting ∧ c.server = false ∧
          now + UInt32.ofNat d - c.connectSentMs ≥ ncConnectRetryMs) := by
        rintro ⟨hs, hc, h⟩
        exact absurd h (UInt32.not_le.2 (handshake_quiet hr hs hc fun h' => hretry ⟨hs, hc, h'⟩))
      have hkeep : ¬ (c.state = .connected ∧ c.lastSendMs > 0 ∧
          now + UInt32.ofNat d - c.lastSendMs ≥ ncPingIntervalMs ∧ c.pingSentMs = 0) := by
        rintro ⟨hs, hl, h, hp⟩
        exact absurd h (UInt32.not_le.2 (keepalive_quiet hr hs hl fun h' => hping ⟨hs, hl, h', hp⟩))
      rw [he]
      refine ⟨?_, ?_⟩
      · rintro (h | h)
        · exact hshake ⟨h.1, h.2.1, h.2.2.1⟩
        · exact hidle h.1 h.2.1 h.2.2
      · rw [serviced, if_neg hshake, if_neg hkeep]

/-- **Nothing happens before the wait is over**, unless a timer that the call itself starts again
runs out before every timer that the wait is computed from. -/
theorem wait_safe (env env' : Env) (c : Conn) (now : UInt32) (d : Nat)
    (hok : GivesUp c now ∨ RestartsLate c now) :
    let r := netchanService env c now
    ((d : Int) < r.1 ∨ r.1 = -1 ∧ r.2.state ≠ .closed ∧ d < 2 ^ 31) →
      (netchanService env' r.2 (now + UInt32.ofNat d)).2 = r.2 := by
  intro r hd
  rcases netchanService_cases env c now with ⟨hg, he⟩ | ⟨hg, n, he⟩
  · have hneg : r.1 = -1 := netchanService_gives env hg
    rcases hd with h | ⟨-, h, -⟩
    · omega
    · exact absurd (congrArg Conn.state he) h
  · obtain ⟨hlt, hcov⟩ := service_covers env hg
    have hsmall : d < 2 ^ 31 := by
      rcases hd with h | h
      · have : (d : Int) < 2 ^ 31 := h.trans hlt
        omega
      · exact h.2.2
    have hr : ∀ x, Runs c now x → (d : Int) < x := by
      intro x hx
      obtain ⟨h0, hle⟩ := hcov x hx
      change 0 ≤ r.1 at h0
      change r.1 ≤ x at hle
      rcases hd with h | h
      · omega
      · omega
    have hx : ∀ x, Restarts c now x → (d : Int) < x := by
      intro x hx
      obtain ⟨y, hyx, hy⟩ := (hok.resolve_left hg) x hx
      exact (hr y hy).trans_le hyx
    have hchans : r.2.channels = fun id => (c.channels id).map (chanTimed c.cfg now) := by
      have := service_channels env c now
      rwa [if_neg hg] at this
    have hcfg : r.2.cfg = c.cfg := (call_cfg c (.service env now)).1
    have hslots : ∀ id ch, r.2.channels id = some ch → (ch.role = .sender ∧ ch.type = .reliable) →
        ∀ k, ¬ (ch.snd.outgoing k).Due r.2.cfg (now + UInt32.ofNat d) := by
      intro id ch' hc' hrel k
      rw [hchans] at hc'
      obtain ⟨ch, hc, rfl⟩ := Option.map_eq_some_iff.1 hc'
      rw [hcfg]
      refine slots_quiet hr hx hc ?_ k
      have hkind := (chanTimed_rcv c.cfg now ch).1
      exact ⟨hkind.role.symm.trans hrel.1, hkind.type.symm.trans hrel.2⟩
    have hquiet : ¬ GivesUp r.2 (now + UInt32.ofNat d) ∧
        serviced env' r.2 (now + UInt32.ofNat d) = r.2 := by
      have hr2 : r.2 = _ := he
      rw [hr2]
      exact session_quiet env env' hg hsmall hr hx _ _
    exact netchanService_idle env' hquiet.1 hquiet.2 hslots

/-- While no timer has run out, the wait is safe: 50 ms are left of the retransmission timer. -/
theorem wait_safe_early :
    let r := netchanService {} (runConn false (lostSteps .reliable)) 60
    r.1 = 50 ∧ (netchanService {} r.2 (60 + UInt32.ofNat 49)).2 = r.2 := by
  have hc : (runConn false (lostSteps .reliable)).state = .connected ∧
      ¬ 60 - (runConn false (lostSteps .reliable)).lastSendMs ≥ ncPingIntervalMs ∧
      ∀ id, ∀ ch ∈ (runConn false (lostSteps .reliable)).channels id, ∀ k,
        ¬ (ch.snd.outgoing k).Due (runConn false (lostSteps .reliable)).cfg 60 := by
    decide +kernel
  have hr : (netchanService {} (runConn false (lostSteps .reliable)) 60).1 = 50 := by decide +kernel
  have hnone : RestartsLate (runConn false (lostSteps .reliable)) 60 := by
    generalize runConn false (lostSteps .reliable) = c at hc
    obtain ⟨hs, hp, hd⟩ := hc
    intro x hx
    cases hx with
    | handshake h => simp [hs] at h
    | keepalive _ _ h => exact absurd h hp
    | slot hch _ h => exact absurd h (hd _ _ hch _)
    | given hch hx =>
      obtain ⟨-, k, h, -⟩ := hx
      exact absurd h (hd _ _ hch k)
  exact ⟨hr, wait_safe {} {} _ 60 49 (.inr hnone) (.inl (by rw [hr]; decide))⟩

/-- **A timer that the call starts again is not waited for**: the message is queued again at 200,
its timer runs for 200 ms, and the wait is 4810 ms. -/
theorem resend_before_wait :
    let c := (World.run (fun _ => netchanCfgDefault) (lostOps .reliable)).conn .client
    let r := netchanService {} c 200
    r.1 = 4810 ∧ (slotsOf r.2 0 0).attempts = 2 ∧
      (slotsOf (netchanService {} r.2 (200 + UInt32.ofNat 200)).2 0 0).attempts = 3 ∧
      (netchanService {} r.2 (200 + UInt32.ofNat 200)).2 ≠ r.2 := by
  have h : let c := (World.run (fun _ => netchanCfgDefault) (lostOps .reliable)).conn .client
      let r := netchanService {} c 200
      r.1 = 4810 ∧ (slotsOf r.2 0 0).attempts = 2 ∧
        (slotsOf (netchanService {} r.2 (200 + UInt32.ofNat 200)).2 0 0).attempts = 3 := by
    decide +kernel
  intro c r
  obtain ⟨h1, h2, h3⟩ := h
  refine ⟨h1, h2, h3, fun he => ?_⟩
  rw [he] at h3
  exact absurd (h2.symm.trans h3) (by decide)

end Netchan
