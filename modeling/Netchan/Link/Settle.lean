import Netchan.Link.Moves

/-!
# Settling the login

The callbacks run in the middle of the functions of a link. What they find there is `Fine`: success
was reported, and so was what the login waits for. `Works` is what a function does that is called in
such a state; it does not lead the login to success. `settleAuth_works` is the reason why success is
reported once: what a callback does while a question is put to it cannot answer for the server.

`step_moves`, `open_moves`: every event is a sequence of moves.
-/

namespace Netchan.Link

open Lib Crypto Transport

/-! ## Calls of nc_auth -/

section
variable {P : Monocypher} {a : Auth.NcAuth}

theorem tryCredentials_state (a : Auth.NcAuth) :
    (Auth.tryCredentials a).state = a.state ∨ (Auth.tryCredentials a).state = .denied := by
  unfold Auth.tryCredentials
  split
  · exact .inl rfl
  split
  · exact .inl rfl
  · exact .inr rfl

theorem iaChoose_state (a : Auth.NcAuth) :
    (Auth.iaChoose a).1.state = a.state ∨ (Auth.iaChoose a).1.state = .denied := by
  unfold Auth.iaChoose
  dsimp only
  split
  · exact .inr rfl
  split
  · exact .inl rfl
  split
  · split
    · exact .inl rfl
    · exact tryCredentials_state _
  split
  · exact .inr rfl
  · exact .inl rfl

theorem clientTryNext_state (a : Auth.NcAuth) :
    (Auth.clientTryNext a).1.state = a.state ∨ (Auth.clientTryNext a).1.state = .denied := by
  unfold Auth.clientTryNext
  split
  · exact .inl rfl
  split
  · split
    · exact iaChoose_state a
    · exact .inl rfl
  · exact tryCredentials_state a

theorem answer_state {c : Auth.ClientCall} (hc : IsAnswer c) :
    (c.apply P a).state = a.state ∨ (c.apply P a).state = .denied := by
  cases c with
  | feed msg => exact hc.elim
  | resumePending tok => exact hc.elim
  | supplyKey keys =>
    simp only [Auth.ClientCall.apply, Auth.ClientCall.exec, Auth.ncAuthSupplyKey]
    split
    · exact .inl rfl
    split
    · exact clientTryNext_state _
    · exact .inl rfl
  | supplyPassword password =>
    simp only [Auth.ClientCall.apply, Auth.ClientCall.exec, Auth.ncAuthSupplyPassword]
    split
    · exact .inl rfl
    split
    · exact clientTryNext_state _
    · split
      · exact clientTryNext_state _
      · exact .inl rfl
  | supplyMethod method =>
    simp only [Auth.ClientCall.apply, Auth.ClientCall.exec, Auth.ncAuthSupplyMethod]
    split
    · exact .inl rfl
    split
    · exact iaChoose_state _
    · exact .inl rfl
  | submit vals =>
    simp only [Auth.ClientCall.apply, Auth.ClientCall.exec, Auth.ncAuthSubmit]
    split
    · exact .inl rfl
    split
    · unfold Auth.ncAuthCancel
      split <;> exact .inl rfl
    split
    · exact .inr rfl
    · exact .inl rfl
  | cancel =>
    simp only [Auth.ClientCall.apply, Auth.ClientCall.exec, Auth.ncAuthCancel]
    split <;> exact .inl rfl

theorem iaClient_state {msg : List UInt8} {r : Auth.NcAuth × List Auth.Act}
    (h : Auth.iaClient a msg = some r) : r.1.state = a.state := by
  unfold Auth.iaClient at h
  split at h
  · split at h
    · obtain rfl := Option.some.inj h
      rfl
    split at h
    · cases h
    split at h
    · cases h
    split at h
    · cases h
    · obtain rfl := Option.some.inj h
      rfl
  split at h
  · split at h
    · obtain rfl := Option.some.inj h
      rfl
    split at h
    · cases h
    · obtain ⟨p, -, rfl⟩ := Option.map_eq_some_iff.1 h
      obtain ⟨tok, note, strings, he⟩ := Auth.parked_spec a p
      rw [he]
  · cases h

/-- Only `OK` leads to success, and it leaves the open question as it was. -/
theorem clientFeed_need {msg : List UInt8} {r : Auth.NcAuth × List Auth.Act}
    (h : Auth.clientFeed a msg = some r) (hp : a.state = .pending) (hok : r.1.state = .ok) :
    r.1.need = a.need := by
  have hnext {d : Auth.NcAuth} (hd : d.state = .pending) : (Auth.clientTryNext d).1.state ≠ .ok := by
    intro h
    rcases clientTryNext_state d with h' | h'
    · rw [h', hd] at h
      cases h
    · rw [h'] at h
      cases h
  unfold Auth.clientFeed at h
  split at h
  · split at h
    · cases h
    dsimp only at h
    split at h
    · obtain rfl := Option.some.inj h
      cases hok
    · obtain rfl := Option.some.inj h
      exact absurd hok (hnext hp)
  split at h
  · obtain rfl := Option.some.inj h
    rfl
  split at h
  · split at h
    · cases h
    · obtain rfl := Option.some.inj h
      exact absurd hok (hnext hp)
  · rw [iaClient_state h, hp] at hok
    cases hok

/-- A message that leads to success leaves the open question as it was. -/
theorem feed_need {msg : List UInt8} (hs : a.server = false)
    (hok : ((Auth.ClientCall.feed msg).apply P a).state = .ok) :
    ((Auth.ClientCall.feed msg).apply P a).need = a.need := by
  have hskip (h : (Auth.ncAuthFeed P Auth.noEnv a msg).2.1 = a) :
      ((Auth.ClientCall.feed msg).apply P a).need = a.need := congrArg Auth.NcAuth.need h
  by_cases hp : a.state = .pending
  · by_cases hf : Auth.Fits msg
    · change (Auth.ncAuthFeed P Auth.noEnv a msg).2.1.state = .ok at hok
      change (Auth.ncAuthFeed P Auth.noEnv a msg).2.1.need = a.need
      cases hr : Auth.clientFeed a msg with
      | none =>
        obtain ⟨h1, h2⟩ := hf
        unfold Auth.ncAuthFeed at hok
        rw [if_neg (by rw [not_or, not_not]; exact ⟨by omega, hp⟩), if_neg (Nat.not_lt.2 h2),
          if_neg (by rw [hs]; decide), hr] at hok
        cases hok
      | some r =>
        rw [Auth.feed_client hs hp hf hr] at hok ⊢
        exact clientFeed_need hr hp hok
    · refine hskip ?_
      unfold Auth.ncAuthFeed
      by_cases h1 : msg.length < 1 ∨ a.state ≠ .pending
      · rw [if_pos h1]
      · rw [if_neg h1, if_pos]
        by_contra hlen
        exact hf ⟨by omega, by omega⟩
  · refine hskip ?_
    unfold Auth.ncAuthFeed
    rw [if_pos (.inr hp)]

end

/-! ## Functions that call back -/

/-- What holds where the application may call: success was reported, and so was what the login
waits for. -/
structure Fine (l : AuthLink) : Prop where
  opened : l.closing = false
  calm : Calm l
  reported : l.server = false → l.up = false → l.down = false → l.auth.need = l.needFired
  idle : l.authStarted = false → l.auth = {} ∧ l.needFired = .nothing ∧ l.up = false
  party : l.server = false → l.auth.server = false

/-- A step between two states where the application may call. -/
structure Works (P : Monocypher) (hear : Session → List UInt8 → Prop) (l l' : AuthLink) : Prop where
  moves : Moves P hear l l'
  fine : Fine l'
  ok : l'.auth.state = .ok → l.auth.state = .ok

section
variable {P : Monocypher} {hear : Session → List UInt8 → Prop} {l l' l'' : AuthLink}

theorem Works.refl (h : Fine l) : Works P hear l l := ⟨.refl, h, id⟩

theorem Works.trans (h : Works P hear l l') (h' : Works P hear l' l'') : Works P hear l l'' :=
  ⟨h.moves.trans h'.moves, h'.fine, fun hok => h.ok (h'.ok hok)⟩

theorem Quiet.fine (h : Quiet P hear l l') (hf : Fine l) : Fine l' := by
  refine ⟨h.closing.trans hf.opened, ?_, ?_, ?_, ?_⟩
  · rw [Calm, h.auth, h.up, h.down]
    exact hf.calm
  · rw [h.server, h.up, h.down, h.auth, h.needFired]
    exact hf.reported
  · rw [h.authStarted, h.auth, h.needFired, h.up]
    exact hf.idle
  · rw [h.auth, h.server]
    exact hf.party

theorem Quiet.works (h : Quiet P hear l l') (hf : Fine l) : Works P hear l l' :=
  ⟨h.moves, h.fine hf, fun hok => h.auth ▸ hok⟩

/-- What holds before the login is settled: a success that was not reported finds no open question. -/
structure Settling (l : AuthLink) : Prop where
  opened : l.closing = false
  calm : l.auth.state = .ok → l.up = true ∨ l.down = true ∨ l.server = true ∨ l.auth.need = l.needFired
  idle : l.authStarted = false → l.auth = {} ∧ l.needFired = .nothing ∧ l.up = false
  party : l.server = false → l.auth.server = false

theorem Fine.settling (h : Fine l) : Settling l :=
  ⟨h.opened, fun hok => (h.calm hok).imp_right .inl, h.idle, h.party⟩

theorem Quiet.settling (h : Quiet P hear l l') (hs : Settling l) : Settling l' := by
  refine ⟨h.closing.trans hs.opened, ?_, ?_, ?_⟩
  · rw [h.auth, h.up, h.down, h.server, h.needFired]
    exact hs.calm
  · rw [h.authStarted, h.auth, h.needFired, h.up]
    exact hs.idle
  · rw [h.auth, h.server]
    exact hs.party

variable (io : Nat → Moment) {exec : Cmd → AuthLink → AuthLink}

theorem react_works (hexec : ∀ k l, Fine l → Works P hear l (exec k l)) (isSet : Bool) (hf : Fine l) :
    Works P hear l (react io exec isSet l) := by
  unfold react
  split
  · have hnext : Works P hear l l.next := (quiet_next l).works hf
    generalize (io l.turn).script = ks
    generalize l.next = m at hnext
    induction ks generalizing m with
    | nil => exact hnext
    | cons k ks ih => exact ih _ (hnext.trans (hexec k m hnext.fine))
  · exact .refl hf

theorem fireDown_works (hexec : ∀ k l, Fine l → Works P hear l (exec k l)) (hf : Settling l)
    {why : Reason} (hwhy : Cause l why) (hdown : l.down = true → Fine l) :
    Works P hear l (fireDown P io exec l why) := by
  unfold fireDown
  split
  · rename_i h
    exact .refl (hdown h)
  · rename_i h
    have h0 : l.down = false := by simpa using h
    have h1 : Works P hear l (l.does P (.down why)) := by
      refine ⟨.single (.act ⟨h0, hwhy⟩), ⟨hf.opened, fun _ => .inr rfl, ?_, hf.idle, hf.party⟩, id⟩
      intro _ _ hd
      cases hd
    exact h1.trans (react_works io hexec _ h1.fine)

/-- The one question that is open is put to the application, or there is none. -/
theorem settleNeed_works (hexec : ∀ k l, Fine l → Works P hear l (exec k l)) (hs : Settling l)
    (ha : l.authStarted = true) (hup : l.up = false) (hdown : l.down = false) :
    (settleNeed P io exec l = l ∧ (l.server = true ∨ l.auth.need = l.needFired)) ∨
      (l.auth.state ≠ .ok ∧ Works P hear l (settleNeed P io exec l)) := by
  unfold settleNeed
  by_cases hserver : l.server = true
  · exact .inl ⟨by rw [if_pos (by simp [hserver])], .inl hserver⟩
  · have hsv : l.server = false := Bool.eq_false_iff.2 hserver
    rw [if_neg (by simp [ha, hsv, hup, hdown])]
    dsimp only
    by_cases hn : l.auth.need = l.needFired
    · rw [if_pos hn]
      exact .inl ⟨rfl, .inr hn⟩
    · rw [if_neg hn]
      have hne : l.auth.state ≠ .ok := by
        intro hok
        rcases hs.calm hok with h | h | h | h
        · rw [hup] at h
          cases h
        · rw [hdown] at h
          cases h
        · rw [hsv] at h
          cases h
        · exact hn h
      have h1 : Works P hear l { l with needFired := l.auth.need } := by
        refine ⟨.single (.note l l.rx l.havePeer l.connectSent l.accepted l.auth.need l.timerId
          l.peer l.turn), ⟨hs.opened, fun hok => absurd hok hne, fun _ _ _ => rfl, ?_, hs.party⟩, id⟩
        intro h
        exact absurd (ha.symm.trans h) (by decide)
      refine .inr ⟨hne, ?_⟩
      by_cases hset : l.auth.need ≠ .nothing ∧ l.cb.onNeed = true
      · rw [if_pos hset]
        have h2 : Works P hear { l with needFired := l.auth.need }
            (AuthLink.does P { l with needFired := l.auth.need } (.need l.auth.need)) :=
          ⟨.single (.act ⟨ha, hsv, hup, hdown, rfl, hset.1⟩),
            ⟨h1.fine.opened, h1.fine.calm, h1.fine.reported, h1.fine.idle, h1.fine.party⟩, id⟩
        exact (h1.trans h2).trans (react_works io hexec _ h2.fine)
      · rw [if_neg hset]
        exact h1

/-- **The login is settled**: what was reported before stays, a success is reported once. -/
theorem settleAuth_works (hexec : ∀ k l, Fine l → Works P hear l (exec k l)) (hs : Settling l) :
    Works P hear l (settleAuth P io exec l) := by
  unfold settleAuth
  by_cases hskip : l.authStarted = false ∨ l.up = true ∨ l.down = true
  · rw [if_pos (by rcases hskip with h | h | h <;> simp [h])]
    refine .refl ⟨hs.opened, ?_, ?_, hs.idle, hs.party⟩
    · intro hok
      rcases hskip with h | h | h
      · rw [(hs.idle h).1] at hok
        cases hok
      · exact .inl h
      · exact .inr h
    · intro _ hup hdown
      rcases hskip with h | h | h
      · rw [(hs.idle h).1, (hs.idle h).2.1]
      · exact absurd (hup.symm.trans h) (by decide)
      · exact absurd (hdown.symm.trans h) (by decide)
  · have ha : l.authStarted = true := by
      cases h : l.authStarted with
      | true => rfl
      | false => exact absurd (.inl h) hskip
    have hup : l.up = false := Bool.eq_false_iff.2 fun h => hskip (.inr (.inl h))
    have hdown : l.down = false := Bool.eq_false_iff.2 fun h => hskip (.inr (.inr h))
    rw [if_neg (by simp [ha, hup, hdown])]
    dsimp only
    rcases settleNeed_works io hexec hs ha hup hdown with ⟨he, hno⟩ | ⟨hne, hw⟩
    · -- nothing was asked
      rw [he]
      cases hst : l.auth.state with
      | ok =>
        have h1 : Works P hear l (l.does P .up) := by
          refine ⟨.single (.act ⟨ha, hs.opened, hup, hdown, hst⟩),
            ⟨hs.opened, fun _ => .inl rfl, nofun, ?_, hs.party⟩, id⟩
          intro h
          exact absurd (ha.symm.trans h) (by decide)
        exact h1.trans (react_works io hexec _ h1.fine)
      | denied => exact fireDown_works io hexec hs hst fun h => absurd (hdown.symm.trans h) (by decide)
      | pending =>
        refine .refl ⟨hs.opened, fun hok => ?_, fun hsv _ _ => ?_, hs.idle, hs.party⟩
        · rw [hst] at hok
          cases hok
        · rcases hno with h | h
          · exact absurd (hsv.symm.trans h) (by decide)
          · exact h
    · -- the application was asked, which does not lead to success
      generalize settleNeed P io exec l = m at hw
      cases hst : m.auth.state with
      | ok => exact absurd (hw.ok hst) hne
      | denied => exact hw.trans (fireDown_works io hexec hw.fine.settling hst fun _ => hw.fine)
      | pending => exact hw

end

/-! ## The functions of the file -/

section
variable {P : Monocypher} {hear : Session → List UInt8 → Prop} {l l' l'' : AuthLink}
  (io : Nat → Moment) (limit : Nat) {exec : Cmd → AuthLink → AuthLink}

/-- Moves to a state where the application may call. -/
def Lives (P : Monocypher) (hear : Session → List UInt8 → Prop) (l l' : AuthLink) : Prop :=
  Moves P hear l l' ∧ Fine l'

theorem Works.lives (h : Works P hear l l') : Lives P hear l l' := ⟨h.moves, h.fine⟩

theorem Lives.trans (h : Lives P hear l l') (h' : Lives P hear l' l'') : Lives P hear l l'' :=
  ⟨h.1.trans h'.1, h'.2⟩

theorem Quiet.lives (h : Quiet P hear l l') (hf : Fine l) : Lives P hear l l' := (h.works hf).lives

/-- A call of nc_auth on the client: what the login was settled to changes only by a success that
leaves the open question as it was. -/
theorem clientDoes_settling (hf : Fine l) (ha : l.authStarted = true) (hs : l.server = false)
    {c : Auth.ClientCall} (hc : (∃ msg, c = .feed msg) ∨ IsAnswer c) :
    Moves P hear l (clientDoes P io limit l c) ∧ Settling (clientDoes P io limit l c) ∧
      ((clientDoes P io limit l c).auth.state = .ok → (∃ msg, c = .feed msg) ∨
        l.auth.state = .ok ∧
          ((clientDoes P io limit l c).up = true ∨ (clientDoes P io limit l c).down = true)) := by
  have h1 : Moves P hear l (l.does P (.client c)) := .single (.act ⟨ha, hs, hf.opened, hc⟩)
  have hserver : (c.apply P l.auth).server = false :=
    (Auth.ClientCall.kept (hf.party hs) c).server.trans (hf.party hs)
  have hset : Settling (l.does P (.client c)) := by
    refine ⟨hf.opened, fun hok => ?_, fun h => absurd (ha.symm.trans h) (by decide), fun _ => hserver⟩
    by_cases hup : l.up = true
    · exact .inl hup
    by_cases hdown : l.down = true
    · exact .inr (.inl hdown)
    have hrep : l.auth.need = l.needFired :=
      hf.reported hs (Bool.eq_false_iff.2 hup) (Bool.eq_false_iff.2 hdown)
    rcases hc with ⟨msg, rfl⟩ | hc
    · exact .inr (.inr (.inr ((feed_need (hf.party hs) hok).trans hrep)))
    · exfalso
      rcases answer_state (P := P) (a := l.auth) hc with h | h
      · exact (hf.calm (h.symm.trans hok)).elim hup hdown
      · exact absurd (h.symm.trans hok) (by decide)
  have hq : Quiet P hear (l.does P (.client c)) (clientDoes P io limit l c) :=
    authOut_quiet io limit _ _ ha
  refine ⟨h1.trans hq.moves, hq.settling hset, fun hok => ?_⟩
  rw [hq.auth] at hok
  rw [hq.up, hq.down]
  refine hc.imp_right fun hc => ?_
  rcases answer_state (P := P) (a := l.auth) hc with h | h
  · exact ⟨h.symm.trans hok, hf.calm (h.symm.trans hok)⟩
  · exact absurd (h.symm.trans hok) (by decide)

theorem feedLogin_settling (hf : Fine l) (ha : l.authStarted = true) (msg : List UInt8) :
    Moves P hear l (feedLogin P io limit l msg) ∧ Settling (feedLogin P io limit l msg) := by
  unfold feedLogin
  split
  · rename_i hs
    have h1 : Moves P hear l.next (l.next.does P (.server (.feed (io l.turn).auth msg))) :=
      .single (.act ⟨ha, hs, .inl ⟨hf.opened, _, _, rfl⟩⟩)
    have hset : Settling (l.next.does P (.server (.feed (io l.turn).auth msg))) :=
      ⟨hf.opened, fun _ => .inr (.inr (.inl hs)), fun h => absurd (ha.symm.trans h) (by decide),
        fun h => absurd (hs.symm.trans h) (by decide)⟩
    have hq : Quiet P hear (l.next.does P (.server (.feed (io l.turn).auth msg)))
        (serverDoes P io limit l.next (.feed (io l.turn).auth msg)) := authOut_quiet io limit _ _ ha
    exact ⟨((quiet_next l).moves.trans h1).trans hq.moves, hq.settling hset⟩
  · rename_i hs
    obtain ⟨h1, h2, -⟩ : Moves P hear l (clientDoes P io limit l (.feed msg)) ∧ _ ∧ _ :=
      clientDoes_settling io limit hf ha (Bool.eq_false_iff.2 hs) (.inl ⟨msg, rfl⟩)
    exact ⟨h1, h2⟩

theorem startLogin_works (hf : Fine l) : Lives P hear l (startLogin P io limit l) := by
  unfold startLogin
  split
  · rename_i hc
    obtain ⟨-, ha, hk⟩ := hc
    have ha0 : l.authStarted = false := by simpa using ha
    obtain ⟨hauth, hfired, hup⟩ := hf.idle ha0
    have hconv : (conversation l).state = .pending ∧ (conversation l).need = .nothing ∧
        (l.server = false → (conversation l).server = false) := by
      unfold conversation
      split
      · rename_i hs
        exact ⟨rfl, rfl, fun h => absurd (hs.symm.trans h) (by decide)⟩
      · exact ⟨rfl, rfl, fun _ => rfl⟩
    have h1 : Lives P hear l (l.does P (.start (conversation l))) := by
      refine ⟨.single (.act ⟨ha0, hf.opened, hk, rfl⟩), ⟨hf.opened, fun hok => ?_, fun _ _ _ => ?_,
        nofun, hconv.2.2⟩⟩
      · exact absurd (hconv.1.symm.trans hok) (by decide)
      · exact hconv.2.1.trans hfired.symm
    dsimp only
    split
    · exact h1.trans ((authOut_quiet io limit _ _ rfl).lives h1.2)
    · exact h1
  · exact ⟨.refl, hf⟩

variable (hexec : ∀ k l, Fine l → Works P hear l (exec k l))
include hexec

theorem deliver_lives (hf : Fine l) {rx : ChanId} {msg : List UInt8}
    (hlast : l.log.getLast? = some (.read rx (.ok msg))) :
    Lives P hear l (deliver P io limit exec l msg) := by
  unfold deliver
  split
  · exact ⟨.refl, hf⟩
  rename_i tag body
  split
  · split
    · rename_i ha
      obtain ⟨h1, h2⟩ : Moves P hear l (feedLogin P io limit l body) ∧ _ :=
        feedLogin_settling io limit hf ha body
      have h3 := settleAuth_works io hexec h2
      exact ⟨h1.trans h3.moves, h3.fine⟩
    · exact (settleAuth_works io hexec hf.settling).lives
  split
  · rename_i hd
    have h1 : Works P hear l (l.does P (.data body)) :=
      ⟨.single (.act ⟨hd.2.1, rx, hd.1 ▸ hlast⟩),
        ⟨hf.opened, hf.calm, hf.reported, hf.idle, hf.party⟩, id⟩
    exact (h1.trans (react_works io hexec _ h1.fine)).lives
  · exact ⟨.refl, hf⟩

theorem onEvent_works (hf : Fine l) (ev : Netchan.Event) : Works P hear l (onEvent P io exec l ev) := by
  have hrx (ch : ChanId) : Works P hear l { l with rx := some ch } :=
    (quiet_note l (some ch) l.havePeer l.connectSent l.accepted l.timerId l.peer l.turn).works hf
  cases ev with
  | chanOpen ch => exact hrx ch
  | data ch => exact hrx ch
  | disconnected => exact fireDown_works io hexec hf.settling trivial fun _ => hf
  | _ => exact .refl hf

theorem pollLoop_works : ∀ (n : Nat) (l : AuthLink), Fine l →
    Works P hear l (pollLoop P io exec n l)
  | 0, l, hf => .refl hf
  | n + 1, l, hf => by
    have hmay : May P hear l (.call .poll) := trivial
    have h1 : Works P hear l (l.does P (.call .poll)) := (quiet_act hmay rfl).works hf
    rw [pollLoop]
    split
    · exact h1
    · rename_i ev _
      have h2 := h1.trans (onEvent_works io hexec h1.fine ev)
      exact h2.trans (pollLoop_works n _ h2.fine)

theorem readLoop_lives (rx : ChanId) : ∀ (n : Nat) (l : AuthLink), Fine l →
    Lives P hear l (readLoop P io limit exec rx n l)
  | 0, l, hf => ⟨.refl, hf⟩
  | n + 1, l, hf => by
    have hmay : May P hear l (.read rx (netchanChanRead l.conn rx bufSize).1) := rfl
    have h1 : Lives P hear l (l.does P (.read rx (netchanChanRead l.conn rx bufSize).1)) :=
      (quiet_act hmay rfl).lives hf
    rw [readLoop]
    split
    · rename_i b msg hread
      have hlast : (l.does P (.read rx (netchanChanRead l.conn rx bufSize).1)).log.getLast? =
          some (.read rx (.ok (b :: msg))) := by rw [getLast_does, hread]
      have h2 := h1.trans (deliver_lives io limit hexec h1.2 hlast)
      exact h2.trans (readLoop_lives rx n _ h2.2)
    · exact h1

theorem pumpEvents_lives (hf : Fine l) : Lives P hear l (pumpEvents P io limit exec l) := by
  have h1 := (pollLoop_works io hexec limit l hf).lives
  unfold pumpEvents
  dsimp only
  split
  · exact h1.trans (readLoop_lives io limit hexec _ limit _ h1.2)
  · exact h1

theorem advance_lives (hf : Fine l) : Lives P hear l (advance P io limit exec l) := by
  unfold advance
  split
  · rename_i h
    have hwhy : Cause l .hostkey := h
    exact (fireDown_works io hexec hf.settling hwhy fun _ => hf).lives
  · have h1 : Lives P hear l (openTx P (connectOut P io l)) :=
      ((connectOut_quiet io l).trans (openTx_quiet _)).lives hf
    have h2 := h1.trans (startLogin_works io limit h1.2)
    exact h2.trans (settleAuth_works io hexec h2.2.settling).lives

theorem onReadable_lives (hf : Fine l) {ds : List Datagram} (hds : Attended P hear io ds l) :
    Lives P hear l (onReadable P io limit exec ds l) := by
  have h1 := (recvLoop_quiet io ds l hds).lives hf
  have h2 := h1.trans (pumpEvents_lives io limit hexec h1.2)
  have h3 := h2.trans (advance_lives io limit hexec h2.2)
  exact h3.trans ((flushOut_quiet io limit _).lives h3.2)

theorem onTick_lives (hf : Fine l) : Lives P hear l (onTick P io limit exec l) := by
  unfold onTick
  extract_lets l1 l2
  have h1 : Lives P hear l l1 := by
    change Lives P hear l (if !l.server ∧ !l.crypto.haveKey then sendHello P l else l)
    split
    · exact (sendHello_quiet l).lives hf
    · exact ⟨.refl, hf⟩
  have h2 : Lives P hear l l2 := by
    have h3 := h1.trans ((service_quiet io l1).lives h1.2)
    have h4 := h3.trans (pumpEvents_lives io limit hexec h3.2)
    have h5 := h4.trans (advance_lives io limit hexec h4.2)
    exact h5.trans ((flushOut_quiet io limit _).lives h5.2)
  split
  · exact h2.trans (((quiet_next l2).trans (quiet_note _ _ _ _ _ _ _ _)).lives h2.2)
  · exact h2.trans ((quiet_note l2 l2.rx l2.havePeer l2.connectSent l2.accepted (-1) l2.peer
      l2.turn).lives h2.2)

theorem answerNeed_works (hf : Fine l) {c : Auth.ClientCall} (hc : IsAnswer c) :
    Works P hear l (answerNeed P io limit exec l c) := by
  unfold answerNeed
  split
  · exact .refl hf
  · rename_i h
    have ha : l.authStarted = true := by
      cases h' : l.authStarted with
      | true => rfl
      | false => exact absurd (by simp [h']) h
    have hs : l.server = false := by
      cases h' : l.server with
      | false => rfl
      | true => exact absurd (by simp [h']) h
    obtain ⟨h1, h2, hok⟩ : Moves P hear l (clientDoes P io limit l c) ∧ _ ∧ _ :=
      clientDoes_settling io limit hf ha hs (.inr hc)
    have hnot : ¬ ∃ msg, c = .feed msg := by
      rintro ⟨msg, rfl⟩
      exact hc
    generalize clientDoes P io limit l c = m at h1 h2 hok
    have h3 : Moves P hear m { m with needFired := .nothing } :=
      .single (.note m m.rx m.havePeer m.connectSent m.accepted .nothing m.timerId m.peer m.turn)
    have h4 : Settling { m with needFired := .nothing } :=
      ⟨h2.opened, fun h => ((hok h).resolve_left hnot).2.imp_right .inl,
        fun h => ⟨(h2.idle h).1, rfl, (h2.idle h).2.2⟩, h2.party⟩
    have h5 := settleAuth_works io hexec h4
    have h6 : Works P hear _ (flushOut P io limit _) := (flushOut_quiet io limit _).works h5.fine
    exact ⟨((h1.trans h3).trans h5.moves).trans h6.moves, h6.fine,
      fun h => ((hok (h5.ok (h6.ok h))).resolve_left hnot).1⟩

/-- **A call of the application** works wherever a callback may make it. -/
theorem command_works (hf : Fine l) (k : Cmd) : Works P hear l (command P io limit exec l k) := by
  cases k with
  | send data =>
    refine Quiet.works ?_ hf
    change Quiet P hear l (authLinkSend P io limit l data).2
    unfold authLinkSend
    split
    · exact .refl l
    · rename_i h
      exact chanSend_quiet io limit data (.inr ⟨rfl, by simpa using h⟩)
  | _ => exact answerNeed_works io limit hexec hf trivial

omit hexec in
theorem nested_works : ∀ (depth : Nat) (k : Cmd) (l : AuthLink), Fine l →
    Works P hear l (nested P io limit depth k l)
  | 0, _, _, hf => .refl hf
  | depth + 1, k, _, hf => command_works io limit (nested_works depth) hf k

omit hexec in
theorem close_moves (l : AuthLink) : Moves P hear l (authLinkClose P io limit l) ∧
    (authLinkClose P io limit l).closing = true := by
  unfold authLinkClose
  extract_lets l1 l2
  have h1 : Moves P hear l l1 := .single (.close l)
  have hq : Quiet P hear l1 l2 := by
    change Quiet P hear l1
      (if l1.crypto.haveKey then flushOut P io limit (l1.does P (.call .disconnect)) else l1)
    split
    · rename_i hk
      have hmay : May P hear l1 (.call .disconnect) := hk
      exact (quiet_act hmay rfl).trans (flushOut_quiet io limit _)
    · exact .refl l1
  have hclosing : l2.closing = true := hq.closing
  split
  · rename_i h
    exact ⟨(h1.trans hq.moves).tail (.act ⟨h.1, h.2, .inr ⟨hclosing, rfl⟩⟩), hclosing⟩
  · exact ⟨h1.trans hq.moves, hclosing⟩

end

/-! ## Events -/

section
variable {P : Monocypher} {hear : Session → List UInt8 → Prop} {l : AuthLink} {io : Nat → Moment}
  {limit depth : Nat}

/-- A link that was not closed is one where the application may call. -/
def Alive (l : AuthLink) : Prop := l.closing = false → Fine l

/-- The datagrams of an event are of `hear`. -/
def Event.Attended (P : Monocypher) (hear : Session → List UInt8 → Prop) (io : Nat → Moment)
    (l : AuthLink) : Event → Prop
  | .readable ds => Link.Attended P hear io ds l
  | _ => True

/-- **Every event is a sequence of moves.** -/
theorem step_moves (ha : Alive l) {ev : Event} (hev : ev.Attended P hear io l) :
    Moves P hear l (l.step P io limit depth ev) ∧ Alive (l.step P io limit depth ev) := by
  unfold AuthLink.step
  split
  · exact ⟨.refl, ha⟩
  · rename_i h
    have hf : Fine l := ha (by simpa using h)
    have hexec : ∀ k l, Fine l → Works P hear l (nested P io limit depth k l) :=
      nested_works io limit depth
    cases ev with
    | readable ds =>
      have h1 : Lives P hear l (onReadable P io limit _ ds l) := onReadable_lives io limit hexec hf hev
      exact ⟨h1.1, fun _ => h1.2⟩
    | tick =>
      have h1 := onTick_lives io limit hexec hf
      exact ⟨h1.1, fun _ => h1.2⟩
    | cmd k =>
      have h1 := command_works io limit hexec hf k
      exact ⟨h1.moves, fun _ => h1.fine⟩
    | close =>
      obtain ⟨h1, h2⟩ : Moves P hear l (authLinkClose P io limit l) ∧ _ := close_moves io limit l
      exact ⟨h1, fun hc => absurd (h2.symm.trans hc) (by decide)⟩

end

end Netchan.Link
