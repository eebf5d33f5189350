import Netchan.Auth.Cleanup
import Netchan.Auth.Dialogue

/-!
# Messages that cross

The two sides of a `Dialogue` are at different places of the protocol while messages are in flight.
`Phase` lists where they can be, as long as the server goes on; `Listens` says that the client can take
whatever is on its way.

One phase is a defect: in `late` an `IA_SUBMIT` or an `IA_CANCEL` is on its way to a server that has
ended the method, and `nc_auth_feed` answers it with an error. The client drops what crosses its own
cancel; the server has no such rule. `honest_login` says that this is the only error, `crossed_cancel`
is a run that reaches it.
-/

namespace Netchan.Auth

open Lib Idl Crypto

/-! ## What the client can take -/

/-- The forms in flight. -/
def forms (down : List (List UInt8)) : Nat := down.countP fun m => byte m 0 = msgIaForm

/-- The form that is shown. -/
def shows (a : NcAuth) : Nat := if a.need = .form then 1 else 0

/-- The client can take forms and notices. -/
structure Absorbs (a : NcAuth) (mids : List (List UInt8)) : Prop where
  notices : ∀ m ∈ mids, FormMsg m ∨ WaitMsg m
  runs : mids ≠ [] → a.iaMethod ≠ 0
  one : a.cancelling = false → forms mids + shows a ≤ 1
  calm : mids ≠ [] → ¬ Asks a

/-- The client can take what is in flight: forms and notices, and one answer at the end. -/
inductive Listens (a : NcAuth) : List (List UInt8) → Prop
  | notices {mids : List (List UInt8)} (h : Absorbs a mids) : Listens a mids
  | answer {mids : List (List UInt8)} {ans : List UInt8} (h : Absorbs a mids) (hm : AnswerMsg ans)
      (hn : ¬ Asks a) : Listens a (mids ++ [ans])

/-- The client calms down: a question is dropped, or the method is cancelled. -/
structure Settles (a b : NcAuth) : Prop where
  method : b.iaMethod = a.iaMethod
  cancelling : b.cancelling = a.cancelling ∨ b.cancelling = true
  need : b.need = a.need ∨ b.need = .nothing

section
variable {P : Monocypher} {a b : NcAuth} {mids : List (List UInt8)} {msg : List UInt8}

theorem not_asks_of {n : Need} (hn : a.need = n) (h : n = .nothing ∨ n = .form) : ¬ Asks a := by
  rintro (hc | hc | hc)
  all_goals
    rw [hn] at hc
    subst hc
    rcases h with h | h
    · cases h
    · cases h

theorem shows_le (h : b.need = a.need ∨ b.need = .nothing) : shows b ≤ shows a := by
  unfold shows
  rcases h with h | h
  · rw [h]
  · rw [h]
    exact Nat.zero_le _

theorem shows_nothing (h : a.need = .nothing) : shows a = 0 := by
  rw [shows, h]
  rfl

theorem Settles.asks (h : Settles a b) (hn : ¬ Asks a) : ¬ Asks b := by
  rcases h.need with he | he
  · unfold Asks at hn ⊢
    rwa [he]
  · exact not_asks_of he (.inl rfl)

theorem absorbs_nil (a : NcAuth) : Absorbs a [] := by
  refine ⟨nofun, fun h => absurd rfl h, fun _ => ?_, fun h => absurd rfl h⟩
  unfold shows
  split
  · exact Nat.le_refl 1
  · exact Nat.zero_le 1

theorem Absorbs.settles (h : Absorbs a mids) (hb : Settles a b) : Absorbs b mids := by
  refine ⟨h.notices, fun hm => hb.method ▸ h.runs hm, fun hc => ?_, fun hm => hb.asks (h.calm hm)⟩
  have hc' : a.cancelling = false := by
    rcases hb.cancelling with he | he
    · rw [← he]
      exact hc
    · rw [he] at hc
      cases hc
  have h1 := h.one hc'
  have h2 := shows_le hb.need
  omega

theorem forms_cons (m : List UInt8) (mids : List (List UInt8)) :
    forms (m :: mids) = forms mids + if byte m 0 = msgIaForm then 1 else 0 := by
  simp [forms, List.countP_cons]

theorem forms_concat (m : List UInt8) (mids : List (List UInt8)) :
    forms (mids ++ [m]) = forms mids + if byte m 0 = msgIaForm then 1 else 0 := by
  rw [forms, List.countP_append, List.countP_singleton]
  simp [forms]

theorem WaitMsg.not_form (h : WaitMsg msg) : byte msg 0 ≠ msgIaForm := by
  rw [h.kind]
  decide

theorem Absorbs.tail (h : Absorbs a (msg :: mids)) : Absorbs a mids := by
  refine ⟨fun m hm => h.notices m (.tail _ hm), fun _ => h.runs nofun, fun hc => ?_,
    fun _ => h.calm nofun⟩
  have h1 := h.one hc
  rw [forms_cons] at h1
  omega

/-- **A form or a notice is delivered.** -/
theorem Absorbs.deliver (h : Absorbs a (msg :: mids)) (hs : a.server = false) (hp : a.state = .pending)
    {cap : Nat} (hbuf : a.buf = some cap) (hcap : Ample cap) :
    ∃ b, ncAuthFeed P noEnv a msg = (true, b, []) ∧ Absorbs b mids ∧ b.iaMethod = a.iaMethod ∧
      b.cancelling = a.cancelling ∧ ¬ Asks b ∧ forms mids + shows b ≤ forms (msg :: mids) + shows a ∧
      (a.cancelling = true → b.need = a.need ∨ b.need = .nothing) := by
  have hi := h.runs nofun
  have hn := h.calm nofun
  have htail := h.tail
  rw [forms_cons]
  rcases h.notices msg (.head _) with hm | hm
  · have hone : a.cancelling = true ∨ a.iaMethod ≠ 0 ∧ a.need ≠ .form := by
      by_cases hc : a.cancelling = true
      · exact .inl hc
      · refine .inr ⟨hi, fun hf => ?_⟩
        have h1 := h.one (by simpa using hc)
        rw [forms_cons, if_pos hm.kind, shows, if_pos hf] at h1
        omega
    obtain ⟨b, he, hib, hcb, hnb⟩ := @feed_form P a msg cap hs hp hm hbuf hcap hone
    have hsum : shows b ≤ 1 + shows a := by
      unfold shows
      split
      · omega
      · omega
    have hasks : ¬ Asks b := by
      rcases hnb with hnb | ⟨-, hnb⟩
      · unfold Asks at hn ⊢
        rwa [hnb]
      · exact not_asks_of hnb (.inr rfl)
    refine ⟨b, he, ⟨htail.notices, fun _ => hib ▸ hi, fun hc => ?_, fun _ => hasks⟩, hib, hcb, hasks, ?_,
      fun hc => ?_⟩
    · have h1 := h.one (hcb ▸ hc)
      rw [forms_cons, if_pos hm.kind] at h1
      omega
    · rw [if_pos hm.kind]
      omega
    · rcases hnb with hnb | ⟨hf, -⟩
      · exact .inl hnb
      · rw [hc] at hf
        cases hf
  · obtain ⟨b, he, hib, hcb, hnb⟩ := @feed_wait P a msg hs hp hm (.inr hi)
    have hsettles : Settles a b := ⟨hib, .inl hcb, hnb⟩
    have hsum := shows_le hnb
    exact ⟨b, he, htail.settles hsettles, hib, hcb, hsettles.asks hn, by omega, fun _ => hnb⟩

theorem Said.settles {r : NcAuth × List Act} (h : Said a r) (hn : ¬ Asks a) : Settles a r.1 := by
  cases h with
  | quiet hi hc hn' => exact ⟨hi, .inl hc, hn'⟩
  | moves hasks hn' hi hc h => exact absurd hasks hn
  | credential hasks hm hs hb hi => exact absurd hasks hn
  | submits hf hm hs hb hi hc => exact ⟨hi, .inl hc, .inr hb⟩
  | cancels hr hd hs hb hi hc => exact ⟨hi, .inr hc, .inr hb⟩

theorem Listens.call {down : List (List UInt8)} (h : Listens a down) {r : NcAuth × List Act}
    (hr : Said a r) : Listens r.1 down := by
  cases h with
  | notices h =>
    cases down with
    | nil => exact .notices (absorbs_nil _)
    | cons m mids => exact .notices (h.settles (hr.settles (h.calm nofun)))
  | answer h hm hn => exact .answer (h.settles (hr.settles hn)) hm ((hr.settles hn).asks hn)

theorem Listens.deliver {down : List (List UInt8)} (h : Listens a (msg :: down)) (hs : a.server = false)
    (hp : a.state = .pending) (hsend : a.cbs.send = true) {cap : Nat} (hbuf : a.buf = some cap)
    (hcap : Ample cap) :
    (ncAuthFeed P noEnv a msg).1 = true ∧ Listens (ncAuthFeed P noEnv a msg).2.1 down := by
  generalize hl : msg :: down = l at h
  cases h with
  | notices h =>
    subst hl
    obtain ⟨b, he, hb, -⟩ := h.deliver (P := P) hs hp hbuf hcap
    rw [he]
    exact ⟨rfl, .notices hb⟩
  | answer h hm hn =>
    rename_i mids ans
    cases mids with
    | nil =>
      obtain ⟨rfl, rfl⟩ := List.cons.inj hl
      obtain ⟨a', r, he, -⟩ := @feed_answer P a msg hs hp hsend hm
      rw [he]
      exact ⟨rfl, .notices (absorbs_nil _)⟩
    | cons m mids =>
      obtain ⟨rfl, rfl⟩ := List.cons.inj hl
      obtain ⟨b, he, hb, -, -, hnb, -⟩ := h.deliver (P := P) hs hp hbuf hcap
      rw [he]
      exact ⟨rfl, .answer hb hm hnb⟩

theorem Listens.tail {down : List (List UInt8)} (h : Listens a (msg :: down)) : Listens a down := by
  generalize hl : msg :: down = l at h
  cases h with
  | notices h =>
    subst hl
    exact .notices h.tail
  | answer h hm hn =>
    rename_i mids ans
    cases mids with
    | nil =>
      obtain ⟨rfl, rfl⟩ := List.cons.inj hl
      exact .notices (absorbs_nil _)
    | cons m mids =>
      obtain ⟨rfl, rfl⟩ := List.cons.inj hl
      exact .answer h.tail hm hn

end

/-! ## Where the two sides are -/

/-- What is on its way to a server whose method runs. -/
inductive Uplink (d : Dialogue) : Prop
  | clear (hu : d.up = []) (hc : d.cl.cancelling = false)
      (hw : d.waiting = true → forms d.down + shows d.cl = 0)
  | submit {s : List UInt8} (hm : SubmitMsg s) (hu : d.up = [s]) (hc : d.cl.cancelling = false)
      (hw : d.waiting = false) (hf : forms d.down + shows d.cl = 0)
  | cancel (hu : d.up = [[msgIaCancel]]) (hc : d.cl.cancelling = true) (hn : d.cl.need = .nothing)
  | both {s : List UInt8} (hm : SubmitMsg s) (hu : d.up = [s, [msgIaCancel]])
      (hc : d.cl.cancelling = true) (hn : d.cl.need = .nothing) (hw : d.waiting = false)

/-- A message for a method. -/
def ForMethod (msg : List UInt8) : Prop := byte msg 0 = msgIaSubmit ∨ byte msg 0 = msgIaCancel

/-- Where the two sides can be while the server goes on. -/
inductive Phase (d : Dialogue) : Prop
  | idle (hi : d.sv.iaMethod = 0) (hg : d.sv.greeted = true) (hu : d.up = []) (hd : d.down = [])
      (hq : Asks d.cl → d.cl.iaMethod = 0 ∧ d.cl.cancelling = false)
  | greets (hi : d.sv.iaMethod = 0) (hg : d.sv.greeted = false) {msg : List UInt8} (hm : HelloMsg msg)
      (hu : d.up = [msg]) (hd : d.down = []) (hn : d.cl.need = .nothing) (hr : d.cl.iaMethod = 0)
  | proves (hi : d.sv.iaMethod = 0) (hg : d.sv.greeted = true) {msg : List UInt8}
      (hm : CredentialMsg msg) (hu : d.up = [msg]) (hd : d.down = []) (hn : d.cl.need = .nothing)
      (hr : d.cl.iaMethod = 0)
  | opens (hi : d.sv.iaMethod = 0) (hg : d.sv.greeted = true) {msg : List UInt8} (hm : BeginMsg msg)
      (hu : d.up = [msg] ∧ d.cl.cancelling = false ∨
        d.up = [msg, [msgIaCancel]] ∧ d.cl.cancelling = true)
      (hd : d.down = []) (hn : d.cl.need = .nothing) (hr : d.cl.iaMethod ≠ 0)
  | runs (hi : d.sv.iaMethod ≠ 0) (hg : d.sv.greeted = true) (hsub : d.sv.cbs.submit = true)
      (h : Absorbs d.cl d.down) (hn : ¬ Asks d.cl) (hr : d.cl.iaMethod ≠ 0) (hu : Uplink d)
  | answers (hi : d.sv.iaMethod = 0) (hg : d.sv.greeted = true) (hu : d.up = [])
      {mids : List (List UInt8)} {ans : List UInt8} (h : Absorbs d.cl mids) (hm : AnswerMsg ans)
      (hd : d.down = mids ++ [ans]) (hn : ¬ Asks d.cl)
  | late (hi : d.sv.iaMethod = 0) {msg : List UInt8} {rest : List (List UInt8)} (hm : ForMethod msg)
      (hu : d.up = msg :: rest)

/-- What holds of two honest sides. -/
structure Meets (d : Dialogue) : Prop where
  client : d.cl.server = false ∧ d.cl.cbs.send = true
  clientRoom : ∃ cap, Ample cap ∧ d.cl.buf = some cap
  server : d.sv.server = true ∧ d.sv.cbs.send = true ∧
    (d.sv.cbs.start = true → d.sv.cbs.submit = true)
  serverRoom : ∃ cap, Ample cap ∧ d.sv.buf = some cap
  listens : Listens d.cl d.down
  phase : d.sv.state = .pending → Phase d

section
variable {P : Monocypher} {d : Dialogue}

/-! ## Calls of the client's application -/

theorem forMethod_submit {msg : List UInt8} (h : SubmitMsg msg) : ForMethod msg := .inl h.kind

theorem forMethod_cancel : ForMethod [msgIaCancel] := .inr rfl

theorem Dialogue.asked_up {r : NcAuth × List Act} {l : List (List UInt8)} (hu : d.up = [])
    (hs : sent r.2 = l) : (d.asked r).up = l := by
  rw [Dialogue.asked, hu, hs]
  rfl

theorem Said.still {a : NcAuth} {r : NcAuth × List Act} (h : Said a r) (hn : a.need = .nothing) :
    r.1.need = .nothing ∧ r.1.iaMethod = a.iaMethod ∧
      (sent r.2 = [] ∧ r.1.cancelling = a.cancelling ∨
        a.iaMethod ≠ 0 ∧ a.cancelling = false ∧ sent r.2 = [[msgIaCancel]] ∧ r.1.cancelling = true) := by
  cases h with
  | quiet hi hc hb => exact ⟨hb.elim (fun he => he.trans hn) id, hi, .inl ⟨rfl, hc⟩⟩
  | moves hasks => exact absurd hasks (not_asks_of hn (.inl rfl))
  | credential hasks => exact absurd hasks (not_asks_of hn (.inl rfl))
  | submits hf => exact absurd (hn.symm.trans hf) nofun
  | cancels hr hd hs hb hi hc => exact ⟨hb, hi, .inr ⟨hr, hd, hs, hc⟩⟩

theorem Uplink.call (h : Uplink d) (hone : d.cl.cancelling = false → forms d.down + shows d.cl ≤ 1)
    (hn : ¬ Asks d.cl) {r : NcAuth × List Act} (hr : Said d.cl r) : Uplink (d.asked r) := by
  cases h with
  | clear hu hc hw =>
    cases hr with
    | quiet hib hcb hnb =>
      refine .clear (Dialogue.asked_up hu rfl) (hcb.trans hc) fun hwait => ?_
      have h1 := hw hwait
      have h2 := shows_le hnb
      change forms d.down + _ = 0
      dsimp only [Dialogue.asked]
      omega
    | moves hasks => exact absurd hasks hn
    | credential hasks => exact absurd hasks hn
    | submits hf hm hs hb hib hcb =>
      have h1 : shows d.cl = 1 := if_pos hf
      have h2 := hone hc
      have hwait : d.waiting = false := by
        by_contra hwait
        have h3 := hw (by simpa using hwait)
        omega
      refine .submit hm (Dialogue.asked_up hu hs) (hcb.trans hc) hwait ?_
      have h4 := shows_nothing hb
      dsimp only [Dialogue.asked]
      omega
    | cancels hrun hd hs hb hib hcb => exact .cancel (Dialogue.asked_up hu hs) hcb hb
  | submit hm hu hc hw hf =>
    cases hr with
    | quiet hib hcb hnb =>
      refine .submit hm (by rw [Dialogue.asked, hu]; rfl) (hcb.trans hc) hw ?_
      have h2 := shows_le hnb
      dsimp only [Dialogue.asked]
      omega
    | moves hasks => exact absurd hasks hn
    | credential hasks => exact absurd hasks hn
    | submits hform hm hs hb hib hcb =>
      have h1 : shows d.cl = 1 := if_pos hform
      omega
    | cancels hrun hd hs hb hib hcb =>
      exact .both hm (by rw [Dialogue.asked, hu, hs]; rfl) hcb hb hw
  | cancel hu hc hneed =>
    obtain ⟨hb, -, ⟨hs, hcb⟩ | ⟨-, hd, -⟩⟩ := hr.still hneed
    · exact .cancel (by rw [Dialogue.asked, hu, hs]; rfl) (hcb.trans hc) hb
    · rw [hc] at hd
      cases hd
  | both hm hu hc hneed hw =>
    obtain ⟨hb, -, ⟨hs, hcb⟩ | ⟨-, hd, -⟩⟩ := hr.still hneed
    · exact .both hm (by rw [Dialogue.asked, hu, hs]; rfl) (hcb.trans hc) hb hw
    · rw [hc] at hd
      cases hd

/-- The phase after a call, when it is the client's turn. -/
theorem idle_call (hi : d.sv.iaMethod = 0) (hg : d.sv.greeted = true) (hu : d.up = [])
    (hd : d.down = []) (hq : Asks d.cl → d.cl.iaMethod = 0 ∧ d.cl.cancelling = false)
    {r : NcAuth × List Act} (hr : Said d.cl r) : Phase (d.asked r) := by
  cases hr with
  | quiet hib hcb hnb =>
    refine .idle hi hg (Dialogue.asked_up hu rfl) hd fun hasks => ?_
    rcases hnb with hnb | hnb
    · have hasks' : Asks d.cl := by
        unfold Asks at hasks ⊢
        rwa [← hnb]
      obtain ⟨h1, h2⟩ := hq hasks'
      exact ⟨hib.trans h1, hcb.trans h2⟩
    · exact absurd hasks (not_asks_of hnb (.inl rfl))
  | moves hasks hn' hi' hc' hnext =>
    obtain ⟨h1, h2⟩ := hq hasks
    cases hnext with
    | asks hn hib hcb =>
      exact .idle hi hg (Dialogue.asked_up hu rfl) hd fun _ =>
        ⟨(hib.trans hi').trans h1, (hcb.trans hc').trans h2⟩
    | rests hn =>
      have hn : _ = Need.nothing := hn.elim id fun he => he.trans hn'
      exact .idle hi hg (Dialogue.asked_up hu rfl) hd fun hasks =>
        absurd hasks (not_asks_of hn (.inl rfl))
    | opens hm hs hn hib hcb =>
      exact .opens hi hg hm (.inl ⟨Dialogue.asked_up hu hs, (hcb.trans hc').trans h2⟩) hd hn hib
  | credential hasks hm hs hb hib =>
    exact .proves hi hg hm (Dialogue.asked_up hu hs) hd hb (hib.trans (hq hasks).1)
  | submits hf hm hs hb hib hcb => exact .late hi (forMethod_submit hm) (Dialogue.asked_up hu hs)
  | cancels hr hc hs hb hib hcb => exact .late hi forMethod_cancel (Dialogue.asked_up hu hs)

/-- **The phase after a call** of the client's application. -/
theorem Phase.call (h : Phase d) {r : NcAuth × List Act} (hr : Said d.cl r) : Phase (d.asked r) := by
  cases h with
  | idle hi hg hu hd hq => exact idle_call hi hg hu hd hq hr
  | greets hi hg hm hu hd hn hrun =>
    obtain ⟨hb, hib, ⟨hs, -⟩ | ⟨hrun', -⟩⟩ := hr.still hn
    · exact .greets hi hg hm (by rw [Dialogue.asked, hu, hs]; rfl) hd hb (hib.trans hrun)
    · exact absurd hrun hrun'
  | proves hi hg hm hu hd hn hrun =>
    obtain ⟨hb, hib, ⟨hs, -⟩ | ⟨hrun', -⟩⟩ := hr.still hn
    · exact .proves hi hg hm (by rw [Dialogue.asked, hu, hs]; rfl) hd hb (hib.trans hrun)
    · exact absurd hrun hrun'
  | opens hi hg hm hu hd hn hrun =>
    obtain ⟨hb, hib, hcase⟩ := hr.still hn
    have hrun' : r.1.iaMethod ≠ 0 := hib ▸ hrun
    refine .opens hi hg hm ?_ hd hb hrun'
    rcases hcase with ⟨hs, hcb⟩ | ⟨-, hc, hs, hcb⟩
    · rcases hu with ⟨hu, hc⟩ | ⟨hu, hc⟩
      · exact .inl ⟨by rw [Dialogue.asked, hu, hs]; rfl, hcb.trans hc⟩
      · exact .inr ⟨by rw [Dialogue.asked, hu, hs]; rfl, hcb.trans hc⟩
    · rcases hu with ⟨hu, -⟩ | ⟨-, hc'⟩
      · exact .inr ⟨by rw [Dialogue.asked, hu, hs]; rfl, hcb⟩
      · rw [hc'] at hc
        cases hc
  | runs hi hg hsub h hn hrun hu =>
    have hs := hr.settles hn
    have hrun' : r.1.iaMethod ≠ 0 := hs.method ▸ hrun
    exact .runs hi hg hsub (h.settles hs) (hs.asks hn) hrun' (hu.call h.one hn hr)
  | answers hi hg hu h hm hd hn =>
    have hset := hr.settles hn
    cases hr with
    | quiet hib hcb hnb =>
      exact .answers hi hg (Dialogue.asked_up hu rfl) (h.settles hset) hm hd (hset.asks hn)
    | moves hasks => exact absurd hasks hn
    | credential hasks => exact absurd hasks hn
    | submits hf hm' hs hb hib hcb => exact .late hi (forMethod_submit hm') (Dialogue.asked_up hu hs)
    | cancels hr hc hs hb hib hcb => exact .late hi forMethod_cancel (Dialogue.asked_up hu hs)
  | late hi hm hu => exact .late hi hm (by rw [Dialogue.asked, hu]; rfl)

/-! ## Deliveries to the client -/

/-- What the delivery of a form or a notice leaves, whether or not the client goes on. -/
structure Passed (a b : NcAuth) (msg : List UInt8) (mids : List (List UInt8)) : Prop where
  absorbs : Absorbs b mids
  method : b.iaMethod = a.iaMethod
  cancelling : b.cancelling = a.cancelling
  calm : ¬ Asks b
  sum : forms mids + shows b ≤ forms (msg :: mids) + shows a
  need : a.cancelling = true → b.need = a.need ∨ b.need = .nothing

theorem Absorbs.pass {a : NcAuth} {msg : List UInt8} {mids : List (List UInt8)}
    (h : Absorbs a (msg :: mids)) (hs : a.server = false) {cap : Nat} (hbuf : a.buf = some cap)
    (hcap : Ample cap) : ∃ b, (ncAuthFeed P noEnv a msg).2 = (b, []) ∧ Passed a b msg mids := by
  by_cases hp : a.state = .pending
  · obtain ⟨b, he, h1, h2, h3, h4, h5, h6⟩ := h.deliver (P := P) hs hp hbuf hcap
    exact ⟨b, by rw [he], h1, h2, h3, h4, h5, h6⟩
  · refine ⟨a, by rw [feed_over hp], h.tail, rfl, rfl, h.calm nofun, ?_, fun _ => .inl rfl⟩
    rw [forms_cons]
    omega

theorem answer_pass {a : NcAuth} {msg : List UInt8} (hs : a.server = false)
    (hsend : a.cbs.send = true) (hm : AnswerMsg msg) :
    ∃ a', a'.need = a.need ∧ a'.iaMethod = 0 ∧ a'.cancelling = false ∧
      Next a' (ncAuthFeed P noEnv a msg).2 := by
  by_cases hp : a.state = .pending
  · obtain ⟨a', r, he, h⟩ := @feed_answer P a msg hs hp hsend hm
    rw [he]
    exact ⟨a', h⟩
  · rw [feed_over hp]
    exact ⟨{ a with iaMethod := 0, cancelling := false }, rfl, rfl, rfl, .rests (.inr rfl)⟩

theorem Uplink.pass (h : Uplink d) {b : NcAuth} {msg : List UInt8} {down : List (List UInt8)}
    (hd : d.down = msg :: down) (hp : Passed d.cl b msg down) :
    Uplink ({ d with down }.asked (b, [])) := by
  have hsum := hp.sum
  rw [← hd] at hsum
  have hup : ({ d with down }.asked (b, [])).up = d.up := List.append_nil _
  cases h with
  | clear hu hc hw =>
    refine .clear (hup.trans hu) (hp.cancelling.trans hc) fun hwait => ?_
    have h1 := hw hwait
    dsimp only [Dialogue.asked]
    omega
  | submit hm hu hc hw hf =>
    refine .submit hm (hup.trans hu) (hp.cancelling.trans hc) hw ?_
    dsimp only [Dialogue.asked]
    omega
  | cancel hu hc hn =>
    exact .cancel (hup.trans hu) (hp.cancelling.trans hc) ((hp.need hc).elim (fun he => he.trans hn) id)
  | both hm hu hc hn hw =>
    exact .both hm (hup.trans hu) (hp.cancelling.trans hc)
      ((hp.need hc).elim (fun he => he.trans hn) id) hw

/-- **The phase after a delivery to the client.** -/
theorem Phase.toClient (h : Phase d) {msg : List UInt8} {down : List (List UInt8)}
    (hd : d.down = msg :: down) (hs : d.cl.server = false) (hsend : d.cl.cbs.send = true) {cap : Nat}
    (hbuf : d.cl.buf = some cap) (hcap : Ample cap) :
    Phase ({ d with down }.asked (ncAuthFeed P noEnv d.cl msg).2) := by
  have hnil (hd' : d.down = []) : False := by
    rw [hd] at hd'
    cases hd'
  cases h with
  | idle hi hg hu hd' hq => exact (hnil hd').elim
  | greets hi hg hm hu hd' hn hr => exact (hnil hd').elim
  | proves hi hg hm hu hd' hn hr => exact (hnil hd').elim
  | opens hi hg hm hu hd' hn hr => exact (hnil hd').elim
  | runs hi hg hsub h hn hr hu =>
    rw [hd] at h
    obtain ⟨b, he, hb⟩ := h.pass (P := P) hs hbuf hcap
    rw [he]
    have hrun : b.iaMethod ≠ 0 := hb.method ▸ hr
    exact .runs hi hg hsub hb.absorbs hb.calm hrun (hu.pass hd hb)
  | answers hi hg hu h hm hd' hn =>
    rename_i mids ans
    rw [hd] at hd'
    cases mids with
    | nil =>
      obtain ⟨rfl, rfl⟩ := List.cons.inj hd'
      obtain ⟨a', hn', hi', hc', hnext⟩ := @answer_pass P d.cl msg hs hsend hm
      generalize (ncAuthFeed P noEnv d.cl msg).2 = r at hnext
      have hup {l : List (List UInt8)} (hl : sent r.2 = l) : ({ d with down := [] }.asked r).up = l :=
        Dialogue.asked_up hu hl
      cases hnext with
      | asks hnb hib hcb => exact .idle hi hg (hup rfl) rfl fun _ => ⟨hib.trans hi', hcb.trans hc'⟩
      | rests hnb =>
        refine .idle hi hg (hup rfl) rfl fun hasks => ?_
        rcases hnb with hnb | hnb
        · exact absurd hasks (not_asks_of hnb (.inl rfl))
        · refine absurd ?_ hn
          unfold Asks at hasks ⊢
          rwa [← hn', ← hnb]
      | opens hm' hs' hnb hib hcb => exact .opens hi hg hm' (.inl ⟨hup hs', hcb.trans hc'⟩) rfl hnb hib
    | cons m mids =>
      obtain ⟨rfl, rfl⟩ := List.cons.inj hd'
      obtain ⟨b, he, hb⟩ := h.pass (P := P) hs hbuf hcap
      rw [he]
      exact .answers hi hg (Dialogue.asked_up hu rfl) hb.absorbs hm rfl hb.calm
  | late hi hm hu => exact .late hi hm (by rw [Dialogue.asked]; dsimp only; rw [hu]; rfl)

/-! ## What the server does -/

/-- The client listens, and the two sides are in a phase. -/
def InStep (d : Dialogue) : Prop := Listens d.cl d.down ∧ Phase d

/-- The server answers: what is still on its way to it comes too late. -/
theorem inStep_ends {a : NcAuth} {r : NcAuth × List Act} (h : Ends a r) (hg : r.1.greeted = true)
    (habs : Absorbs d.cl d.down) (hn : ¬ Asks d.cl)
    (hu : d.up = [] ∨ ∃ m rest, ForMethod m ∧ d.up = m :: rest) : InStep (d.served r) := by
  obtain ⟨ans, hans, hs⟩ := h.tells
  have hdown : (d.served r).down = d.down ++ [ans] := by rw [Dialogue.served, hs]
  refine ⟨hdown ▸ .answer habs hans hn, ?_⟩
  rcases hu with hu | ⟨m, rest, hm, hu⟩
  · exact .answers h.ended hg hu habs hans hdown hn
  · exact .late h.ended hm hu

/-- The uplink just before a verdict: nothing, and no form is out, or a cancel. -/
def Awaits (d : Dialogue) : Prop :=
  d.up = [] ∧ d.cl.cancelling = false ∧ forms d.down + shows d.cl = 0 ∨
    d.up = [[msgIaCancel]] ∧ d.cl.cancelling = true ∧ d.cl.need = .nothing

theorem Absorbs.concat {a : NcAuth} {mids : List (List UInt8)} {msg : List UInt8} (h : Absorbs a mids)
    (hm : FormMsg msg ∨ WaitMsg msg) (hr : a.iaMethod ≠ 0) (hn : ¬ Asks a)
    (hone : a.cancelling = false → forms (mids ++ [msg]) + shows a ≤ 1) :
    Absorbs a (mids ++ [msg]) := by
  refine ⟨fun m hmem => ?_, fun _ => hr, hone, fun _ => hn⟩
  rcases List.mem_append.1 hmem with hmem | hmem
  · exact h.notices m hmem
  · rw [List.mem_singleton.1 hmem]
    exact hm

/-- **The server speaks.** -/
theorem inStep_spoke {a : NcAuth} {r : NcAuth × List Act} (h : Spoke d.waiting a r)
    (ha : a.iaMethod ≠ 0) (hg : a.greeted = true) (hsub : a.cbs.submit = true)
    (habs : Absorbs d.cl d.down) (hn : ¬ Asks d.cl) (hr : d.cl.iaMethod ≠ 0) (hu : Awaits d) :
    InStep (d.served r) := by
  cases h with
  | form hb hi hm hs hw =>
    rename_i b acts msg
    have hdown : (d.served (b, acts)).down = d.down ++ [msg] := by rw [Dialogue.served, hs]
    have hwait : (d.served (b, acts)).waiting = false := hw
    have hforms : forms (d.down ++ [msg]) = forms d.down + 1 := by
      rw [forms_concat, if_pos hm.kind]
    have habs' : Absorbs d.cl (d.down ++ [msg]) := by
      refine habs.concat (.inl hm) hr hn fun hc => ?_
      rcases hu with ⟨-, -, hf⟩ | ⟨-, hc', -⟩
      · omega
      · rw [hc'] at hc
        cases hc
    refine ⟨hdown ▸ .notices habs', .runs (hi ▸ ha) (hb.greeted hg) (hb.cbs ▸ hsub) (hdown ▸ habs') hn hr ?_⟩
    rcases hu with ⟨hu, hc, -⟩ | ⟨hu, hc, hneed⟩
    · refine .clear hu hc fun hw' => ?_
      rw [hwait] at hw'
      cases hw'
    · exact .cancel hu hc hneed
  | parks hb hi hs hw =>
    rename_i b acts
    obtain ⟨habs', hforms⟩ : Absorbs d.cl (d.served (b, acts)).down ∧
        forms (d.served (b, acts)).down = forms d.down := by
      rcases hs with hs | ⟨msg, hm, hs⟩
      · have hdown : (d.served (b, acts)).down = d.down := by
          rw [Dialogue.served, hs]
          exact List.append_nil _
        rw [hdown]
        exact ⟨habs, rfl⟩
      · have hdown : (d.served (b, acts)).down = d.down ++ [msg] := by rw [Dialogue.served, hs]
        have hforms : forms (d.down ++ [msg]) = forms d.down := by
          rw [forms_concat, if_neg hm.not_form]
          rfl
        rw [hdown]
        refine ⟨habs.concat (.inr hm) hr hn fun hc => ?_, hforms⟩
        have := habs.one hc
        omega
    refine ⟨.notices habs', .runs (hi ▸ ha) (hb.greeted hg) (hb.cbs ▸ hsub) habs' hn hr ?_⟩
    rcases hu with ⟨hu, hc, hf⟩ | ⟨hu, hc, hneed⟩
    · refine .clear hu hc fun _ => ?_
      rw [hforms]
      exact hf
    · exact .cancel hu hc hneed
  | ends h =>
    refine inStep_ends h (h.stands.greeted hg) habs hn ?_
    rcases hu with ⟨hu, -⟩ | ⟨hu, -⟩
    · exact .inl hu
    · exact .inr ⟨_, _, forMethod_cancel, hu⟩

/-- What a delivery to a server does: no error, and the two sides stay in step. -/
def Served (P : Monocypher) (d : Dialogue) (env : Env) (msg : List UInt8) (up : List (List UInt8)) : Prop :=
  ∃ r, ncAuthFeed P env d.sv msg = (true, r) ∧ Stands d.sv r.1 ∧ InStep ({ d with up }.served r)

theorem Spoke.stands {w : Bool} {a : NcAuth} {r : NcAuth × List Act} (h : Spoke w a r) :
    Stands a r.1 := by
  cases h with
  | form hb hi hm hs hw => exact hb
  | parks hb hi hs hw => exact hb
  | ends h => exact h.stands

/-- **A delivery to a server** that goes on, unless it comes too late for a method. -/
theorem Phase.toServer (h : Phase d) {msg : List UInt8} {up : List (List UInt8)} (hup : d.up = msg :: up)
    (hp : d.sv.state = .pending) (hs : d.sv.server = true) (hsend : d.sv.cbs.send = true)
    (hstart : d.sv.cbs.start = true → d.sv.cbs.submit = true) {cap : Nat} (hbuf : d.sv.buf = some cap)
    (hcap : Ample cap) (ht : ForMethod msg → d.sv.iaMethod ≠ 0) (env : Env) :
    Served P d env msg up := by
  -- a request is answered while nothing else is in flight
  have hdone {r : NcAuth × List Act} (hr : Ends d.sv r) (hg : r.1.greeted = true) (hu : up = [])
      (hd : d.down = []) (hn : d.cl.need = .nothing) : InStep ({ d with up }.served r) := by
    refine @inStep_ends { d with up } d.sv r hr hg ?_ (not_asks_of hn (.inl rfl)) (.inl hu)
    dsimp only
    rw [hd]
    exact absorbs_nil _
  cases h with
  | idle hi hg hu hd hq =>
    rw [hup] at hu
    cases hu
  | greets hi hg hm hu hd hn hr =>
    rw [hup] at hu
    obtain ⟨rfl, rfl⟩ := List.cons.inj hu
    obtain ⟨r, he, hends, hg'⟩ := @feed_hello P env d.sv msg hs hp hsend hg hi hm
    exact ⟨r, he, hends.stands, hdone hends hg' rfl hd hn⟩
  | proves hi hg hm hu hd hn hr =>
    rw [hup] at hu
    obtain ⟨rfl, rfl⟩ := List.cons.inj hu
    obtain ⟨r, he, hends⟩ := @feed_credential P env d.sv msg hs hp hsend hg hi hm
    exact ⟨r, he, hends.stands, hdone hends (hends.stands.greeted hg) rfl hd hn⟩
  | opens hi hg hm hu hd hn hr =>
    rename_i msg'
    have habs : Absorbs d.cl d.down := hd ▸ absorbs_nil _
    have hasks := not_asks_of hn (.inl rfl)
    have hsum : forms d.down + shows d.cl = 0 := by
      rw [hd, shows_nothing hn]
      rfl
    obtain ⟨rfl, hrest⟩ : msg = msg' ∧ (up = [] ∧ d.cl.cancelling = false ∨
        up = [[msgIaCancel]] ∧ d.cl.cancelling = true) := by
      rw [hup] at hu
      rcases hu with ⟨hu, hc⟩ | ⟨hu, hc⟩
      · obtain ⟨h1, h2⟩ := List.cons.inj hu
        exact ⟨h1, .inl ⟨h2, hc⟩⟩
      · obtain ⟨h1, h2⟩ := List.cons.inj hu
        exact ⟨h1, .inr ⟨h2, hc⟩⟩
    obtain ⟨r, he, hcase⟩ := @feed_begin P env d.sv msg hs hp hsend hg hi hm d.waiting
    rcases hcase with hends | ⟨hst, m, hm0, hspoke⟩
    · refine ⟨r, he, hends.stands, @inStep_ends { d with up } d.sv r hends (hends.stands.greeted hg) habs
        hasks ?_⟩
      rcases hrest with ⟨hu', -⟩ | ⟨hu', -⟩
      · exact .inl hu'
      · exact .inr ⟨_, _, forMethod_cancel, hu'⟩
    · refine ⟨r, he, hspoke.stands.after ⟨rfl, rfl, rfl, id⟩,
        @inStep_spoke { d with up } _ r hspoke hm0 hg (hstart hst) habs hasks hr ?_⟩
      rcases hrest with ⟨hu', hc⟩ | ⟨hu', hc⟩
      · exact .inl ⟨hu', hc, hsum⟩
      · exact .inr ⟨hu', hc, hn⟩
  | runs hi hg hsub h hn hr hu =>
    cases hu with
    | clear hu hc hw =>
      rw [hup] at hu
      cases hu
    | submit hm hu hc hw hf =>
      rw [hup] at hu
      obtain ⟨rfl, rfl⟩ := List.cons.inj hu
      obtain ⟨r, he, hspoke⟩ :=
        @feed_submit P env d.sv msg hs hp hsend hsub cap hbuf hcap hi hm d.waiting
      exact ⟨r, he, hspoke.stands, @inStep_spoke { d with up := [] } _ r hspoke hi hg hsub h hn hr
        (.inl ⟨rfl, hc, hf⟩)⟩
    | cancel hu hc hneed =>
      rw [hup] at hu
      obtain ⟨rfl, rfl⟩ := List.cons.inj hu
      obtain ⟨r, he, hends⟩ := @feed_cancel P env d.sv hs hp hsend hi
      exact ⟨r, he, hends.stands, @inStep_ends { d with up := [] } d.sv r hends
        (hends.stands.greeted hg) h hn (.inl rfl)⟩
    | both hm hu hc hneed hw =>
      rw [hup] at hu
      obtain ⟨rfl, rfl⟩ := List.cons.inj hu
      obtain ⟨r, he, hspoke⟩ :=
        @feed_submit P env d.sv msg hs hp hsend hsub cap hbuf hcap hi hm d.waiting
      exact ⟨r, he, hspoke.stands, @inStep_spoke { d with up := [[msgIaCancel]] } _ r hspoke hi hg hsub
        h hn hr (.inr ⟨rfl, hc, hneed⟩)⟩
  | answers hi hg hu h hm hd hn =>
    rw [hup] at hu
    cases hu
  | late hi hm hu =>
    rw [hup] at hu
    obtain ⟨rfl, rfl⟩ := List.cons.inj hu
    exact absurd hi (ht hm)

/-- **A method is resumed.** -/
theorem Phase.resume (h : Phase d) (hi : d.sv.iaMethod ≠ 0) (hsend : d.sv.cbs.send = true) (env : Env)
    {what : Verdict} (hw : d.waiting = true ∨ what = .denied) (form : Option Form)
    (token : Option (List UInt8)) :
    Stands d.sv (verdict env d.sv what form token).1 ∧
      InStep (d.served (verdict env d.sv what form token)) := by
  cases h with
  | runs hi hg hsub h hn hr hu =>
    by_cases hden : what = .denied
    · subst hden
      have hends := ends_denied hsend env form token
      refine ⟨hends.stands, inStep_ends hends (hends.stands.greeted hg) h hn ?_⟩
      cases hu with
      | clear hu hc hw => exact .inl hu
      | submit hm hu hc hw hf => exact .inr ⟨_, _, forMethod_submit hm, hu⟩
      | cancel hu hc hneed => exact .inr ⟨_, _, forMethod_cancel, hu⟩
      | both hm hu hc hneed hw => exact .inr ⟨_, _, forMethod_submit hm, hu⟩
    · have hwait := hw.resolve_right hden
      have hspoke := @verdict_spoke d.sv d.waiting hsend env what form token
      refine ⟨hspoke.stands, inStep_spoke hspoke hi hg hsub h hn hr ?_⟩
      cases hu with
      | clear hu hc hw => exact .inl ⟨hu, hc, hw hwait⟩
      | submit hm hu hc hw hf =>
        rw [hw] at hwait
        cases hwait
      | cancel hu hc hneed => exact .inr ⟨hu, hc, hneed⟩
      | both hm hu hc hneed hw =>
        rw [hw] at hwait
        cases hwait
  | idle hi' => exact absurd hi' hi
  | greets hi' => exact absurd hi' hi
  | proves hi' => exact absurd hi' hi
  | opens hi' => exact absurd hi' hi
  | answers hi' => exact absurd hi' hi
  | late hi' => exact absurd hi' hi

/-! ## Whole runs -/

instance (msg : List UInt8) : Decidable (ForMethod msg) := inferInstanceAs (Decidable (_ ∨ _))

/-- A message for a method finds it running. -/
def Timely (d : Dialogue) : Event → Prop
  | .toServer _ => ∀ msg ∈ d.up.head?, d.sv.state = .pending → ForMethod msg → d.sv.iaMethod ≠ 0
  | _ => True

instance (d : Dialogue) : ∀ e, Decidable (Timely d e)
  | .toServer _ => inferInstanceAs (Decidable (∀ msg ∈ d.up.head?, _))
  | .toClient => .isTrue trivial
  | .call _ => .isTrue trivial
  | .resume _ _ _ _ => .isTrue trivial

/-- The client did something, and kept what no call changes. -/
theorem Meets.asked (h : Meets d) {down : List (List UInt8)} {r : NcAuth × List Act}
    (hk : Kept d.cl r.1) (hl : Listens r.1 down) (hp : Phase d → Phase ({ d with down }.asked r)) :
    Meets ({ d with down }.asked r) := by
  obtain ⟨cap, hcap, hbuf⟩ := h.clientRoom
  exact ⟨⟨hk.server.trans h.client.1, (congrArg Callbacks.send hk.cbs).trans h.client.2⟩,
    ⟨cap, hcap, hk.buf.trans hbuf⟩, h.server, h.serverRoom, hl, fun hs => hp (h.phase hs)⟩

/-- The server did something, and the two sides are in step. -/
theorem Meets.served (h : Meets d) {up : List (List UInt8)} {r : NcAuth × List Act}
    (hst : Stands d.sv r.1) (hstep : InStep ({ d with up }.served r)) :
    Meets ({ d with up }.served r) := by
  obtain ⟨cap, hcap, hbuf⟩ := h.serverRoom
  obtain ⟨h1, h2, h3⟩ := h.server
  refine ⟨h.client, h.clientRoom, ⟨hst.server.trans h1, (congrArg Callbacks.send hst.cbs).trans h2, ?_⟩,
    ⟨cap, hcap, hst.buf.trans hbuf⟩, hstep.1, fun _ => hstep.2⟩
  change r.1.cbs.start = true → r.1.cbs.submit = true
  rw [hst.cbs]
  exact h3

/-- A server that did nothing: a message that it does not take is gone. -/
theorem Meets.ignored (h : Meets d) {up : List (List UInt8)} (hp : d.sv.state ≠ .pending) :
    Meets ({ d with up }.served (d.sv, [])) := by
  have hdown : ({ d with up }.served (d.sv, [])).down = d.down := List.append_nil _
  refine ⟨h.client, h.clientRoom, h.server, h.serverRoom, ?_, fun hs => absurd hs hp⟩
  rw [hdown]
  exact h.listens

/-- **Every event keeps the two sides in step.** -/
theorem Meets.step (h : Meets d) {e : Event} (ha : Allowed d e) (ht : Timely d e) :
    Meets (e.apply P d) := by
  cases e with
  | call c =>
    have hc : ∀ msg, c ≠ .feed msg := by
      intro msg hc
      subst hc
      exact ha
    have hsaid : Said d.cl (c.exec P d.cl) := call_said h.client.2 hc
    exact h.asked (c.kept h.client.1) (h.listens.call hsaid) fun hp => hp.call hsaid
  | toClient =>
    obtain ⟨cap, hcap, hbuf⟩ := h.clientRoom
    simp only [Event.apply]
    split
    · exact h
    rename_i msg down hd
    refine h.asked (ClientCall.kept h.client.1 (.feed msg)) ?_ fun hp =>
      hp.toClient hd h.client.1 h.client.2 hbuf hcap
    have hl : Listens d.cl (msg :: down) := hd ▸ h.listens
    by_cases hp : d.cl.state = .pending
    · exact (hl.deliver h.client.1 hp h.client.2 hbuf hcap).2
    · rw [feed_over hp]
      exact hl.tail
  | toServer env =>
    obtain ⟨cap, hcap, hbuf⟩ := h.serverRoom
    obtain ⟨hs, hsend, hstart⟩ := h.server
    simp only [Event.apply]
    split
    · exact h
    rename_i msg up hup
    by_cases hp : d.sv.state = .pending
    · have htime : ForMethod msg → d.sv.iaMethod ≠ 0 := by
        refine ht msg ?_ hp
        rw [hup]
        rfl
      obtain ⟨r, he, hst, hstep⟩ :=
        (h.phase hp).toServer (P := P) hup hp hs hsend hstart hbuf hcap htime env
      rw [he]
      exact h.served hst hstep
    · rw [feed_over hp]
      exact h.ignored hp
  | resume env what form token =>
    simp only [Event.apply, ncAuthServerResume]
    split
    · rename_i hno
      by_cases hp : d.sv.state = .pending
      · have hsame : d.served (d.sv, []) = d := by
          rw [Dialogue.served]
          exact congrArg (Dialogue.mk d.cl d.sv d.up · d.waiting) (List.append_nil _)
        rw [hsame]
        exact h
      · exact @Meets.ignored d h d.up hp
    · rename_i hno
      obtain ⟨-, hi, hp⟩ : ¬ (!d.sv.server) = true ∧ d.sv.iaMethod ≠ 0 ∧ d.sv.state = .pending := by
        simpa only [not_or, ne_eq, not_not] using hno
      obtain ⟨hst, hstep⟩ := (h.phase hp).resume hi h.server.2.1 env ha form token
      exact @Meets.served d h d.up _ hst hstep

/-- A side that goes on takes the message that is delivered to it. -/
def Accepts (P : Monocypher) (d : Dialogue) : Event → Prop
  | .toServer env => ∀ msg ∈ d.up.head?, d.sv.state = .pending → (ncAuthFeed P env d.sv msg).1 = true
  | .toClient => ∀ msg ∈ d.down.head?, d.cl.state = .pending → (ncAuthFeed P noEnv d.cl msg).1 = true
  | _ => True

instance (P : Monocypher) (d : Dialogue) : ∀ e, Decidable (Accepts P d e)
  | .toServer _ => inferInstanceAs (Decidable (∀ msg ∈ d.up.head?, _))
  | .toClient => inferInstanceAs (Decidable (∀ msg ∈ d.down.head?, _))
  | .call _ => .isTrue trivial
  | .resume _ _ _ _ => .isTrue trivial

/-- **One delivery**: the client takes every message, the server every one that is not late. -/
theorem Meets.accepts_iff (h : Meets d) (e : Event) : Accepts P d e ↔ Timely d e := by
  cases e with
  | call c => exact Iff.rfl
  | resume env what form token => exact Iff.rfl
  | toClient =>
    refine iff_of_true (fun msg hmsg hp => ?_) trivial
    obtain ⟨cap, hcap, hbuf⟩ := h.clientRoom
    obtain ⟨down, hd⟩ := List.head?_eq_some_iff.1 hmsg
    have hl : Listens d.cl (msg :: down) := hd ▸ h.listens
    exact (hl.deliver h.client.1 hp h.client.2 hbuf hcap).1
  | toServer env =>
    obtain ⟨cap, hcap, hbuf⟩ := h.serverRoom
    obtain ⟨hs, hsend, hstart⟩ := h.server
    refine forall₂_congr fun msg hmsg => forall_congr' fun hp => ?_
    obtain ⟨up, hup⟩ := List.head?_eq_some_iff.1 hmsg
    constructor
    · intro htrue hm hi
      have hlate := @feed_late P env d.sv msg hs hi hm
      rw [htrue] at hlate
      cases hlate
    · intro ht
      obtain ⟨r, he, -⟩ := (h.phase hp).toServer (P := P) hup hp hs hsend hstart hbuf hcap ht env
      rw [he]

end

theorem meets_introduce {sid sid' : Key} {user : CStr} {cap cap' : Nat} {cbs : Callbacks}
    (hcap : Ample cap) (hcap' : Ample cap') (hcbs : cbs.start = true → cbs.submit = true) :
    Meets (introduce sid sid' user cap cap' cbs) := by
  refine ⟨⟨rfl, rfl⟩, ⟨cap, hcap, rfl⟩, ⟨rfl, rfl, hcbs⟩, ⟨cap', hcap', rfl⟩,
    .notices (absorbs_nil _), fun _ => ?_⟩
  exact .greets rfl rfl (helloMsg_name (List.length_take_le ncAuthMaxUser user.val)) rfl rfl rfl rfl

/-- **Two honest parties never kill each other's login**, exactly as long as no message for a method
reaches the server after the method. -/
theorem honest_login {P : Monocypher} {sid sid' : Key} {user : CStr} {cap cap' : Nat} {cbs : Callbacks}
    {es : List Event} (hcap : Ample cap) (hcap' : Ample cap')
    (hcbs : cbs.start = true → cbs.submit = true)
    (hes : Along (Event.apply P) Allowed (introduce sid sid' user cap cap' cbs) es) :
    Along (Event.apply P) (Accepts P) (introduce sid sid' user cap cap' cbs) es ↔
      Along (Event.apply P) Timely (introduce sid sid' user cap cap' cbs) es :=
  along_congr (I := Meets) (fun _ e h _ => h.accepts_iff e) (fun _ _ h ha ht => h.step ha ht)
    (meets_introduce hcap hcap' hcbs) hes

/-- bob meets an application with a form to fill in. -/
def meeting : Dialogue :=
  introduce (.zero 32) (.zero 32) ⟨chars ['b', 'o', 'b'], zero_notMem_bob⟩ 36000 36000
    registerCallbacks

/-- An application that offers registration, and then takes nobody. -/
def closedEnv : Env :=
  { sampleEnv with methods := fun _ => mRegister ||| mPassword, start := fun _ => { what := .denied } }

/-- bob cancels while the form is on its way to him: it is dropped, and the methods are offered again. -/
theorem honest_login_sample :
    let es := [Event.toServer registerEnv, .toClient, .call (.supplyMethod mRegister),
      .toServer registerEnv, .call .cancel, .toClient, .toServer registerEnv, .toClient]
    let d := run (Event.apply sampleMonocypher) meeting es
    Along (Event.apply sampleMonocypher) (Accepts sampleMonocypher) meeting es ∧
      d.cl.state = .pending ∧ d.cl.need = .method ∧ d.sv.state = .pending := by
  intro es d
  have h := @honest_login sampleMonocypher (.zero 32) (.zero 32) ⟨chars ['b', 'o', 'b'], by decide⟩
    36000 36000 registerCallbacks es (ample_of_le (Nat.le_refl _)) (ample_of_le (Nat.le_refl _))
    (fun _ => rfl) (by decide +kernel)
  exact ⟨h.2 (by decide +kernel), by decide +kernel⟩

/-- bob cancels while the server refuses: the cancel finds no method, and ends the conversation, although
the password is still on offer. -/
theorem crossed_cancel :
    let es := [Event.toServer closedEnv, .toClient, .call (.supplyMethod mRegister), .call .cancel,
      .toServer closedEnv]
    let d := run (Event.apply sampleMonocypher) meeting es
    Ample 36000 ∧ Along (Event.apply sampleMonocypher) Allowed meeting (es ++ [.toServer closedEnv]) ∧
      d.sv.state = .pending ∧ d.sv.avail = mPassword ∧
      ¬ Accepts sampleMonocypher d (.toServer closedEnv) ∧
      ((Event.toServer closedEnv).apply sampleMonocypher d).sv.state = .denied := by
  refine ⟨ample_of_le (Nat.le_refl _), ?_⟩
  decide +kernel

end Netchan.Auth
