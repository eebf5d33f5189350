import Netchan.Auth.Login

/-!
# When the application is told to clean up

`Phases b acts b'`: the acts of a conversation whose method runs before them if `b` and after them if
`b'`. `call_phases` says that every call is such a step, and so is a whole run; what the trace of a
conversation says about `cancelled` is read off it in `cleanup_once`.
-/

namespace Netchan.Auth

open Lib Idl Crypto

/-! ## Traces -/

/-- Neither the start of a method, nor its end, nor a verdict. -/
def Act.isAside : Act → Bool
  | .begun _ => false
  | .verdict _ _ => false
  | .cancelled => false
  | _ => true

/-- One act, by whether a method runs before and after it. -/
inductive Moves : Bool → Act → Bool → Prop
  | aside {b : Bool} {x : Act} (hx : x.isAside = true) : Moves b x b
  | begun (m : UInt32) : Moves false (.begun m) true
  | stays (m : UInt32) {what : Verdict} (hw : what = .more ∨ what = .wait) :
      Moves true (.verdict m what) true
  | ends (m : UInt32) (what : Verdict) : Moves true (.verdict m what) false
  | cancelled : Moves true .cancelled false

/-- The acts of a conversation, by whether a method runs before and after them. A method may also end
without an act, if the application set no callback for it. -/
inductive Phases : Bool → List Act → Bool → Prop
  | nil (b : Bool) : Phases b [] b
  | cons {b b1 b' : Bool} {x : Act} {l : List Act} (hx : Moves b x b1) (h : Phases b1 l b') :
      Phases b (x :: l) b'
  | silent {b' : Bool} {l : List Act} (h : Phases false l b') : Phases true l b'

/-- No method is started. -/
def NoStart (l : List Act) : Prop := ∀ m, .begun m ∉ l

section
variable {b b' b'' : Bool} {l l' : List Act}

theorem Phases.append (h : Phases b l b') (h' : Phases b' l' b'') : Phases b (l ++ l') b'' := by
  induction h with
  | nil b => exact h'
  | cons hx h ih => exact .cons hx (ih h')
  | silent h ih => exact .silent (ih h')

theorem Phases.split (h : Phases b (l ++ l') b'') : ∃ b', Phases b l b' ∧ Phases b' l' b'' := by
  generalize he : l ++ l' = k at h
  induction h generalizing l with
  | nil b =>
    obtain ⟨rfl, rfl⟩ := List.append_eq_nil_iff.1 he
    exact ⟨b, .nil b, .nil b⟩
  | cons hx h ih =>
    cases l with
    | nil =>
      subst he
      exact ⟨_, .nil _, .cons hx h⟩
    | cons y l =>
      obtain ⟨rfl, hl⟩ := List.cons.inj he
      obtain ⟨c, h1, h2⟩ := ih hl
      exact ⟨c, .cons hx h1, h2⟩
  | silent h ih =>
    obtain ⟨c, h1, h2⟩ := ih he
    exact ⟨c, .silent h1, h2⟩

theorem NoStart.tail {x : Act} (h : NoStart (x :: l)) : NoStart l := fun m hm => h m (.tail _ hm)

/-- Where no method runs and none is started, nobody is told and nothing is judged. -/
theorem Phases.idle (h : Phases false l b') (hl : NoStart l) :
    .cancelled ∉ l ∧ ∀ m what, .verdict m what ∉ l := by
  generalize hb : false = b at h
  induction h with
  | nil b => exact ⟨nofun, nofun⟩
  | cons hx h ih =>
    cases hx with
    | aside hx =>
      obtain ⟨h1, h2⟩ := ih hl.tail hb
      refine ⟨fun hm => ?_, fun m what hm => ?_⟩
      · rcases List.mem_cons.1 hm with rfl | hm
        · cases hx
        · exact h1 hm
      · rcases List.mem_cons.1 hm with rfl | hm
        · cases hx
        · exact h2 m what hm
    | begun m => exact absurd (.head _) (hl m)
    | stays m hw => cases hb
    | ends m what => cases hb
    | cancelled => cases hb
  | silent h ih => cases hb

/-- Between two starts the application is told at most once. -/
theorem Phases.once (h : Phases b l b') (hl : NoStart l) : l.count .cancelled ≤ 1 := by
  induction h with
  | nil b => exact Nat.zero_le 1
  | cons hx h ih =>
    cases hx with
    | aside hx =>
      rw [List.count_cons_of_ne (by rintro rfl; cases hx)]
      exact ih hl.tail
    | begun m => exact absurd (.head _) (hl m)
    | stays m hw =>
      rw [List.count_cons_of_ne (show Act.verdict m _ ≠ .cancelled by simp)]
      exact ih hl.tail
    | ends m what =>
      rw [List.count_cons_of_ne (show Act.verdict m what ≠ .cancelled by simp)]
      exact ih hl.tail
    | cancelled =>
      rw [List.count_cons_self, List.count_eq_zero.2 (h.idle hl.tail).1]
  | silent h ih => exact ih hl

/-- A method that was judged done or denied ends without the application being told. -/
theorem Phases.judged (h : Phases b l b') (hl : NoStart l) {m : UInt32} {what : Verdict}
    (hw : what = .done ∨ what = .denied) (hv : .verdict m what ∈ l) : .cancelled ∉ l := by
  induction h with
  | nil b => exact nofun
  | cons hx h ih =>
    cases hx with
    | aside hx =>
      rcases List.mem_cons.1 hv with rfl | hv
      · cases hx
      · intro hm
        rcases List.mem_cons.1 hm with rfl | hm
        · cases hx
        · exact ih hl.tail hv hm
    | begun m => exact absurd (.head _) (hl m)
    | stays m' hw' =>
      rcases List.mem_cons.1 hv with hv | hv
      · obtain ⟨-, rfl⟩ := Act.verdict.inj hv
        rcases hw with rfl | rfl
        · exact absurd hw' (by decide)
        · exact absurd hw' (by decide)
      · intro hm
        rcases List.mem_cons.1 hm with hm | hm
        · cases hm
        · exact ih hl.tail hv hm
    | ends m' what' =>
      intro hm
      rcases List.mem_cons.1 hm with hm | hm
      · cases hm
      · exact (h.idle hl.tail).1 hm
    | cancelled =>
      rcases List.mem_cons.1 hv with hv | hv
      · cases hv
      · exact absurd hv ((h.idle hl.tail).2 m what)
  | silent h ih => exact ih hl hv

theorem Phases.asides (hl : ∀ x ∈ l, x.isAside = true) (b : Bool) : Phases b l b := by
  induction l with
  | nil => exact .nil b
  | cons x l ih => exact .cons (.aside (hl x (.head _))) (ih fun y hy => hl y (.tail _ hy))

end

/-! ## Calls -/

section
variable {P : Monocypher} {a : NcAuth} {c : ServerCall}

theorem Plain.phases {q : List Act} (h : Plain q) (b : Bool) : Phases b q b := by
  refine .asides (fun x hx => ?_) b
  have := h x hx
  cases x with
  | begun m => cases this
  | verdict m what => cases this
  | cancelled => cases this
  | emit msg => rfl
  | methods user mask => rfl
  | checkSig digest pk ok => rfl
  | checkKey user pk ok => rfl
  | checkPassword user pass ok => rfl
  | start method => rfl
  | submit => rfl
  | resume tok => rfl

theorem OneCheck.phases {g : List Act} (h : OneCheck g) (b : Bool) : Phases b g b := by
  refine .asides (fun x hx => ?_) b
  have := h.1 x hx
  cases x with
  | begun m => cases this
  | verdict m what => cases this
  | cancelled => cases this
  | emit msg => rfl
  | methods user mask => rfl
  | checkSig digest pk ok => rfl
  | checkKey user pk ok => rfl
  | checkPassword user pass ok => rfl
  | start method => rfl
  | submit => rfl
  | resume tok => rfl

theorem phases_cancelled (b : Bool) {q : List Act} (hq : Plain q) :
    Phases true ((if b then [.cancelled] else []) ++ q) false := by
  cases b with
  | false => exact .silent (hq.phases false)
  | true => exact .cons .cancelled (hq.phases false)

theorem Judged.phases {what : Verdict} {form : Option Form} {v : NcAuth × List Act}
    (h : Judged a what form v) (hi : a.iaMethod ≠ 0) :
    Phases true v.2 (decide (v.1.iaMethod ≠ 0)) := by
  cases h with
  | runs hq hw =>
    rw [decide_eq_true hi]
    exact .cons (.stays _ hw) (hq.phases true)
  | offers hq hw hm hst => exact .cons (.ends _ _) (hq.phases false)
  | succeeds hq hw hm => exact .cons (.ends _ _) (hq.phases false)
  | refuses hq hw hst hc =>
    rcases hc with rfl | ⟨hw, -, rfl⟩
    · exact .cons (.ends _ _) (hq.phases false)
    · exact .cons (.stays _ (.inl hw)) (.cons .cancelled (hq.phases false))

/-- **A call is a step of the phases**: a method runs if `ia_method` is set. -/
theorem call_phases (ha : Serving a) (hc : c ≠ .clear) :
    Phases (decide (a.iaMethod ≠ 0)) (c.acts P a) (decide ((c.apply P a).iaMethod ≠ 0)) := by
  have hdid := call_cases (P := P) ha hc
  rw [ServerCall.apply, ServerCall.acts]
  generalize c.exec P a = r at hdid
  cases hdid with
  | idle => exact .nil _
  | error hp => exact .nil _
  | hello hp hg hc ht hok hlen hu hst hq => exact hq.phases _
  | refused hp hg hst hone hq => exact (hone.phases _).append (hq.phases _)
  | login hp hg hone hq hproves => exact (hone.phases _).append (hq.phases _)
  | orphan hp hg hi hav hst hq =>
    rw [decide_eq_false (not_not.2 hi)]
    exact .cons (.begun _) (phases_cancelled _ hq)
  | began hp hg hi hm hav hcb hv =>
    rw [decide_eq_false (not_not.2 hi)]
    refine .cons (.begun _) (.cons (.aside ?_) (hv.phases (method_ne_zero hm)))
    rcases hcb with rfl | ⟨t, rfl⟩
    · rfl
    · rfl
  | submitted hp hi hv =>
    rw [decide_eq_true hi]
    exact .cons (.aside rfl) (hv.phases hi)
  | resumed hp hi hc hv =>
    rw [decide_eq_true hi]
    exact hv.phases hi
  | cancelled hp hi hc hst hq =>
    rw [decide_eq_true hi]
    exact phases_cancelled _ hq

/-- A conversation after `nc_auth_clear`. -/
structure Cleared (a : NcAuth) : Prop where
  client : a.server = false
  deaf : a.cbs = {}
  idle : a.iaMethod = 0
  unchosen : a.chose = false

theorem cleared_clear (a : NcAuth) : Cleared (ncAuthClear a).1 := ⟨rfl, rfl, rfl, rfl⟩

theorem Cleared.tryNext (h : Cleared a) : Cleared (clientTryNext a).1 ∧ (clientTryNext a).2 = [] := by
  unfold clientTryNext
  split
  · exact ⟨h, rfl⟩
  split
  · rw [if_neg (by rw [h.unchosen]; decide)]
    exact ⟨⟨h.client, h.deaf, h.idle, h.unchosen⟩, rfl⟩
  · refine ⟨?_, rfl⟩
    unfold tryCredentials
    split
    · exact ⟨h.client, h.deaf, h.idle, h.unchosen⟩
    split
    · exact ⟨h.client, h.deaf, h.idle, h.unchosen⟩
    · exact ⟨h.client, h.deaf, h.idle, h.unchosen⟩

theorem Cleared.clientFeed (h : Cleared a) {msg : List UInt8} {r : NcAuth × List Act}
    (hr : Auth.clientFeed a msg = some r) : Cleared r.1 ∧ r.2 = [] := by
  unfold Auth.clientFeed at hr
  split at hr
  · split at hr
    · cases hr
    dsimp only at hr
    split at hr
    · cases hr
      exact ⟨⟨h.client, h.deaf, rfl, h.unchosen⟩, rfl⟩
    · cases hr
      exact Cleared.tryNext ⟨h.client, h.deaf, rfl, h.unchosen⟩
  split at hr
  · cases hr
    exact ⟨⟨h.client, h.deaf, h.idle, h.unchosen⟩, rfl⟩
  split at hr
  · split at hr
    · cases hr
    · cases hr
      exact Cleared.tryNext ⟨h.client, h.deaf, rfl, h.unchosen⟩
  -- forms and waits are for a method that runs
  unfold iaClient at hr
  split at hr
  · split at hr
    · cases hr
      exact ⟨h, rfl⟩
    · rw [if_pos h.idle] at hr
      cases hr
  split at hr
  · split at hr
    · cases hr
      exact ⟨h, rfl⟩
    · rw [if_pos h.idle] at hr
      cases hr
  · cases hr

/-- After `nc_auth_clear` no call does anything to the outside. -/
theorem Cleared.step (h : Cleared a) (c : ServerCall) : Cleared (c.apply P a) ∧ c.acts P a = [] := by
  cases c with
  | feed env msg =>
    simp only [ServerCall.apply, ServerCall.acts, ServerCall.exec, ncAuthFeed]
    split
    · exact ⟨h, rfl⟩
    generalize (if msgIsBulk (byte msg 0) = true then ncFormMaxMsg else ncAuthMaxMsg) = cap
    split
    · exact ⟨h, rfl⟩
    rw [if_neg (by rw [h.client]; decide)]
    cases hr : Auth.clientFeed a msg with
    | none => exact ⟨⟨h.client, h.deaf, h.idle, h.unchosen⟩, rfl⟩
    | some r => exact h.clientFeed hr
  | issue tok =>
    obtain ⟨tok', he⟩ := serverToken_spec a tok
    refine ⟨?_, rfl⟩
    simp only [ServerCall.apply, ServerCall.exec, he]
    exact ⟨h.client, h.deaf, h.idle, h.unchosen⟩
  | resume env what form token =>
    have hc : (!a.server) = true := by rw [h.client]; rfl
    have he : ncAuthServerResume env a what form token = (a, []) := if_pos (.inl hc)
    simp only [ServerCall.apply, ServerCall.acts, ServerCall.exec, he, and_true]
    exact h
  | clear =>
    have hend : iaEnd a = ({ a with iaMethod := 0 }, []) :=
      if_neg fun hc => absurd hc.1 (by rw [h.client]; decide)
    exact ⟨cleared_clear a, by simp only [ServerCall.acts, ServerCall.exec, ncAuthClear, hend]⟩

theorem Cleared.trace (h : Cleared a) (cs : List ServerCall) : Auth.trace P a cs = [] := by
  induction cs generalizing a with
  | nil => rfl
  | cons c cs ih =>
    obtain ⟨h1, h2⟩ := h.step (P := P) c
    rw [Auth.trace, h2, ih h1, List.nil_append]

/-! ## Runs -/

/-- A server conversation, before or after `nc_auth_clear`. -/
def Known (cbs : Callbacks) (a : NcAuth) : Prop := Serving a ∧ a.cbs = cbs ∨ Cleared a

theorem clear_acts (ha : Serving a) : (ServerCall.clear).acts P a =
    if a.iaMethod ≠ 0 ∧ a.cbs.cancelled = true then [.cancelled] else [] := by
  simp only [ServerCall.acts, ServerCall.exec, ncAuthClear]
  by_cases hi : a.iaMethod = 0
  · rw [if_neg (by simp [hi]), iaEnd, if_neg (by simp [hi])]
  · rw [iaEnd_fires ha.server hi (ha.unfired hi)]
    simp [hi]

theorem clear_phases (ha : Serving a) :
    Phases (decide (a.iaMethod ≠ 0)) (ServerCall.acts P a .clear) false := by
  rw [clear_acts ha]
  by_cases hi : a.iaMethod = 0
  · rw [decide_eq_false (not_not.2 hi), if_neg fun h => h.1 hi]
    exact .nil _
  · rw [decide_eq_true hi]
    split
    · exact .cons .cancelled (.nil _)
    · exact .silent (.nil _)

theorem Known.step {cbs : Callbacks} (h : Known cbs a) (c : ServerCall) :
    Known cbs (c.apply P a) ∧
      Phases (decide (a.iaMethod ≠ 0)) (c.acts P a) (decide ((c.apply P a).iaMethod ≠ 0)) := by
  rcases h with ⟨ha, hcbs⟩ | h
  · by_cases hc : c = .clear
    · subst hc
      exact ⟨.inr (cleared_clear a), clear_phases ha⟩
    · exact ⟨.inl ⟨ha.step hc, ((call_cases (P := P) ha hc).frame.2.1).trans hcbs⟩, call_phases ha hc⟩
  · obtain ⟨h1, h2⟩ := h.step (P := P) c
    refine ⟨.inr h1, ?_⟩
    rw [h2, h.idle, h1.idle]
    exact .nil _

theorem Known.run {cbs : Callbacks} (h : Known cbs a) (cs : List ServerCall) :
    Known cbs (run (ServerCall.apply P) a cs) ∧ Phases (decide (a.iaMethod ≠ 0)) (Auth.trace P a cs)
      (decide ((Lib.run (ServerCall.apply P) a cs).iaMethod ≠ 0)) := by
  induction cs generalizing a with
  | nil => exact ⟨h, .nil _⟩
  | cons c cs ih =>
    obtain ⟨h1, h2⟩ := h.step (P := P) c
    obtain ⟨h3, h4⟩ := ih h1
    exact ⟨h3, h2.append h4⟩

theorem Plain.cancelled {q : List Act} (h : Plain q) : q.count .cancelled = 0 :=
  List.count_eq_zero.2 fun hm => absurd (h _ hm) (by decide)

/-- **Where the application is told**: while a method runs, or by a start that the application cannot
resume. -/
theorem cancelled_running {cbs : Callbacks} (h : Known cbs a) (hm : .cancelled ∈ c.acts P a) :
    a.iaMethod ≠ 0 ∨ ∃ m q, c.acts P a = .begun m :: .cancelled :: q := by
  rcases h with ⟨ha, -⟩ | h
  · by_cases hi : a.iaMethod = 0
    · refine .inr ?_
      by_cases hc : c = .clear
      · subst hc
        rw [clear_acts ha, if_neg fun h => h.1 hi] at hm
        cases hm
      have hdid := call_cases (P := P) ha hc
      rw [ServerCall.acts] at hm ⊢
      generalize c.exec P a = r at hdid hm
      have hplain {q : List Act} (hq : Plain q) (hm : Act.cancelled ∈ q) : False :=
        absurd (hq _ hm) (by decide)
      have hverdict {m : UInt32} {what : Verdict} {q : List Act} (hq : Plain q)
          (hm : Act.cancelled ∈ .verdict m what :: q) : False := by
        rcases List.mem_cons.1 hm with hm | hm
        · cases hm
        · exact hplain hq hm
      have hcheck {g q : List Act} (hg : OneCheck g) (hq : Plain q) (hm : .cancelled ∈ g ++ q) :
          False :=
        (List.mem_append.1 hm).elim (fun hm => absurd (hg.1 _ hm) (by decide)) (hplain hq)
      cases hdid with
      | idle => cases hm
      | error hp => cases hm
      | hello hp hg hc ht hok hlen hu hst hq => exact (hplain hq hm).elim
      | refused hp hg hst hone hq => exact (hcheck hone hq hm).elim
      | login hp hg hone hq hproves => exact (hcheck hone hq hm).elim
      | orphan hp hg hi hav hst hq =>
        by_cases hcb : a.cbs.cancelled = true
        · rw [if_pos hcb]
          exact ⟨_, _, rfl⟩
        · rw [if_neg hcb] at hm
          rcases List.mem_cons.1 hm with hm | hm
          · cases hm
          · exact (hplain hq hm).elim
      | began hp hg hi hm' hav hcb hv =>
        rcases List.mem_cons.1 hm with hm | hm
        · cases hm
        rcases List.mem_cons.1 hm with hm | hm
        · rcases hcb with rfl | ⟨t, rfl⟩
          · cases hm
          · cases hm
        -- a callback hands over a form, so its verdict ends the method silently
        cases hv with
        | runs hq hw => exact (hverdict hq hm).elim
        | offers hq hw hm' hst => exact (hverdict hq hm).elim
        | succeeds hq hw hm' => exact (hverdict hq hm).elim
        | refuses hq hw hst hc =>
          rcases hc with rfl | ⟨-, hform, -⟩
          · exact (hverdict hq hm).elim
          · cases hform
      | submitted hp hi' hv => exact absurd hi hi'
      | resumed hp hi' hc hv => exact absurd hi hi'
      | cancelled hp hi' hc hst hq => exact absurd hi hi'
    · exact .inl hi
  · rw [(h.step c).2] at hm
    cases hm

/-- A cancel by the client, and `nc_auth_clear`, tell the application once. -/
theorem cancelled_count {cbs : Callbacks} (h : Known cbs a) (hcb : cbs.cancelled = true)
    (hi : a.iaMethod ≠ 0)
    (hc : c = .clear ∨ (∃ env, c = .feed env [msgIaCancel]) ∧ a.state = .pending) :
    (c.acts P a).count .cancelled = 1 := by
  obtain ⟨ha, hcbs⟩ := h.resolve_right fun h => hi h.idle
  rcases hc with rfl | ⟨⟨env, rfl⟩, hp⟩
  · rw [clear_acts ha, if_pos ⟨hi, hcbs ▸ hcb⟩]
    rfl
  · obtain ⟨avail, state, -, -, hq⟩ := serverOffer_spec env { a with fired := true, iaMethod := 0 }
    have hfeed : ncAuthFeed P env a [msgIaCancel] = (true, andThen (iaEnd a) (serverOffer env)) := by
      unfold ncAuthFeed
      rw [if_neg (by simp [hp]), if_neg (by decide), if_pos ha.server]
      simp +decide [serverFeed, iaServer, hi]
    simp only [ServerCall.acts, ServerCall.exec, hfeed]
    rw [iaEnd_fires ha.server hi (ha.unfired hi), andThen, List.count_append, hq.cancelled,
      if_pos (hcbs ▸ hcb)]
    rfl

end

/-- **Cleanup fires exactly when it should**, over any run of calls: the application is told only while
a method runs, at most once for each method that was started and not if it was judged done or denied,
once if the client cancels or the conversation is cleared meanwhile, and after `nc_auth_clear` no
callback is made any more. -/
theorem cleanup_once {P : Monocypher} {sid : Key} {cbs : Callbacks} {buf : Option Nat}
    (cs : List ServerCall) :
    let a0 := fresh sid cbs buf
    (∀ pre c suf, cs = pre ++ c :: suf → .cancelled ∈ c.acts P (run (ServerCall.apply P) a0 pre) →
      (run (ServerCall.apply P) a0 pre).iaMethod ≠ 0 ∨
        ∃ m q, c.acts P (run (ServerCall.apply P) a0 pre) = .begun m :: .cancelled :: q) ∧
    (∀ l l', trace P a0 cs = l ++ l' → NoStart l → .cancelled ∉ l) ∧
    (∀ l m seg l', trace P a0 cs = l ++ .begun m :: (seg ++ l') → NoStart seg →
      seg.count .cancelled ≤ 1 ∧
      ∀ m' what, (what = .done ∨ what = .denied) → .verdict m' what ∈ seg → .cancelled ∉ seg) ∧
    (cbs.cancelled = true → ∀ pre c suf, cs = pre ++ c :: suf →
      (run (ServerCall.apply P) a0 pre).iaMethod ≠ 0 →
      (c = .clear ∨ (∃ env, c = .feed env [msgIaCancel]) ∧
        (run (ServerCall.apply P) a0 pre).state = .pending) →
      (c.acts P (run (ServerCall.apply P) a0 pre)).count .cancelled = 1) ∧
    (∀ pre suf, cs = pre ++ .clear :: suf →
      trace P (run (ServerCall.apply P) a0 (pre ++ [.clear])) suf = []) := by
  intro a0
  have h0 : Known cbs a0 := .inl ⟨serving_fresh sid cbs buf, rfl⟩
  obtain ⟨-, hph⟩ := h0.run (P := P) cs
  refine ⟨fun pre c suf _ => cancelled_running (h0.run pre).1, fun l l' he hl => ?_,
    fun l m seg l' he hl => ?_, fun hcb pre c suf _ => cancelled_count (h0.run pre).1 hcb,
    fun pre suf _ => ?_⟩
  · rw [he] at hph
    obtain ⟨b, h1, -⟩ := hph.split
    exact (h1.idle hl).1
  · rw [he] at hph
    obtain ⟨b, -, h1⟩ := hph.split
    obtain ⟨b', -, h2⟩ := Phases.split (l := [.begun m]) h1
    obtain ⟨b'', h3, -⟩ := h2.split
    exact ⟨h3.once hl, fun m' what => h3.judged hl⟩
  · rw [run_concat]
    exact (cleared_clear _).trace suf

/-- An application that offers registration and asks one question. -/
def registerEnv : Env :=
  { sampleEnv with methods := fun _ => mRegister
                   start := fun _ => { what := .more, form := { fields := [{ type := some .text }] } } }

def registerCallbacks : Callbacks :=
  { sampleCallbacks with start := true, submit := true, cancelled := true }

theorem cleanup_once_sample :
    let a0 := fresh (.zero 32) registerCallbacks none
    let pre := [ServerCall.feed registerEnv bobHello,
      .feed registerEnv [msgIaBegin, fMethod <<< 3, 8]]
    let a := run (ServerCall.apply sampleMonocypher) a0 pre
    a.iaMethod = mRegister ∧
      ((ServerCall.feed registerEnv [msgIaCancel]).acts sampleMonocypher a).count .cancelled = 1 := by
  intro a0 pre a
  have hi : a.iaMethod = mRegister := by decide +kernel
  have h := @cleanup_once sampleMonocypher (.zero 32) registerCallbacks none
    (pre ++ [.feed registerEnv [msgIaCancel]])
  refine ⟨hi, h.2.2.2.1 rfl pre _ [] rfl (fun h0 => ?_) (.inr ⟨⟨_, rfl⟩, by decide +kernel⟩)⟩
  exact absurd (hi.symm.trans h0) (by decide)

end Netchan.Auth
