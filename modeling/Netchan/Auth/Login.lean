import Netchan.Auth.Server
import Netchan.Crypto.Keys

/-!
# Who gets in

* `login_sound`: a conversation ends in success only for the user that a HELLO named, by a good
  credential or by the interactive method.
* `guesses_bounded`: over a whole conversation at most `NC_AUTH_MAX_TRIES` credentials are checked.
-/

namespace Netchan.Auth

open Lib Idl Crypto

section
variable (P : Monocypher) (a0 : NcAuth)

/-- A HELLO that named `u` was accepted. -/
def Named (cs : List ServerCall) (u : CStr) : Prop :=
  ∃ pre env msg suf, cs = pre ++ .feed env msg :: suf ∧ byte msg 0 = msgHello ∧
    u = .ofBytes (msg.drop 2) ∧ (ncAuthFeed P env (run (ServerCall.apply P) a0 pre) msg).1 = true

/-- The call `c` started `method`, which was on offer. -/
def Starts (pre : List ServerCall) (c : ServerCall) (method : UInt32) : Prop :=
  .begun method ∈ c.acts P (run (ServerCall.apply P) a0 pre) ∧
    (run (ServerCall.apply P) a0 pre).avail &&& method ≠ 0

/-- `method` was started while it was on offer, and has been running since. -/
def Running (cs : List ServerCall) (method : UInt32) : Prop :=
  ∃ pre c suf, cs = pre ++ c :: suf ∧ Starts P a0 pre c method ∧
    ∀ mid, mid <+: suf → (run (ServerCall.apply P) a0 (pre ++ c :: mid)).iaMethod = method

/-- The interactive method was started while it was on offer, ran until the last call, and the last
call judged it done. -/
def InteractiveDone (cs : List ServerCall) (c : ServerCall) : Prop :=
  .verdict mInteractive .done ∈ c.acts P (run (ServerCall.apply P) a0 cs) ∧
    ∃ pre cb suf, cs ++ [c] = pre ++ cb :: suf ∧ Starts P a0 pre cb mInteractive ∧
      ∀ mid, mid <+: suf → mid ≠ suf →
        (run (ServerCall.apply P) a0 (pre ++ cb :: mid)).iaMethod = mInteractive

variable {P a0} {cs : List ServerCall} {c : ServerCall} {u : CStr} {method : UInt32}

theorem Named.concat (h : Named P a0 cs u) (c : ServerCall) : Named P a0 (cs ++ [c]) u := by
  obtain ⟨pre, env, msg, suf, rfl, h⟩ := h
  exact ⟨pre, env, msg, suf ++ [c], by simp, h⟩

theorem Running.concat (h : Running P a0 cs method)
    (hi : (run (ServerCall.apply P) a0 (cs ++ [c])).iaMethod = method) :
    Running P a0 (cs ++ [c]) method := by
  obtain ⟨pre, cb, suf, rfl, hs, hmid⟩ := h
  refine ⟨pre, cb, suf ++ [c], by simp, hs, fun mid hm => ?_⟩
  rcases List.prefix_concat_iff.1 hm with rfl | hm
  · simpa using hi
  · exact hmid mid hm

theorem Running.start (hs : Starts P a0 cs c method)
    (hi : (run (ServerCall.apply P) a0 (cs ++ [c])).iaMethod = method) :
    Running P a0 (cs ++ [c]) method := by
  refine ⟨cs, c, [], rfl, hs, fun mid hm => ?_⟩
  rw [List.prefix_nil.1 hm]
  exact hi

theorem Running.done (h : Running P a0 cs mInteractive)
    (hv : .verdict mInteractive .done ∈ c.acts P (run (ServerCall.apply P) a0 cs)) :
    InteractiveDone P a0 cs c := by
  obtain ⟨pre, cb, suf, rfl, hs, hmid⟩ := h
  refine ⟨hv, pre, cb, suf ++ [c], by simp, hs, fun mid hm hne => ?_⟩
  rcases List.prefix_concat_iff.1 hm with rfl | hm
  · exact absurd rfl hne
  · exact hmid mid hm

/-- What the calls so far say about a server conversation. -/
structure Past (P : Monocypher) (a0 : NcAuth) (cs : List ServerCall) (a : NcAuth) : Prop where
  serving : Serving a
  named : a.greeted = true → Named P a0 cs a.user
  running : a.iaMethod ≠ 0 → Running P a0 cs a.iaMethod

theorem Judged.past {a : NcAuth} {what : Verdict} {form : Option Form} {v : NcAuth × List Act}
    (hj : Judged a what form v) (ha : Serving a)
    (hn : a.greeted = true → Named P a0 cs a.user)
    (hr : v.1.iaMethod = a.iaMethod → Running P a0 (cs ++ [c]) a.iaMethod) :
    Past P a0 (cs ++ [c]) v.1 := by
  obtain ⟨-, hg, huser, -, -, he⟩ := hj.frame
  refine ⟨hj.serving ha, fun hgr => ?_, fun hi => ?_⟩
  · rw [huser]
    exact (hn (hg ▸ hgr)).concat c
  · rcases he with he | he
    · rw [he]
      exact hr (by rw [he])
    · exact absurd he hi

theorem past_step (h : Past P a0 cs (run (ServerCall.apply P) a0 cs)) (hc : c ≠ .clear) :
    Past P a0 (cs ++ [c]) (run (ServerCall.apply P) a0 (cs ++ [c])) := by
  have hconcat : run (ServerCall.apply P) a0 (cs ++ [c]) =
      (c.exec P (run (ServerCall.apply P) a0 cs)).1 := run_concat ..
  have hacts : c.acts P (run (ServerCall.apply P) a0 cs) =
      (c.exec P (run (ServerCall.apply P) a0 cs)).2 := rfl
  have hserving := h.serving.step (P := P) hc
  have hdid := call_cases (P := P) h.serving hc
  rw [ServerCall.apply, ← hconcat] at hserving
  generalize hr : c.exec P (run (ServerCall.apply P) a0 cs) = r at hdid hconcat hacts
  -- the calls that neither greet nor touch the method
  have hkeep (hg : r.1.greeted = (run (ServerCall.apply P) a0 cs).greeted)
      (hu : r.1.user = (run (ServerCall.apply P) a0 cs).user)
      (hi : r.1.iaMethod = (run (ServerCall.apply P) a0 cs).iaMethod) :
      Past P a0 (cs ++ [c]) (run (ServerCall.apply P) a0 (cs ++ [c])) := by
    refine ⟨hserving, ?_, ?_⟩
    · rw [hconcat, hg, hu]
      exact fun hgr => (h.named hgr).concat c
    · intro hne
      rw [hconcat, hi] at hne ⊢
      exact (h.running hne).concat (by rw [hconcat, hi])
  -- the calls that leave no method running
  have hend (hg : r.1.greeted = (run (ServerCall.apply P) a0 cs).greeted)
      (hu : r.1.user = (run (ServerCall.apply P) a0 cs).user) (hi : r.1.iaMethod = 0) :
      Past P a0 (cs ++ [c]) (run (ServerCall.apply P) a0 (cs ++ [c])) := by
    refine ⟨hserving, ?_, fun hne => absurd (by rw [hconcat, hi]) hne⟩
    rw [hconcat, hg, hu]
    exact fun hgr => (h.named hgr).concat c
  cases hdid with
  | idle => exact hkeep rfl rfl rfl
  | error hp => exact hkeep rfl rfl rfl
  | hello hp hg hc ht hok hlen hu hst hq =>
    refine ⟨hserving, fun _ => ?_, fun hne => ?_⟩
    · rw [hconcat]
      exact ⟨cs, _, _, [], by rw [hc], ht, rfl, hok⟩
    · rw [hconcat] at hne ⊢
      exact absurd (h.serving.greeted hne) (by rw [hg]; decide)
  | refused hp hg hst hone hq => exact hkeep rfl rfl rfl
  | login hp hg hone hq hproves => exact hkeep rfl rfl rfl
  | orphan hp hg hi hav hst hq => exact hend rfl rfl rfl
  | began hp hg hi hm hav hcb hv =>
    rw [hconcat]
    refine hv.past ⟨h.serving.server, fun _ => rfl, .inr hm, fun _ => hg⟩ h.named fun hi' => ?_
    exact .start ⟨by rw [hacts]; exact .head _, hav⟩ (by rw [hconcat]; exact hi')
  | submitted hp hi hv =>
    rw [hconcat]
    refine hv.past ⟨h.serving.server, h.serving.unfired, h.serving.method, h.serving.greeted⟩
      h.named fun hi' => ?_
    exact (h.running hi).concat (by rw [hconcat]; exact hi')
  | resumed hp hi hc hv =>
    rw [hconcat]
    exact hv.past h.serving h.named fun hi' =>
      (h.running hi).concat (by rw [hconcat]; exact hi')
  | cancelled hp hi hc hst hq => exact hend rfl rfl rfl

theorem past_run {sid : Key} {cbs : Callbacks} {buf : Option Nat}
    (hcs : ∀ c ∈ cs, c ≠ ServerCall.clear) :
    Past P (fresh sid cbs buf) cs (run (ServerCall.apply P) (fresh sid cbs buf) cs) := by
  induction cs using List.reverseRecOn with
  | nil => exact ⟨serving_fresh .., nofun, fun h => absurd rfl h⟩
  | append_singleton cs c ih =>
    exact past_step (ih fun d hd => hcs d (List.mem_append_left _ hd)) (hcs c (by simp))

/-- Of the verdicts only `done` leads to success, and not for a registration. -/
theorem Judged.ok {a : NcAuth} {what : Verdict} {form : Option Form} {v : NcAuth × List Act}
    (h : Judged a what form v) (hne : a.state ≠ .ok) (hok : v.1.state = .ok) :
    a.iaMethod ≠ mRegister ∧ .verdict a.iaMethod .done ∈ v.2 := by
  cases h with
  | runs hq hw => exact absurd hok hne
  | offers hq hw hm hst =>
    rcases hst with rfl | rfl
    · exact absurd hok hne
    · cases hok
  | succeeds hq hw hm =>
    rw [hw]
    exact ⟨hm, .head _⟩
  | refuses hq hw hst hc =>
    rcases hst with ⟨rfl, -⟩ | rfl
    · exact absurd hok hne
    · cases hok

/-- **The way into success**: from a conversation that goes on, by a good credential or by the
interactive method; a registration that is done does not lead there. -/
theorem ok_cases (h : Past P a0 cs (run (ServerCall.apply P) a0 cs)) (hc : c ≠ .clear)
    (hne : (run (ServerCall.apply P) a0 cs).state ≠ .ok)
    (hok : (c.apply P (run (ServerCall.apply P) a0 cs)).state = .ok) :
    (run (ServerCall.apply P) a0 cs).greeted = true ∧
      (Proves P (run (ServerCall.apply P) a0 cs) c ∨ InteractiveDone P a0 cs c) := by
  have hacts : c.acts P (run (ServerCall.apply P) a0 cs) =
      (c.exec P (run (ServerCall.apply P) a0 cs)).2 := rfl
  have hdid := call_cases (P := P) h.serving hc
  rw [ServerCall.apply] at hok
  generalize c.exec P (run (ServerCall.apply P) a0 cs) = r at hdid hok hacts
  have hcur {m : UInt32} (hm : m = 0 ∨ m = mRegister ∨ m = mInteractive) (h0 : m ≠ 0)
      (h1 : m ≠ mRegister) : m = mInteractive := (hm.resolve_left h0).resolve_left h1
  cases hdid with
  | idle => exact absurd hok hne
  | error hp => cases hok
  | hello hp hg hc ht hoks hlen hu hst hq =>
    rcases hst with rfl | rfl
    · cases hok
    · cases hok
  | refused hp hg hst hone hq =>
    rcases hst with ⟨rfl, -⟩ | rfl
    · cases hok
    · cases hok
  | login hp hg hone hq hproves => exact ⟨hg, .inl hproves⟩
  | orphan hp hg hi hav hst hq =>
    rcases hst with ⟨rfl, -⟩ | rfl
    · cases hok
    · cases hok
  | began hp hg hi hm hav hcb hv =>
    obtain ⟨hr, hd⟩ := hv.ok hne hok
    obtain rfl := hm.resolve_left hr
    refine ⟨hg, .inr ⟨?_, cs, c, [], rfl, ⟨?_, hav⟩, fun mid hmid hmne => ?_⟩⟩
    · rw [hacts]
      exact .tail _ (.tail _ hd)
    · rw [hacts]
      exact .head _
    · exact absurd (List.prefix_nil.1 hmid) hmne
  | submitted hp hi hv =>
    obtain ⟨hr, hd⟩ := hv.ok hne hok
    have hm := hcur h.serving.method hi hr
    refine ⟨h.serving.greeted hi, .inr (Running.done (hm ▸ h.running hi) ?_)⟩
    rw [hacts]
    exact .tail _ (hm ▸ hd)
  | resumed hp hi hc hv =>
    obtain ⟨hr, hd⟩ := hv.ok hne hok
    have hm := hcur h.serving.method hi hr
    refine ⟨h.serving.greeted hi, .inr (Running.done (hm ▸ h.running hi) ?_)⟩
    rw [hacts]
    exact hm ▸ hd
  | cancelled hp hi hc hst hq =>
    rcases hst with rfl | rfl
    · cases hok
    · cases hok

/-- A registration that is done goes back to the offer. -/
theorem Judged.register {a : NcAuth} {what : Verdict} {form : Option Form} {v : NcAuth × List Act}
    (h : Judged a what form v) (hp : a.state = .pending) (hv : .verdict mRegister .done ∈ v.2) :
    v.1.state ≠ .ok := by
  have hplain {q : List Act} (hq : Plain q) : Act.verdict mRegister .done ∉ q :=
    fun hm => absurd (hq _ hm) (by decide)
  cases h with
  | runs hq hw => exact fun hok => absurd (hp.symm.trans hok) (by decide)
  | offers hq hw hm hst =>
    rcases hst with rfl | rfl
    · exact fun hok => absurd (hp.symm.trans hok) (by decide)
    · exact nofun
  | succeeds hq hw hm =>
    rcases List.mem_cons.1 hv with hv | hv
    · exact absurd (Act.verdict.inj hv).1.symm hm
    · exact absurd hv (hplain hq)
  | refuses hq hw hst hc =>
    rcases hst with ⟨rfl, -⟩ | rfl
    · exact fun hok => absurd (hp.symm.trans hok) (by decide)
    · exact nofun

theorem register_no_login {a : NcAuth} (ha : Serving a) (hc : c ≠ .clear)
    (hv : .verdict mRegister .done ∈ c.acts P a) : (c.apply P a).state ≠ .ok := by
  have hdid := call_cases (P := P) ha hc
  rw [ServerCall.acts] at hv
  rw [ServerCall.apply]
  generalize c.exec P a = r at hdid hv
  have hplain {q : List Act} (hq : Plain q) (hm : Act.verdict mRegister .done ∈ q) : False :=
    absurd (hq _ hm) (by decide)
  have hcheck {g q : List Act} (hg : OneCheck g) (hq : Plain q)
      (hm : Act.verdict mRegister .done ∈ g ++ q) : False :=
    (List.mem_append.1 hm).elim (fun hm => absurd (hg.1 _ hm) (by decide)) (hplain hq)
  cases hdid with
  | idle => cases hv
  | error hp => cases hv
  | hello hp hg hc ht hok hlen hu hst hq => exact (hplain hq hv).elim
  | refused hp hg hst hone hq => exact (hcheck hone hq hv).elim
  | login hp hg hone hq hproves => exact (hcheck hone hq hv).elim
  | orphan hp hg hi hav hst hq =>
    rcases hst with ⟨rfl, -⟩ | rfl
    · exact State.noConfusion
    · exact State.noConfusion
  | began hp hg hi hm hav hcb hj =>
    refine hj.register hp ?_
    rcases List.mem_cons.1 hv with hv | hv
    · cases hv
    rcases List.mem_cons.1 hv with hv | hv
    · rcases hcb with rfl | ⟨t, rfl⟩
      · cases hv
      · cases hv
    · exact hv
  | submitted hp hi hj =>
    refine hj.register hp ?_
    rcases List.mem_cons.1 hv with hv | hv
    · cases hv
    · exact hv
  | resumed hp hi hc hj => exact hj.register hp hv
  | cancelled hp hi hc hst hq =>
    rcases hst with rfl | rfl
    · exact State.noConfusion
    · exact State.noConfusion

theorem run_frame {a : NcAuth} (ha : Serving a) {cs : List ServerCall}
    (hcs : ∀ c ∈ cs, c ≠ ServerCall.clear) :
    (run (ServerCall.apply P) a cs).sid = a.sid ∧ (run (ServerCall.apply P) a cs).cbs = a.cbs ∧
      (a.greeted = true → (run (ServerCall.apply P) a cs).greeted = true ∧
        (run (ServerCall.apply P) a cs).user = a.user) := by
  have h : Serving (run (ServerCall.apply P) a cs) ∧
      (run (ServerCall.apply P) a cs).sid = a.sid ∧ (run (ServerCall.apply P) a cs).cbs = a.cbs ∧
      (a.greeted = true → (run (ServerCall.apply P) a cs).greeted = true ∧
        (run (ServerCall.apply P) a cs).user = a.user) := by
    refine run_invariant
      (I := fun b => Serving b ∧ b.sid = a.sid ∧ b.cbs = a.cbs ∧
        (a.greeted = true → b.greeted = true ∧ b.user = a.user))
      (fun b c hb hc => ?_) ⟨ha, rfl, rfl, fun hg => ⟨hg, rfl⟩⟩
      (along_of_forall (A := fun c => c ≠ ServerCall.clear) hcs)
    obtain ⟨hserving, hsid, hcbs, hname⟩ := hb
    obtain ⟨hsid', hcbs', hname'⟩ := (call_cases (P := P) hserving hc).frame
    refine ⟨hserving.step hc, hsid'.trans hsid, hcbs'.trans hcbs, fun hg => ?_⟩
    obtain ⟨hg', hu⟩ := hname hg
    obtain ⟨hg'', hu'⟩ := hname' hg'
    exact ⟨hg'', hu'.trans hu⟩
  exact h.2

end

/-- **Login soundness**, for a call `c` after any calls `cs`: success is reached only for the user that
an accepted HELLO named, by a credential that was on offer and good, or by the interactive method,
on offer when it was started, that was judged done. A registration that is done does not lead there,
the name stays, and success and refusal are final. -/
theorem login_sound {P : Monocypher} {sid : Key} {cbs : Callbacks} {buf : Option Nat}
    {cs : List ServerCall} (hcs : ∀ c ∈ cs, c ≠ ServerCall.clear) {c : ServerCall} (hc : c ≠ .clear) :
    let a := run (ServerCall.apply P) (fresh sid cbs buf) cs
    let a' := c.apply P a
    (a.state ≠ .ok → a'.state = .ok → Named P (fresh sid cbs buf) cs a'.user ∧ a.sid = sid ∧
      a.user = a'.user ∧ (Proves P a c ∨ InteractiveDone P (fresh sid cbs buf) cs c)) ∧
    (.verdict mRegister .done ∈ c.acts P a → a'.state ≠ .ok) ∧
    (a.greeted = true → a'.greeted = true ∧ a'.user = a.user) ∧
    (a.state ≠ .pending → a'.state = a.state) := by
  intro a a'
  have hpast : Past P (fresh sid cbs buf) cs a := past_run hcs
  have hdid : Did P a c (c.exec P a) := call_cases hpast.serving hc
  refine ⟨fun hne hok => ?_, register_no_login hpast.serving hc, hdid.frame.2.2, fun hp => ?_⟩
  · obtain ⟨hg, h⟩ := ok_cases hpast hc hne hok
    have hu : a'.user = a.user := (hdid.frame.2.2 hg).2
    exact ⟨hu ▸ hpast.named hg, (run_frame (serving_fresh sid cbs buf) hcs).1, hu.symm, h⟩
  · obtain ⟨tok, he⟩ := hdid.over hp
    change (c.exec P a).1.state = a.state
    rw [he]

/-- An application that knows a password, `pw` of user `bob`, and has no interactive method. -/
def sampleEnv : Env where
  methods _ := mPassword
  checkKey _ _ := false
  checkPassword user pass := user.val = chars ['b', 'o', 'b'] ∧ pass.val = chars ['p', 'w']
  start _ := { what := .denied }
  submit _ := { what := .denied }
  resume _ := { what := .denied }

def sampleCallbacks : Callbacks :=
  { send := true, methods := true, checkKey := true, checkPassword := true }

theorem zero_notMem_bob : 0 ∉ chars ['b', 'o', 'b'] := by decide

def bobHello : List UInt8 := msgHello :: 3 :: chars ['b', 'o', 'b']

def bobPassword : List UInt8 := msgPassword :: 2 :: chars ['p', 'w']

theorem login_sound_sample :
    let a0 := fresh (.zero 32) sampleCallbacks none
    let cs := [ServerCall.feed sampleEnv bobHello]
    let a' := (ServerCall.feed sampleEnv bobPassword).apply sampleMonocypher
      (run (ServerCall.apply sampleMonocypher) a0 cs)
    a'.state = .ok ∧ Named sampleMonocypher a0 cs a'.user := by
  intro a0 cs a'
  have hok : a'.state = .ok := by decide +kernel
  have h := @login_sound sampleMonocypher (.zero 32) sampleCallbacks none cs (by simp [cs])
    (.feed sampleEnv bobPassword) (by simp)
  exact ⟨hok, (h.1 (by decide +kernel) hok).1⟩

/-! ## Guessing -/

section
variable {P : Monocypher} {a : NcAuth} {c : ServerCall}

theorem Plain.guesses {q : List Act} (h : Plain q) : q.countP Act.isGuess = 0 := by
  refine List.countP_eq_zero.2 fun x hx => ?_
  have := h x hx
  cases x with
  | emit msg => exact Bool.false_ne_true
  | methods user mask => exact Bool.false_ne_true
  | checkSig digest pk ok => cases this
  | checkKey user pk ok => cases this
  | checkPassword user pass ok => cases this
  | start method => cases this
  | submit => cases this
  | resume tok => cases this
  | cancelled => cases this
  | begun method => cases this
  | verdict method what => cases this

theorem guesses_cancelled (b : Bool) :
    (if b then [Act.cancelled] else []).countP Act.isGuess = 0 := by
  cases b with
  | false => rfl
  | true => rfl

/-- A verdict checks no credential, and leaves a try or ends the conversation. -/
theorem Judged.guesses {what : Verdict} {form : Option Form} {v : NcAuth × List Act}
    (h : Judged a what form v) :
    v.2.countP Act.isGuess = 0 ∧
      (v.1.state = .pending →
        a.tries ≤ v.1.tries ∧ (v.1.tries = a.tries ∨ v.1.tries < ncAuthMaxTries)) := by
  cases h with
  | runs hq hw =>
    refine ⟨?_, fun _ => ⟨Nat.le_refl _, .inl rfl⟩⟩
    rw [List.countP_cons_of_neg Bool.false_ne_true, hq.guesses]
  | offers hq hw hm hst =>
    refine ⟨?_, fun _ => ⟨Nat.le_refl _, .inl rfl⟩⟩
    rw [List.countP_cons_of_neg Bool.false_ne_true, hq.guesses]
  | succeeds hq hw hm =>
    refine ⟨?_, nofun⟩
    rw [List.countP_cons_of_neg Bool.false_ne_true, hq.guesses]
  | refuses hq hw hst hc =>
    refine ⟨?_, fun hp' => ⟨Nat.le_succ _, .inr ?_⟩⟩
    · rw [List.countP_cons_of_neg Bool.false_ne_true, List.countP_append, hq.guesses]
      rcases hc with rfl | ⟨-, -, rfl⟩
      · rfl
      · rfl
    · rcases hst with ⟨-, hlt⟩ | rfl
      · exact hlt
      · cases hp'

/-- What the guesses so far say about the counter of tries. -/
structure Guessed (a : NcAuth) (acts : List Act) : Prop where
  total : acts.countP Act.isGuess ≤ ncAuthMaxTries
  charged : a.state = .pending → acts.countP Act.isGuess ≤ a.tries ∧ a.tries < ncAuthMaxTries

theorem Judged.guessed {b : NcAuth} {what : Verdict} {form : Option Form} {v : NcAuth × List Act}
    (hv : Judged b what form v) {acts : List Act} (h : Guessed a acts) (hp : a.state = .pending)
    (hb : b.tries = a.tries) {l : List Act} (hl : l.countP Act.isGuess = 0) :
    Guessed v.1 (acts ++ (l ++ v.2)) := by
  obtain ⟨h1, h2⟩ := hv.guesses
  obtain ⟨h3, h4⟩ := h.charged hp
  refine ⟨?_, fun hvp => ?_⟩
  · rw [List.countP_append, List.countP_append, h1, hl]
    exact h.total
  · obtain ⟨h5, h6⟩ := h2 hvp
    rw [List.countP_append, List.countP_append, h1, hl]
    rw [hb] at h5 h6
    exact ⟨Nat.le_trans h3 h5, by omega⟩

/-- **A call makes at most one guess**, and a guess that fails is charged. -/
theorem Guessed.step {acts : List Act} (h : Guessed a acts) (ha : Serving a) (hc : c ≠ .clear) :
    Guessed (c.apply P a) (acts ++ c.acts P a) := by
  have hdid := call_cases (P := P) ha hc
  rw [ServerCall.apply, ServerCall.acts]
  generalize c.exec P a = r at hdid
  cases hdid with
  | idle =>
    rw [List.append_nil]
    exact ⟨h.total, h.charged⟩
  | error hp =>
    rw [List.append_nil]
    exact ⟨h.total, fun hp' => by cases hp'⟩
  | hello hp hg hc ht hok hlen hu hst hq =>
    refine ⟨?_, fun _ => ?_⟩
    · rw [List.countP_append, hq.guesses]
      exact h.total
    · rw [List.countP_append, hq.guesses]
      exact h.charged hp
  | refused hp hg hst hone hq =>
    obtain ⟨h1, h2⟩ := h.charged hp
    have h3 := hone.2
    refine ⟨?_, fun hp' => ?_⟩
    · rw [List.countP_append, List.countP_append, hq.guesses]
      omega
    · rw [List.countP_append, List.countP_append, hq.guesses]
      rcases hst with ⟨-, hlt⟩ | rfl
      · exact ⟨by change _ ≤ a.tries + 1; omega, hlt⟩
      · cases hp'
  | login hp hg hone hq hproves =>
    obtain ⟨h1, h2⟩ := h.charged hp
    have h3 := hone.2
    refine ⟨?_, fun hp' => by cases hp'⟩
    rw [List.countP_append, List.countP_append, hq.guesses]
    omega
  | orphan hp hg hi hav hst hq =>
    obtain ⟨h1, h2⟩ := h.charged hp
    refine ⟨?_, fun hp' => ?_⟩
    · rw [List.countP_append, List.countP_cons_of_neg Bool.false_ne_true, List.countP_append, hq.guesses,
        guesses_cancelled]
      exact h.total
    · rw [List.countP_append, List.countP_cons_of_neg Bool.false_ne_true, List.countP_append, hq.guesses,
        guesses_cancelled]
      rcases hst with ⟨-, hlt⟩ | rfl
      · exact ⟨by change _ ≤ a.tries + 1; omega, hlt⟩
      · cases hp'
  | began hp hg hi hm hav hcb hv =>
    rename_i method tok cb what form v
    refine hv.guessed (l := [.begun method, cb]) h hp rfl ?_
    rcases hcb with rfl | ⟨t, rfl⟩
    · rfl
    · rfl
  | submitted hp hi hv => exact hv.guessed (l := [.submit]) h hp rfl rfl
  | resumed hp hi hc hv => exact hv.guessed (l := []) h hp rfl rfl
  | cancelled hp hi hc hst hq =>
    refine ⟨?_, fun _ => ?_⟩
    · rw [List.countP_append, List.countP_append, hq.guesses, guesses_cancelled]
      exact h.total
    · rw [List.countP_append, List.countP_append, hq.guesses, guesses_cancelled]
      exact h.charged hp

end

/-- **Guessing is bounded**: over the whole conversation at most `NC_AUTH_MAX_TRIES` signatures and
passwords are checked, whatever is sent, registered and cancelled, and while it goes on `tries` stays
below that. -/
theorem guesses_bounded {P : Monocypher} {sid : Key} {cbs : Callbacks} {buf : Option Nat}
    {cs : List ServerCall} (hcs : ∀ c ∈ cs, c ≠ ServerCall.clear) :
    (trace P (fresh sid cbs buf) cs).countP Act.isGuess ≤ ncAuthMaxTries ∧
      ((run (ServerCall.apply P) (fresh sid cbs buf) cs).state = .pending →
        (run (ServerCall.apply P) (fresh sid cbs buf) cs).tries < ncAuthMaxTries) := by
  have h : Guessed (run (ServerCall.apply P) (fresh sid cbs buf) cs)
      (trace P (fresh sid cbs buf) cs) := by
    induction cs using List.reverseRecOn with
    | nil => exact ⟨Nat.zero_le _, fun _ => ⟨Nat.zero_le _, Nat.zero_lt_succ _⟩⟩
    | append_singleton cs c ih =>
      have hcs' : ∀ d ∈ cs, d ≠ ServerCall.clear := fun d hd => hcs d (List.mem_append_left _ hd)
      rw [run_concat, trace_concat]
      exact (ih hcs').step (serving_run (serving_fresh sid cbs buf) hcs') (hcs c (by simp))
  exact ⟨h.total, fun hp => (h.charged hp).2⟩

theorem guesses_bounded_sample :
    let cs := List.replicate 7 (ServerCall.feed { sampleEnv with checkPassword := fun _ _ => false }
      bobPassword)
    let cs := ServerCall.feed { sampleEnv with methods := fun _ => 0x12 } bobHello :: cs
    (trace sampleMonocypher (fresh (.zero 32) sampleCallbacks none) cs).countP Act.isGuess ≤ 6 := by
  intro cs cs'
  exact (@guesses_bounded sampleMonocypher (.zero 32) sampleCallbacks none cs' (by simp [cs, cs'])).1

end Netchan.Auth
