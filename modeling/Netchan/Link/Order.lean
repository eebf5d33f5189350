import Netchan.Link.Layers

/-!
# The order of the layers

`layers_in_order`: the layers come up one after the other, the application is told of the login once,
and of the end once. `server_authenticated`: a server reports a login only after a proof of the client's
identity that is bound to the session.
-/

namespace Netchan.Link

open Lib Crypto Transport

/-- The session after the calls in a log. -/
def sessionAfter (P : Monocypher) (c0 : Session) (log : List Act) : Session :=
  run (Crypto.Step.apply P) c0 (cryptoSteps log)

/-- There are keys, and the peer is who it has to be. -/
structure Secured (P : Monocypher) (cfg : Cfg) (c0 : Session) (log : List Act) : Prop where
  keys : (sessionAfter P c0 log).haveKey = true
  accepted : cfg.verifyPeer = true →
    .verify (sessionAfter P c0 log).shown true ∈ runActs P c0 (cryptoSteps log)
  identified : cfg.requirePeerStatic = true → (sessionAfter P c0 log).peerHasStatic = true

/-- The login was started. -/
def Started (log : List Act) : Prop := ∃ a, .start a ∈ log

/-- The end was reported. -/
def Ended (log : List Act) : Prop := ∃ why, .down why ∈ log

/-- What must have happened before an act. -/
def InOrder (P : Monocypher) (cfg : Cfg) (c0 : Session) (log : List Act) : Act → Prop
  | .sealed _ (some _) => Secured P cfg c0 log
  | .sendto pkt _ => byte pkt 0 = ncCryptoHello ∨ Secured P cfg c0 log
  | .feed .. => Secured P cfg c0 log
  | .call (.connect ..) => cfg.server = false ∧ Secured P cfg c0 log
  | .call .accept => cfg.server = true ∧ Secured P cfg c0 log
  | .start a => ¬ Started log ∧ Secured P cfg c0 log ∧ a.sid = (sessionAfter P c0 log).sid
  | .server _ => cfg.server = true ∧ Started log ∧ Secured P cfg c0 log
  | .client _ => cfg.server = false ∧ Started log ∧ Secured P cfg c0 log
  | .write _ msg _ => (msg.head? = some tagAuth ∨ msg.head? = some tagApp ∧ .up ∈ log) ∧
      Started log ∧ Secured P cfg c0 log
  | .up => Started log ∧ .up ∉ log ∧ ¬ Ended log
  | .data _ => .up ∈ log
  | .down _ => ¬ Ended log
  | .need what => cfg.server = false ∧ what ≠ .nothing ∧ Started log ∧ .up ∉ log ∧ ¬ Ended log
  | _ => True

section
variable {P : Monocypher} {hear : Session → List UInt8 → Prop} {l0 l m : AuthLink} {cfg : Cfg}
  {random : Option Key}

/-- Keys come from a handshake with a peer that was accepted. -/
theorem secured_of_keys (hinit : AuthLink.init P cfg random = some l0) {log : List Act}
    (hk : (sessionAfter P l0.crypto log).haveKey = true) : Secured P cfg l0.crypto log := by
  obtain ⟨ephSk, he⟩ := ncCryptoInit_spec (init_spec hinit).2.2.2.2.2
  have h0 : l0.crypto.haveKey = false := by rw [he]
  have hf : l0.crypto.failed = false := by rw [he]
  have hfix : (sessionAfter P l0.crypto log).fixed = l0.crypto.fixed := run_fixed l0.crypto _
  have hv : (sessionAfter P l0.crypto log).verifyPeer = cfg.verifyPeer :=
    (congrArg Fixed.verifyPeer hfix).trans (by rw [he]; rfl)
  have hr : (sessionAfter P l0.crypto log).requirePeerStatic = cfg.requirePeerStatic :=
    (congrArg Fixed.requirePeerStatic hfix).trans (by rw [he]; rfl)
  rcases session_cases (P := P) h0 hf (cryptoSteps log) with ⟨hc, -⟩ | hkeyed | hdead
  · rw [sessionAfter, hc, h0] at hk
    cases hk
  · obtain ⟨dhEe, ha, -⟩ := hkeyed.acts
    refine ⟨hk, fun hvp => ?_, fun hrp => hkeyed.required (hr.trans hrp)⟩
    have hv' : (run (Crypto.Step.apply P) l0.crypto (cryptoSteps log)).verifyPeer = true := hv.trans hvp
    rw [ha, Session.accepted, if_pos hv']
    exact .head _
  · rw [sessionAfter, hdead.noKey] at hk
    cases hk

/-- What is known of the session when a byte comes in. -/
structure Linked (P : Monocypher) (l : AuthLink) : Prop where
  fed : ∀ answer pkt b plain, l.log.getLast? = some (.opened answer pkt (some (b :: plain))) →
    l.crypto.haveKey = true
  sealed : ∀ plain pkt, l.log.getLast? = some (.sealed plain (some pkt)) → l.crypto.haveKey = true
  accepted : ∀ env plain source, l.log.getLast? = some (.feed env plain source) →
    l.crypto.haveKey = true

theorem linked_act {act : Act} (h : Linked P l) (hmay : May P hear l act) :
    Linked P (l.does P act) := by
  refine ⟨?_, ?_, ?_⟩ <;> rw [getLast_does]
  · intro answer pkt b plain he
    obtain rfl := Option.some.inj he
    obtain ⟨hout, -⟩ := hmay
    rcases open_cases P answer l.crypto pkt bufSize with
      ⟨_, _, -, -, -, hk, -⟩ | ⟨_, _, he, -⟩ | he
    · exact (keyed_step (P := P) hk (.recv answer pkt bufSize)).1
    · rw [he] at hout
      cases hout
    · rw [he] at hout
      cases hout
  · intro plain pkt he
    obtain rfl := Option.some.inj he
    obtain ⟨hout, -⟩ := hmay
    rcases seal_cases P l.crypto plain sealedSize with ⟨hk, -⟩ | he
    · exact (keyed_step (P := P) hk (.send plain sealedSize)).1
    · rw [he] at hout
      cases hout
  · intro env plain source he
    obtain rfl := Option.some.inj he
    obtain ⟨hne, answer, pkt, hlast⟩ := hmay
    obtain ⟨b, rest, rfl⟩ := List.exists_cons_of_ne_nil hne
    exact h.fed answer pkt b rest hlast

theorem linked_moves (h : Moves P hear l0 l) (h0 : New l0) : Linked P l := by
  induction h with
  | refl => constructor <;> rw [h0.log] <;> simp
  | tail _ hm ih =>
    cases hm with
    | act hmay => exact linked_act ih hmay
    | note => exact ⟨ih.fed, ih.sealed, ih.accepted⟩
    | close => exact ⟨ih.fed, ih.sealed, ih.accepted⟩

/-- **What holds when an act is made.** -/
theorem order_of_may (hinit : AuthLink.init P cfg random = some l0) (hl : Layers P l0 m)
    (hk : Linked P m) {act : Act} (hmay : May P hear m act) :
    InOrder P cfg l0.crypto m.log act := by
  have hserver : m.server = cfg.server := hl.server.trans (init_spec hinit).2.1
  have hsec (h : m.crypto.haveKey = true) : Secured P cfg l0.crypto m.log :=
    secured_of_keys hinit (by rw [sessionAfter, ← hl.crypto]; exact h)
  have hstart (h : m.authStarted = true) : Started m.log ∧ Secured P cfg l0.crypto m.log :=
    ⟨hl.started.1 h, hsec (hl.keyed h)⟩
  have hend (h : m.down = false) : ¬ Ended m.log := fun he =>
    absurd (h.symm.trans (hl.down.2 he)) (by decide)
  have hnot (h : m.up = false) : .up ∉ m.log := fun he =>
    absurd (h.symm.trans (hl.up.2 he)) (by decide)
  cases act with
  | sendNext env out => trivial
  | opened answer pkt out => trivial
  | sealed plain out =>
    cases out with
    | none => trivial
    | some pkt =>
      obtain ⟨hout, -⟩ := hmay
      refine hsec ?_
      rcases seal_cases P m.crypto plain sealedSize with ⟨h, -⟩ | he
      · exact h
      · rw [he] at hout
        cases hout
  | sendto pkt dest =>
    rcases hmay with ⟨plain, hlast⟩ | hhello
    · exact .inr (hsec (hk.sealed plain pkt hlast))
    · refine .inl ?_
      unfold ncCryptoHandshakePacket at hhello
      split at hhello
      · cases hhello
      · obtain rfl := Option.some.inj hhello
        rfl
  | feed env plain source =>
    obtain ⟨hne, answer, pkt, hlast⟩ := hmay
    obtain ⟨b, rest, rfl⟩ := List.exists_cons_of_ne_nil hne
    exact hsec (hk.fed answer pkt b rest hlast)
  | call k =>
    cases k with
    | connect env addr => exact ⟨hserver ▸ hmay.1, hsec hmay.2.1⟩
    | accept =>
      obtain ⟨hs, env, plain, source, hlast⟩ := hmay
      exact ⟨hserver ▸ hs, hsec (hk.accepted env plain source hlast)⟩
    | _ => trivial
  | chanOpen out => trivial
  | write id msg out =>
    obtain ⟨-, -, tag, data, rfl, -, ht⟩ := hmay
    rcases ht with ⟨rfl, ha⟩ | ⟨rfl, hup⟩
    · exact ⟨.inl rfl, hstart ha⟩
    · exact ⟨.inr ⟨rfl, hl.up.1 hup⟩, hstart (hl.asked hup)⟩
  | read id out => trivial
  | start a =>
    obtain ⟨h1, -, h3, rfl⟩ := hmay
    refine ⟨fun he => absurd (h1.symm.trans (hl.started.2 he)) (by decide), hsec h3, ?_⟩
    rw [sessionAfter, ← hl.crypto, conversation]
    split <;> rfl
  | server c => exact ⟨hserver ▸ hmay.2.1, hstart hmay.1⟩
  | client c => exact ⟨hserver ▸ hmay.2.1, hstart hmay.1⟩
  | up =>
    obtain ⟨ha, -, hup, hdown, -⟩ := hmay
    exact ⟨(hstart ha).1, hnot hup, hend hdown⟩
  | data msg => exact hl.up.1 hmay.1
  | down why => exact hend hmay.1
  | need what =>
    obtain ⟨ha, hs, hup, hdown, rfl, hne⟩ := hmay
    exact ⟨hserver ▸ hs, hne, (hstart ha).1, hnot hup, hend hdown⟩

/-! ## The login of a server -/

theorem run_enters {σ α : Type} {step : σ → α → σ} {p : σ → Prop} {s : σ} (h0 : ¬ p s) {as : List α}
    (h : p (run step s as)) : ∃ pre a suf, as = pre ++ a :: suf ∧ ¬ p (run step s pre) ∧
      p (run step s (pre ++ [a])) := by
  induction as using List.reverseRecOn with
  | nil => exact absurd h h0
  | append_singleton as a ih =>
    by_cases hp : p (run step s as)
    · obtain ⟨pre, b, suf, rfl, h1, h2⟩ := ih hp
      exact ⟨pre, b, suf ++ [a], by simp, h1, h2⟩
    · exact ⟨as, a, [], rfl, hp, h⟩

/-- Once there are keys they stay. -/
theorem keys_moves (h : Moves P hear l m) (hk : l.crypto.haveKey = true) :
    m.crypto.haveKey = true ∧ m.crypto.agreed = l.crypto.agreed := by
  induction h with
  | refl => exact ⟨hk, rfl⟩
  | @tail b c _ hm ih =>
    cases hm with
    | @act act hmay =>
      cases act with
      | sealed plain out =>
        obtain ⟨h1, h2⟩ := keyed_step (P := P) ih.1 (.send plain sealedSize)
        exact ⟨h1, h2.trans ih.2⟩
      | opened answer pkt out =>
        obtain ⟨h1, h2⟩ := keyed_step (P := P) ih.1 (.recv answer pkt bufSize)
        exact ⟨h1, h2.trans ih.2⟩
      | _ => exact ih
    | note => exact ih
    | close => exact ih

theorem name_moves (h : Moves P hear l m) (hup : l.up = true) : m.up = true ∧ m.user = l.user := by
  induction h with
  | refl => exact ⟨hup, rfl⟩
  | @tail b c _ hm ih =>
    cases hm with
    | @act act hmay =>
      cases act with
      | up => exact absurd (ih.1.symm.trans hmay.2.2.1) (by decide)
      | _ => exact ih
    | note => exact ih
    | close => exact ih

/-- The client proved who it is: after the calls `cs` of nc_auth, in the session of the link, `c` was
the call that let it in. -/
structure Authenticated (P : Monocypher) (a0 : Auth.NcAuth) (cs : List Auth.ServerCall)
    (c : Auth.ServerCall) (sid : Key) (user : CStr) : Prop where
  bound : (run (Auth.ServerCall.apply P) a0 cs).sid = sid
  name : (run (Auth.ServerCall.apply P) a0 cs).user = user
  named : Auth.Named P a0 cs user
  proved : Auth.Proves P (run (Auth.ServerCall.apply P) a0 cs) c ∨ Auth.InteractiveDone P a0 cs c

theorem authenticated_of_ok {sid : Key} {cbs : Auth.Callbacks} {buf : Option Nat}
    {calls : List Auth.ServerCall} (hclear : ∀ c ∈ calls, c ≠ .clear)
    (hok : (run (Auth.ServerCall.apply P) (Auth.fresh sid cbs buf) calls).state = .ok) :
    ∃ cs c, cs ++ [c] <+: calls ∧ Authenticated P (Auth.fresh sid cbs buf) cs c sid
      (run (Auth.ServerCall.apply P) (Auth.fresh sid cbs buf) calls).user := by
  obtain ⟨cs, c, suf, rfl, hne, hat⟩ :=
    run_enters (p := fun a : Auth.NcAuth => a.state = .ok) (by exact Auth.State.noConfusion) hok
  have hcs : ∀ c' ∈ cs, c' ≠ .clear := fun c' hm => hclear c' (List.mem_append_left _ hm)
  have hc : c ≠ .clear := hclear c (by simp)
  have hsuf : ∀ c' ∈ c :: suf, c' ≠ .clear := fun c' hm => hclear c' (List.mem_append_right _ hm)
  have hpast : Auth.Past P (Auth.fresh sid cbs buf) cs _ :=
    Auth.past_run hcs
  rw [run_concat] at hat
  obtain ⟨hgreeted, hproved⟩ := Auth.ok_cases hpast hc hne hat
  have hframe := Auth.run_frame (P := P) hpast.serving hsuf
  have huser := (hframe.2.2 hgreeted).2
  rw [← run_append] at huser
  refine ⟨cs, c, ⟨suf, by simp⟩, (Auth.run_frame (P := P) (Auth.serving_fresh sid cbs buf) hcs).1,
    huser.symm, ?_, hproved⟩
  rw [huser]
  exact hpast.named hgreeted

end

/-! ## Runs -/

section
variable {P : Monocypher} {io : Nat → Moment} {limit depth : Nat} {cfg : Cfg} {random : Option Key}
  {evs : List Event} {l : AuthLink}

/-- **The layers come up in order**: whatever reaches a link and whatever the application does, also
in a callback, every act in the log was preceded by what `InOrder` asks for. -/
theorem layers_in_order (h : Opened P io limit depth cfg random evs l) :
    ∃ c0, ncCryptoInit P (if cfg.server then .responder else .initiator)
        { psk := cfg.psk, staticSk := cfg.staticSk, requirePeerStatic := cfg.requirePeerStatic
          verifyPeer := cfg.verifyPeer } random = some c0 ∧
      ∀ pre act post, l.log = pre ++ act :: post → InOrder P cfg c0 pre act := by
  obtain ⟨l0, hinit, hnew, hm⟩ := opened_moves h
  refine ⟨l0.crypto, (init_spec hinit).2.2.2.2.2, fun pre act post hlog => ?_⟩
  obtain ⟨m, h1, rfl, hmay, -⟩ := act_made hm hnew.log hlog
  exact order_of_may hinit (layers_moves h1 hnew) (linked_moves h1 hnew) hmay

/-- The login of a client. -/
theorem layers_in_order_sample : ∃ c0, ∀ pre act post, sampleServer.log = pre ++ act :: post →
    InOrder sampleMonocypher (sampleCfg .server) c0 pre act := by
  obtain ⟨c0, -, h⟩ := layers_in_order sampleServer_opened
  exact ⟨c0, h⟩

/-- **A server reports a login only for a client that proved who it is**, in the session whose keys
seal the link: by a signature over this session's id or a password that the credential store takes for
the name that the link reports, or by the interactive method. -/
theorem server_authenticated (h : Opened P io limit depth cfg random evs l)
    (hs : cfg.server = true) (hup : .up ∈ l.log) :
    ∃ cs c, cs ++ [c] <+: serverCalls l.log ∧
      Authenticated P (Auth.fresh l.crypto.sid { cfg.scb with send := true } (some Auth.ncFormMaxMsg))
        cs c l.crypto.sid l.user := by
  obtain ⟨l0, hinit, hnew, hm⟩ := opened_moves h
  obtain ⟨-, hserver, hscb, -⟩ := init_spec hinit
  obtain ⟨pre, post, hlog⟩ := List.append_of_mem hup
  obtain ⟨m, h1, rfl, ⟨ha, hclosing, -, -, hok⟩, h2⟩ := act_made hm hnew.log hlog
  have hl := layers_moves h1 hnew
  obtain ⟨hauth, hclear⟩ := hl.login (hl.server.trans (hserver.trans hs)) ha hclosing
  have hsid : l.crypto.sid = m.crypto.sid := sid_of_agreed (keys_moves h2 (hl.keyed ha)).2
  have huser : l.user = m.auth.user := (name_moves h2 rfl).2
  have hok' : (serverAuth P m).state = .ok := hauth ▸ hok
  rw [serverAuth, hl.scb, hscb, ← hsid] at hok' hauth
  obtain ⟨cs, c, hpre, hproof⟩ := authenticated_of_ok hclear hok'
  refine ⟨cs, c, hpre.trans (List.IsPrefix.filterMap _ ⟨_, hlog.symm⟩), ?_⟩
  rw [huser, hauth]
  exact hproof

def Act.isUp : Act → Bool
  | .up => true
  | _ => false

theorem up_mem {log : List Act} (h : log.any Act.isUp = true) : .up ∈ log := by
  obtain ⟨act, hmem, hup⟩ := List.any_eq_true.1 h
  cases act with
  | up => exact hmem
  | _ => cases hup

/-- The server takes the password of `bob`. -/
theorem server_authenticated_sample : sampleServer.user.val = Auth.chars ['b', 'o', 'b'] ∧
    ∃ cs c, cs ++ [c] <+: serverCalls sampleServer.log ∧ Authenticated sampleMonocypher
      (Auth.fresh sampleServer.crypto.sid Auth.sampleCallbacks (some Auth.ncFormMaxMsg)) cs c
      sampleServer.crypto.sid sampleServer.user :=
  ⟨by decide +kernel,
    server_authenticated sampleServer_opened rfl (up_mem (by decide +kernel))⟩

end

end Netchan.Link
