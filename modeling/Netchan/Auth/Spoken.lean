import Netchan.Auth.Messages

/-!
# What the two sides do

One lemma for each thing that can happen to a client or a server, with the messages that it sends.

* `Next` says what the client's choice of a method does, `Said` what a call of the client's
  application does; `feed_form`, `feed_wait` and `feed_answer` are the messages that a client takes.
* `Spoke` says what a verdict does, `Ends` is its last case; `feed_hello`, `feed_credential`,
  `feed_begin`, `feed_submit` and `feed_cancel` are the messages that a server takes, `feed_late` the
  ones that it does not.
-/

namespace Netchan.Auth

open Lib Idl Crypto

/-! ## The client -/

/-- The application is asked for a method or for a credential. -/
def Asks (a : NcAuth) : Prop := a.need = .key ∨ a.need = .password ∨ a.need = .method

/-- What the client's choice of a method can do. -/
inductive Next (a : NcAuth) : NcAuth × List Act → Prop
  | asks {b : NcAuth} (hn : Asks b) (hi : b.iaMethod = a.iaMethod) (hc : b.cancelling = a.cancelling) :
      Next a (b, [])
  | rests {b : NcAuth} (hn : b.need = .nothing ∨ b.need = a.need) : Next a (b, [])
  | opens {b : NcAuth} {acts : List Act} {msg : List UInt8} (hm : BeginMsg msg) (hs : sent acts = [msg])
      (hn : b.need = .nothing) (hi : b.iaMethod ≠ 0) (hc : b.cancelling = a.cancelling) :
      Next a (b, acts)

/-- What a call of the client's application can do. -/
inductive Said (a : NcAuth) : NcAuth × List Act → Prop
  | quiet {b : NcAuth} (hi : b.iaMethod = a.iaMethod) (hc : b.cancelling = a.cancelling)
      (hn : b.need = a.need ∨ b.need = .nothing) : Said a (b, [])
  | moves (hn : Asks a) {a' : NcAuth} {r : NcAuth × List Act} (hn' : a'.need = .nothing)
      (hi : a'.iaMethod = a.iaMethod) (hc : a'.cancelling = a.cancelling) (h : Next a' r) : Said a r
  | credential (hn : Asks a) {b : NcAuth} {acts : List Act} {msg : List UInt8} (hm : CredentialMsg msg)
      (hs : sent acts = [msg]) (hb : b.need = .nothing) (hi : b.iaMethod = a.iaMethod) : Said a (b, acts)
  | submits (hn : a.need = .form) {b : NcAuth} {acts : List Act} {msg : List UInt8} (hm : SubmitMsg msg)
      (hs : sent acts = [msg]) (hb : b.need = .nothing) (hi : b.iaMethod = a.iaMethod)
      (hc : b.cancelling = a.cancelling) : Said a (b, acts)
  | cancels (hr : a.iaMethod ≠ 0) (hd : a.cancelling = false) {b : NcAuth} {acts : List Act}
      (hs : sent acts = [[msgIaCancel]]) (hb : b.need = .nothing) (hi : b.iaMethod = a.iaMethod)
      (hc : b.cancelling = true) : Said a (b, acts)

section
variable {P : Monocypher} {a : NcAuth}

theorem tryCredentials_next (a : NcAuth) : Next a (tryCredentials a, []) := by
  unfold tryCredentials
  split
  · exact .asks (.inl rfl) rfl rfl
  split
  · exact .asks (.inr (.inl rfl)) rfl rfl
  · exact .rests (.inl rfl)

theorem iaChoose_next (h : a.cbs.send = true) : Next a (iaChoose a) := by
  unfold iaChoose
  dsimp only
  split
  · exact .rests (.inl rfl)
  split
  · exact .asks (.inr (.inr rfl)) rfl rfl
  split
  · split
    · exact .rests (.inr rfl)
    · cases tryCredentials_next { a with chose := false, asked := true } with
      | asks hn hi hc => exact .asks hn hi hc
      | rests hn => exact .rests hn
      | opens hm hs hn hi hc => exact .opens hm hs hn hi hc
  generalize hw : (if a.chosen &&& (mRegister ||| mInteractive) &&& a.avail &&& mRegister ≠ 0 then
    mRegister else mInteractive) = m
  have hm : m = mRegister ∨ m = mInteractive := by
    rw [← hw]
    split
    · exact .inl rfl
    · exact .inr rfl
  split
  · exact .rests (.inr rfl)
  · rename_i msg hmsg
    refine .opens (beginMsg_write ?_ hmsg) (sent_emit h msg) rfl (method_ne_zero hm) rfl
    rcases hm with rfl | rfl
    · exact .inl (by decide)
    · exact .inr (by decide)

theorem clientTryNext_next (h : a.cbs.send = true) : Next a (clientTryNext a) := by
  unfold clientTryNext
  split
  · exact .rests (.inr rfl)
  split
  · split
    · exact iaChoose_next h
    · exact .asks (.inr (.inr rfl)) rfl rfl
  · exact tryCredentials_next a

/-- **What a call of the client's application does.** -/
theorem call_said (h : a.cbs.send = true) {c : ClientCall} (hc : ∀ msg, c ≠ .feed msg) :
    Said a (c.exec P a) := by
  have hskip (hn : Asks a) : Said a (clientTryNext { a with need := .nothing }) :=
    @Said.moves a hn { a with need := .nothing } _ rfl rfl rfl (clientTryNext_next h)
  cases c with
  | feed msg => exact absurd rfl (hc msg)
  | supplyKey keys =>
    simp only [ClientCall.exec, ncAuthSupplyKey]
    split
    · exact .quiet rfl rfl (.inl rfl)
    rename_i h1
    simp only [not_or, not_not] at h1
    cases keys with
    | none => exact hskip (.inl h1.2)
    | some keys =>
      refine .credential (.inl h1.2) (.pubkey rfl ?_) (sent_emit h _) rfl rfl
      rw [List.length_cons, List.length_append, keys.2.property, (_ : Bytes 64).property]
  | supplyPassword password =>
    simp only [ClientCall.exec, ncAuthSupplyPassword]
    split
    · exact .quiet rfl rfl (.inl rfl)
    rename_i h1
    simp only [not_or, not_not] at h1
    cases password with
    | none => exact hskip (.inr (.inl h1.2))
    | some password =>
      dsimp only
      split
      · exact hskip (.inr (.inl h1.2))
      · rename_i hlen
        have hb : (byte (msgPassword :: UInt8.ofNat password.val.length :: password.val) 1).toNat =
            password.val.length := by
          change (UInt8.ofNat password.val.length).toNat = _
          simp only [ncAuthMaxPass] at hlen
          rw [UInt8.toNat_ofNat']
          omega
        refine .credential (.inr (.inl h1.2)) (.password rfl ?_ ?_) (sent_emit h _) rfl rfl
        · rw [hb, List.length_cons, List.length_cons]
          omega
        · rw [hb]
          exact Nat.not_lt.1 hlen
  | supplyMethod method =>
    simp only [ClientCall.exec, ncAuthSupplyMethod]
    split
    · exact .quiet rfl rfl (.inl rfl)
    split
    · rename_i hn
      exact @Said.moves a (.inr (.inr hn))
        { a with chosen := method, chose := true, need := .nothing } _ rfl rfl rfl (iaChoose_next h)
    · exact .quiet rfl rfl (.inl rfl)
  | submit vals =>
    simp only [ClientCall.exec, ncAuthSubmit]
    split
    · exact .quiet rfl rfl (.inl rfl)
    rename_i h1
    simp only [not_or, not_not] at h1
    cases vals with
    | none =>
      dsimp only [ncAuthCancel]
      split
      · exact .quiet rfl rfl (.inr rfl)
      · rename_i hc
        simp only [not_or, Bool.not_eq_true] at hc
        exact .cancels hc.2.1 hc.2.2 (sent_emit h _) rfl rfl rfl
    | some vals =>
      dsimp only
      split
      · exact .quiet rfl rfl (.inr rfl)
      · rename_i msg hmsg
        exact .submits h1.2 (submitMsg_encode hmsg) (sent_emit h msg) rfl rfl rfl
  | cancel =>
    simp only [ClientCall.exec, ncAuthCancel]
    split
    · exact .quiet rfl rfl (.inl rfl)
    · rename_i hc
      simp only [not_or, Bool.not_eq_true] at hc
      exact .cancels hc.2.1 hc.2.2 (sent_emit h _) rfl rfl rfl
  | resumePending tok =>
    simp only [ClientCall.exec, ncAuthResumePending]
    split
    · exact .quiet rfl rfl (.inl rfl)
    · exact .quiet rfl rfl (.inl rfl)

theorem feed_over {msg : List UInt8} {env : Env} (hp : a.state ≠ .pending) :
    ncAuthFeed P env a msg = (false, a, []) := if_pos (.inr hp)

/-- **A form is shown**, or dropped if the client has cancelled. -/
theorem feed_form {msg : List UInt8} {cap : Nat} (hs : a.server = false) (hp : a.state = .pending)
    (hm : FormMsg msg) (hbuf : a.buf = some cap) (hcap : Ample cap)
    (h : a.cancelling = true ∨ a.iaMethod ≠ 0 ∧ a.need ≠ .form) :
    ∃ b, ncAuthFeed P noEnv a msg = (true, b, []) ∧ b.iaMethod = a.iaMethod ∧
      b.cancelling = a.cancelling ∧ (b.need = a.need ∨ a.cancelling = false ∧ b.need = .form) := by
  have hia := clientFeed_ia (a := a) (.inl hm.kind)
  by_cases hc : a.cancelling = true
  · refine ⟨a, feed_client hs hp hm.fits ?_, rfl, rfl, .inl rfl⟩
    rw [hia, iaClient, if_pos hm.kind, if_pos hc]
  · obtain ⟨hi, hn⟩ := h.resolve_left hc
    obtain ⟨⟨form, strings⟩, hd⟩ := Option.isSome_iff_exists.1 (hm.decodes cap hcap)
    refine ⟨{ a with form, strings, waitNote := none, need := .form }, feed_client hs hp hm.fits ?_,
      rfl, rfl, .inr ⟨by simpa using hc, rfl⟩⟩
    rw [hia, iaClient, if_pos hm.kind, if_neg hc, if_neg hi, if_neg hn, hbuf, Option.bind_some, hd]

/-- **A notice to wait is taken**, or dropped if the client has cancelled. -/
theorem feed_wait {msg : List UInt8} (hs : a.server = false) (hp : a.state = .pending)
    (hm : WaitMsg msg) (h : a.cancelling = true ∨ a.iaMethod ≠ 0) :
    ∃ b, ncAuthFeed P noEnv a msg = (true, b, []) ∧ b.iaMethod = a.iaMethod ∧
      b.cancelling = a.cancelling ∧ (b.need = a.need ∨ b.need = .nothing) := by
  have hia := clientFeed_ia (a := a) (.inr hm.kind)
  by_cases hc : a.cancelling = true
  · refine ⟨a, feed_client hs hp hm.fits ?_, rfl, rfl, .inl rfl⟩
    rw [hia, iaClient, if_neg (by rw [hm.kind]; decide), if_pos hm.kind, if_pos hc]
  · obtain ⟨p, hd⟩ := Option.isSome_iff_exists.1 hm.decodes
    obtain ⟨tok, note, strings, he⟩ := parked_spec a p
    refine ⟨a.parked p, feed_client hs hp hm.fits ?_, by rw [he], by rw [he], .inr rfl⟩
    rw [hia, iaClient, if_neg (by rw [hm.kind]; decide), if_pos hm.kind, if_neg hc,
      if_neg (h.resolve_left hc), hd]
    rfl

/-- **An answer ends the method**, and the client goes on. -/
theorem feed_answer {msg : List UInt8} (hs : a.server = false) (hp : a.state = .pending)
    (hsend : a.cbs.send = true) (hm : AnswerMsg msg) :
    ∃ a' r, ncAuthFeed P noEnv a msg = (true, r) ∧ a'.need = a.need ∧ a'.iaMethod = 0 ∧
      a'.cancelling = false ∧ Next a' r := by
  rcases hm with ⟨x, rfl⟩ | ⟨x, rfl⟩ | rfl
  · have hf : Fits [msgMethods, x] := ⟨by simp, by simp +decide [byte]⟩
    have hb : byte [msgMethods, x] 0 = msgMethods := rfl
    let a' : NcAuth := { a with
      registered := a.registered || (a.iaMethod = mRegister && !a.cancelling)
      iaMethod := 0, cancelling := false, asked := false, waitNote := none
      avail := UInt32.ofNat x.toNat, offered := UInt32.ofNat x.toNat }
    by_cases h0 : UInt32.ofNat x.toNat = 0
    · refine ⟨a', ({ a' with state := .denied }, []), feed_client hs hp hf ?_, rfl, rfl, rfl,
        .rests (.inr rfl)⟩
      unfold clientFeed
      rw [if_pos hb, if_neg (by simp)]
      exact if_pos h0
    · refine ⟨a', clientTryNext a', feed_client hs hp hf ?_, rfl, rfl, rfl, clientTryNext_next hsend⟩
      unfold clientFeed
      rw [if_pos hb, if_neg (by simp)]
      exact if_neg h0
  · have hf : Fits [msgFail, x] := ⟨by simp, by simp +decide [byte]⟩
    have hb : byte [msgFail, x] 0 = msgFail := rfl
    let a' : NcAuth := { a with
      avail := a.avail &&& UInt32.ofNat x.toNat, iaMethod := 0, cancelling := false, asked := false }
    refine ⟨a', clientTryNext a', feed_client hs hp hf ?_, rfl, rfl, rfl, clientTryNext_next hsend⟩
    unfold clientFeed
    rw [if_neg (by rw [hb]; decide), if_neg (by rw [hb]; decide), if_pos hb, if_neg (by simp)]
    rfl
  · have hf : Fits [msgOk] := ⟨by simp, by simp +decide⟩
    refine ⟨{ a with iaMethod := 0, cancelling := false }, ({ a with state := .ok }, []),
      feed_client hs hp hf ?_, rfl, rfl, rfl, .rests (.inr rfl)⟩
    unfold clientFeed
    rw [if_neg (by decide), if_pos (by decide)]

end

/-! ## The server -/

/-- What a server keeps. -/
structure Stands (a b : NcAuth) : Prop where
  server : b.server = a.server
  cbs : b.cbs = a.cbs
  buf : b.buf = a.buf
  greeted : a.greeted = true → b.greeted = true

/-- A method ends with an answer, or a request without a method is answered. -/
structure Ends (a : NcAuth) (r : NcAuth × List Act) : Prop where
  stands : Stands a r.1
  ended : r.1.iaMethod = 0
  tells : ∃ ans, AnswerMsg ans ∧ sent r.2 = [ans]

/-- What a verdict can say: a form, a notice to wait, or an answer. -/
inductive Spoke (w : Bool) (a : NcAuth) : NcAuth × List Act → Prop
  | form {b : NcAuth} {acts : List Act} {msg : List UInt8} (hb : Stands a b)
      (hi : b.iaMethod = a.iaMethod) (hm : FormMsg msg) (hs : sent acts = [msg])
      (hw : parkedBy w acts = false) : Spoke w a (b, acts)
  | parks {b : NcAuth} {acts : List Act} (hb : Stands a b) (hi : b.iaMethod = a.iaMethod)
      (hs : sent acts = [] ∨ ∃ msg, WaitMsg msg ∧ sent acts = [msg]) (hw : parkedBy w acts = true) :
      Spoke w a (b, acts)
  | ends {r : NcAuth × List Act} (h : Ends a r) : Spoke w a r

section
variable {P : Monocypher} {env : Env} {a : NcAuth} {w : Bool} {msg : List UInt8}

theorem Stands.refl (a : NcAuth) : Stands a a := ⟨rfl, rfl, rfl, id⟩

theorem Stands.after {b c : NcAuth} (h' : Stands b c) (h : Stands a b) : Stands a c :=
  ⟨h'.server.trans h.server, h'.cbs.trans h.cbs, h'.buf.trans h.buf, fun hg => h'.greeted (h.greeted hg)⟩

theorem deny_said (h : a.cbs.send = true) (spent : UInt32) :
    Stands a (serverDeny a spent).1 ∧ (serverDeny a spent).1.iaMethod = a.iaMethod ∧
      ∃ x, sent (serverDeny a spent).2 = [[msgFail, x]] := by
  unfold serverDeny
  dsimp only
  split
  · exact ⟨⟨rfl, rfl, rfl, id⟩, rfl, _, sent_emit h _⟩
  · exact ⟨⟨rfl, rfl, rfl, id⟩, rfl, _, sent_emit h _⟩

theorem offer_said (h : a.cbs.send = true) (env : Env) :
    Stands a (serverOffer env a).1 ∧ (serverOffer env a).1.iaMethod = a.iaMethod ∧
      ∃ x, sent (serverOffer env a).2 = [[msgMethods, x]] := by
  unfold serverOffer
  dsimp only
  generalize (if a.cbs.methods = true then env.methods a.user else 0) = mask
  have hquiet : sent (if a.cbs.methods then [.methods a.user mask] else []) = [] := by
    split
    · rfl
    · rfl
  split
  · refine ⟨⟨rfl, rfl, rfl, id⟩, rfl, mask.toUInt8, ?_⟩
    rw [sent_append, hquiet, List.nil_append]
    exact sent_emit h _
  · refine ⟨⟨rfl, rfl, rfl, id⟩, rfl, mask.toUInt8, ?_⟩
    rw [sent_append, hquiet, List.nil_append]
    exact sent_emit h _

theorem end_said (a : NcAuth) :
    Stands a (iaEnd a).1 ∧ (iaEnd a).1.iaMethod = 0 ∧ sent (iaEnd a).2 = [] := by
  unfold iaEnd
  split
  · refine ⟨⟨rfl, rfl, rfl, id⟩, rfl, ?_⟩
    dsimp only
    split
    · rfl
    · rfl
  · exact ⟨⟨rfl, rfl, rfl, id⟩, rfl, rfl⟩

theorem ends_refuse (h : a.cbs.send = true) {b : NcAuth} (hb : Stands a b) {acts : List Act}
    (hq : sent acts = []) (spent : UInt32) :
    Ends a (andThen (b, acts) fun b => andThen (iaEnd b) fun b => serverDeny b spent) := by
  obtain ⟨h1, h2, h3⟩ := end_said b
  obtain ⟨h4, h5, x, h6⟩ := @deny_said (iaEnd b).1 (by rw [h1.cbs, hb.cbs]; exact h) spent
  refine ⟨(h4.after h1).after hb, h5.trans h2, _, .inr (.inl ⟨x, rfl⟩), ?_⟩
  rw [andThen, andThen, sent_append, sent_append, hq, h3, h6]
  rfl

theorem ends_deny (h : a.cbs.send = true) (hi : a.iaMethod = 0) {acts : List Act}
    (hq : sent acts = []) (spent : UInt32) : Ends a (andThen (a, acts) fun a => serverDeny a spent) := by
  obtain ⟨h1, h2, x, h3⟩ := deny_said h spent
  refine ⟨h1, h2.trans hi, _, .inr (.inl ⟨x, rfl⟩), ?_⟩
  rw [andThen, sent_append, hq, List.nil_append]
  exact h3

/-- The verdict `denied` ends the method. -/
theorem ends_denied (h : a.cbs.send = true) (env : Env) (form : Option Form)
    (token : Option (List UInt8)) : Ends a (verdict env a .denied form token) :=
  @ends_refuse a h { a with fired := true } ⟨rfl, rfl, rfl, id⟩ [.verdict a.iaMethod .denied] rfl
    a.iaMethod

/-- **What a verdict says.** -/
theorem verdict_spoke (h : a.cbs.send = true) (env : Env) (what : Verdict) (form : Option Form)
    (token : Option (List UInt8)) : Spoke w a (verdict env a what form token) := by
  have hq : sent [.verdict a.iaMethod what] = [] := rfl
  cases what with
  | more =>
    cases form with
    | none => exact .ends (ends_refuse h (.refl a) hq a.iaMethod)
    | some form =>
      unfold verdict
      dsimp only
      cases hf : encodeForm form ncFormMaxMsg with
      | none => exact .ends (@ends_refuse a h { a with fired := true } ⟨rfl, rfl, rfl, id⟩ _ hq a.iaMethod)
      | some msg =>
        refine .form (.refl a) rfl (formMsg_encode hf) ?_ ?_
        · rw [sent_append, hq, sent_emit h, List.nil_append]
        · rw [parkedBy_append, parkedBy_emit]
          rfl
  | wait =>
    refine .parks (.refl a) rfl ?_ ?_
    · rw [sent_append, hq, List.nil_append]
      exact sendWait_sent h form token
    · rw [parkedBy_append, parkedBy_sendWait]
      rfl
  | done =>
    refine .ends ?_
    unfold verdict
    dsimp only
    rw [andThen_mk]
    split
    · obtain ⟨h1, h2, x, h3⟩ := @offer_said { a with fired := false, iaMethod := 0 } h env
      refine ⟨h1.after ⟨rfl, rfl, rfl, id⟩, h2, _, .inl ⟨x, rfl⟩, ?_⟩
      rw [sent_append, hq, List.nil_append]
      exact h3
    · refine ⟨⟨rfl, rfl, rfl, id⟩, rfl, _, .inr (.inr rfl), ?_⟩
      rw [sent_append, hq, List.nil_append]
      exact sent_emit h _
  | denied => exact .ends (ends_denied h env form token)

theorem Spoke.after {b : NcAuth} {r : NcAuth × List Act} (h : Spoke w b r) (hb : Stands a b)
    (hi : b.iaMethod = a.iaMethod) : Spoke w a r := by
  cases h with
  | form hs hi' hm he hw => exact .form (hs.after hb) (hi'.trans hi) hm he hw
  | parks hs hi' he hw => exact .parks (hs.after hb) (hi'.trans hi) he hw
  | ends h => exact .ends ⟨h.stands.after hb, h.ended, h.tells⟩

theorem Spoke.prepend {r : NcAuth × List Act} (h : Spoke w a r) {acts : List Act} (hq : sent acts = [])
    (hw : parkedBy w acts = w) : Spoke w a (r.1, acts ++ r.2) := by
  have hsent (l : List Act) : sent (acts ++ l) = sent l := by rw [sent_append, hq, List.nil_append]
  have hparked (l : List Act) : parkedBy w (acts ++ l) = parkedBy w l := by
    rw [parkedBy_append, hw]
  cases h with
  | form hs hi hm he hw => exact .form hs hi hm ((hsent _).trans he) ((hparked _).trans hw)
  | parks hs hi he hw =>
    refine .parks hs hi ?_ ((hparked _).trans hw)
    rw [hsent]
    exact he
  | ends h =>
    refine .ends ⟨h.stands, h.ended, ?_⟩
    rw [hsent]
    exact h.tells

theorem replied_spoke (h : a.cbs.send = true) (env : Env) {acts : List Act} (hq : sent acts = [])
    (hw : parkedBy w acts = w) (r : Reply) : Spoke w a (replied env a acts r) := by
  obtain ⟨tok, he⟩ := issued_spec a r.token
  have hs : Spoke w a (verdict env { a with token := tok } r.what (some r.form) none) :=
    (@verdict_spoke { a with token := tok } w h env r.what (some r.form) none).after
      ⟨rfl, rfl, rfl, id⟩ rfl
  rw [replied, he, andThen_mk]
  exact hs.prepend hq hw

/-- **A greeting is answered.** -/
theorem feed_hello (hs : a.server = true) (hp : a.state = .pending) (hsend : a.cbs.send = true)
    (hg : a.greeted = false) (hi : a.iaMethod = 0) (hm : HelloMsg msg) :
    ∃ r, ncAuthFeed P env a msg = (true, r) ∧ Ends a r ∧ r.1.greeted = true := by
  obtain ⟨h1, h2, x, h3⟩ :=
    @offer_said { a with user := .ofBytes (msg.drop 2), greeted := true } hsend env
  refine ⟨_, feed_server hs hp hm.fits ?_,
    ⟨h1.after ⟨rfl, rfl, rfl, fun _ => rfl⟩, h2.trans hi, _, .inl ⟨x, rfl⟩, h3⟩, h1.greeted rfl⟩
  have hlen := hm.length
  have hbound := hm.bound
  unfold serverFeed
  dsimp only
  rw [if_pos hm.kind, if_neg (by rw [not_or, hg]; exact ⟨by decide, by omega⟩), if_neg (by omega)]

theorem ends_login (h : a.cbs.send = true) (hi : a.iaMethod = 0) {acts : List Act}
    (hq : sent acts = []) : Ends a ({ a with state := .ok }, acts ++ emit a [msgOk]) := by
  refine ⟨⟨rfl, rfl, rfl, id⟩, hi, _, .inr (.inr rfl), ?_⟩
  rw [sent_append, hq, List.nil_append]
  exact sent_emit h _

theorem ends_pubkey (h : a.cbs.send = true) (hi : a.iaMethod = 0) (pk : Key) (sig : Bytes 64) :
    Ends a (serverPubkey P env a pk sig) := by
  have hq (d pk : Key) (v known : Bool) : sent (.checkSig d pk v ::
      (if v && a.cbs.checkKey then [.checkKey a.user pk known] else [])) = [] := by
    split
    · rfl
    · rfl
  unfold serverPubkey
  split
  · exact @ends_deny a h hi [] rfl 0
  dsimp only
  split
  · exact ends_login h hi (hq ..)
  · exact ends_deny h hi (hq ..) mPubkey

theorem ends_password (h : a.cbs.send = true) (hi : a.iaMethod = 0) (pass : CStr) :
    Ends a (serverPassword env a pass) := by
  have hq (ok : Bool) :
      sent (if a.cbs.checkPassword then [.checkPassword a.user pass ok] else []) = [] := by
    split
    · rfl
    · rfl
  unfold serverPassword
  split
  · exact @ends_deny a h hi [] rfl 0
  dsimp only
  split
  · exact ends_login h hi (hq ..)
  · exact ends_deny h hi (hq ..) mPassword

/-- **A credential is answered.** -/
theorem feed_credential (hs : a.server = true) (hp : a.state = .pending) (hsend : a.cbs.send = true)
    (hg : a.greeted = true) (hi : a.iaMethod = 0) (hm : CredentialMsg msg) :
    ∃ r, ncAuthFeed P env a msg = (true, r) ∧ Ends a r := by
  cases hm with
  | pubkey hk hl =>
    refine ⟨serverPubkey P env a (bytesAt 32 msg 1) (bytesAt 64 msg 33),
      feed_server hs hp ⟨by omega, ?_⟩ ?_, ends_pubkey hsend hi _ _⟩
    · rw [hk, hl]
      decide
    · unfold serverFeed
      dsimp only
      rw [if_neg (by rw [hk]; decide), if_pos hk, if_neg (by simp [hg, hl])]
  | password hk hl hb =>
    simp only [ncAuthMaxPass] at hb
    refine ⟨serverPassword env a (.ofBytes (msg.drop 2)), feed_server hs hp ⟨by omega, ?_⟩ ?_,
      ends_password hsend hi _⟩
    · rw [hk, hl]
      change _ ≤ 256
      omega
    · unfold serverFeed
      dsimp only
      rw [if_neg (by rw [hk]; decide), if_neg (by rw [hk]; decide), if_pos hk,
        if_neg (by rw [not_or, hg]; exact ⟨by decide, by omega⟩),
        if_neg (by simp only [ncAuthMaxPass]; omega)]

/-- **A method is opened**, or refused at once. -/
theorem feed_begin (hs : a.server = true) (hp : a.state = .pending) (hsend : a.cbs.send = true)
    (hg : a.greeted = true) (hi : a.iaMethod = 0) (hm : BeginMsg msg) (w : Bool) :
    ∃ r, ncAuthFeed P env a msg = (true, r) ∧
      (Ends a r ∨ a.cbs.start = true ∧ ∃ m ≠ 0, Spoke w { a with iaMethod := m, fired := false } r) := by
  obtain ⟨p, hread, hmethod⟩ := hm.decodes
  refine ⟨iaBegin env a (UInt32.ofNat p.method.toNat) (p.tok.getD []), ?_, ?_⟩
  · refine feed_server hs hp hm.fits ?_
    unfold serverFeed iaServer
    dsimp only
    rw [if_neg (by rw [hm.kind]; decide), if_neg (by rw [hm.kind]; decide),
      if_neg (by rw [hm.kind]; decide), if_pos hm.kind, if_neg (by simp [hg, hi]), hread]
    exact if_neg fun h => hmethod.elim h.1 h.2
  generalize UInt32.ofNat p.method.toNat = m at hmethod
  generalize p.tok.getD [] = tok
  unfold iaBegin
  split
  · exact .inl (@ends_deny a hsend hi [] rfl 0)
  rename_i hstart
  have hstart : a.cbs.start = true := by
    by_contra hc
    exact hstart (.inr (by simpa using hc))
  refine .inr ⟨hstart, m, method_ne_zero hmethod, ?_⟩
  dsimp only
  split
  · split
    · rw [andThen_assoc]
      exact .ends (@ends_refuse { a with iaMethod := m, fired := false } hsend _ (.refl _)
        [.begun m] rfl m)
    · exact @replied_spoke { a with iaMethod := m, fired := false } w hsend env _ rfl rfl _
  · exact @replied_spoke { a with iaMethod := m, fired := false } w hsend env _ rfl rfl _

/-- **Answers are taken** while a method runs. -/
theorem feed_submit (hs : a.server = true) (hp : a.state = .pending) (hsend : a.cbs.send = true)
    (hsub : a.cbs.submit = true) {cap : Nat} (hbuf : a.buf = some cap) (hcap : Ample cap)
    (hi : a.iaMethod ≠ 0) (hm : SubmitMsg msg) (w : Bool) :
    ∃ r, ncAuthFeed P env a msg = (true, r) ∧ Spoke w a r := by
  obtain ⟨strings, hd⟩ := Option.isSome_iff_exists.1 (hm.decodes cap hcap)
  refine ⟨iaSubmit env a strings, feed_server hs hp hm.fits ?_, ?_⟩
  · unfold serverFeed iaServer
    dsimp only
    rw [if_neg (by rw [hm.kind]; decide), if_neg (by rw [hm.kind]; decide),
      if_neg (by rw [hm.kind]; decide), if_neg (by rw [hm.kind]; decide), if_pos hm.kind,
      if_neg (by simp [hi, hsub]), hbuf, Option.bind_some, hd]
    rfl
  · have h := @replied_spoke { a with strings := [] } w hsend env [.submit] rfl rfl
      (env.submit strings)
    exact h.after ⟨rfl, rfl, rfl, id⟩ rfl

/-- **A method that runs is cancelled.** -/
theorem feed_cancel (hs : a.server = true) (hp : a.state = .pending) (hsend : a.cbs.send = true)
    (hi : a.iaMethod ≠ 0) : ∃ r, ncAuthFeed P env a [msgIaCancel] = (true, r) ∧ Ends a r := by
  obtain ⟨h1, h2, h3⟩ := end_said a
  obtain ⟨h4, h5, x, h6⟩ := @offer_said (iaEnd a).1 (by rw [h1.cbs]; exact hsend) env
  refine ⟨andThen (iaEnd a) (serverOffer env), feed_server hs hp ⟨by simp, by simp +decide⟩ ?_,
    h4.after h1, h5.trans h2, _, .inl ⟨x, rfl⟩, ?_⟩
  · unfold serverFeed iaServer
    dsimp only
    rw [if_neg (by decide), if_neg (by decide), if_neg (by decide), if_neg (by decide),
      if_neg (by decide), if_pos (by decide), if_neg (by simp [hi])]
  · rw [andThen, sent_append, h3, List.nil_append]
    exact h6

theorem feed_late (hs : a.server = true) (hi : a.iaMethod = 0)
    (hm : byte msg 0 = msgIaSubmit ∨ byte msg 0 = msgIaCancel) : (ncAuthFeed P env a msg).1 = false := by
  have hnone : serverFeed P env a msg = none := by
    unfold serverFeed iaServer
    dsimp only
    rcases hm with hm | hm
    · rw [if_neg (by rw [hm]; decide), if_neg (by rw [hm]; decide), if_neg (by rw [hm]; decide),
        if_neg (by rw [hm]; decide), if_pos hm, if_pos (.inl hi)]
    · rw [if_neg (by rw [hm]; decide), if_neg (by rw [hm]; decide), if_neg (by rw [hm]; decide),
        if_neg (by rw [hm]; decide), if_neg (by rw [hm]; decide), if_pos hm, if_pos (.inr hi)]
  unfold ncAuthFeed
  generalize (if msgIsBulk (byte msg 0) = true then ncFormMaxMsg else ncAuthMaxMsg) = cap
  split
  · rfl
  split
  · rfl
  · rw [hnone]

end

end Netchan.Auth
