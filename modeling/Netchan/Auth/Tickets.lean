import Netchan.Auth.Messages

/-!
# Resumption tokens

A token goes to the client in an `IA_WAIT` and comes back in an `IA_BEGIN`. Both messages are built in
arrays that are too small for the longest: the first leaves no room for the type of the message, the
second none for the tag and the length of the token. `send_wait` then sends nothing, and
`nc_auth_i_ia_choose` ends the conversation.

* `wait_announced`: a wait is announced exactly when the note or the token is shorter than its maximum.
* `token_presented`: a token is presented exactly when it is three bytes shorter than its maximum.
-/

namespace Netchan.Auth

open Lib Idl Crypto

/-! ## Waiting -/

/-- `nc_auth_waiting`. -/
def ncAuthWaiting (a : NcAuth) : Option CStr := if a.server then none else a.waitNote

/-- `nc_auth_pending_token` into an array of `len` bytes; `none` is a return of 0. -/
def ncAuthPendingToken (a : NcAuth) (len : Nat) : Option (List UInt8) :=
  if a.token.length = 0 ∨ len < a.token.length then none else some a.token

/-- The note that `send_wait` reads from the form. -/
def noteOf (form : Option Form) : CStr := (form.bind (·.note)).getD emptyStr

/-- A token as the server may hold it. -/
def TokenLen (tok : List UInt8) : Prop := 1 ≤ tok.length ∧ tok.length ≤ ncFormMaxToken

instance (tok : List UInt8) : Decidable (TokenLen tok) := inferInstanceAs (Decidable (_ ∧ _))

/-- The `IA_WAIT` with a note and a token. -/
def waitMessage (note : CStr) (tok : List UInt8) : List UInt8 :=
  msgIaWait :: [(fNote, note.val.take ncFormMaxLabel), (fToken, tok)].flatMap tagged

section
variable {a b : NcAuth} {form : Option Form} {note : CStr} {tok : List UInt8}

/-- The array holds a note and a token of 191 bytes together. -/
theorem wait_write (note : CStr) (ht : TokenLen tok) :
    (do
      let msg ← msWriteTagBytes [msgIaWait] (3 + ncFormMaxLabel + 3 + ncFormMaxToken) fNote
        (note.val.take ncFormMaxLabel)
      if tok.length > 0 ∧ tok.length ≤ ncFormMaxToken then
        msWriteTagBytes msg (3 + ncFormMaxLabel + 3 + ncFormMaxToken) fToken tok
      else some msg) =
      if note.val.length < ncFormMaxLabel ∨ tok.length < ncFormMaxToken then
        some (waitMessage note tok)
      else none := by
  obtain ⟨ht1, ht2⟩ := ht
  have hmin : (note.val.take ncFormMaxLabel).length = min ncFormMaxLabel note.val.length :=
    List.length_take
  have hpos : tok.length > 0 ∧ tok.length ≤ ncFormMaxToken := ⟨ht1, ht2⟩
  simp only [ncFormMaxLabel, ncFormMaxToken] at *
  rw [writeTagBytes_fits (by rw [List.length_singleton]; omega)]
  simp only [Option.bind_eq_bind, Option.bind_some]
  rw [if_pos hpos]
  by_cases h : note.val.length < 128 ∨ tok.length < 64
  · rw [if_pos h, writeTagBytes_fits]
    · simp only [waitMessage, List.flatMap_cons, List.flatMap_nil, List.append_nil,
        List.cons_append, List.nil_append]
    · rw [List.length_append, length_tagged, List.length_singleton]
      dsimp only
      omega
  · rw [if_neg h, writeTagBytes_full]
    rw [List.length_append, length_tagged, List.length_singleton]
    dsimp only
    omega

/-- **What `send_wait` sends**: nothing, if neither the note nor the token is shorter than its
maximum. -/
theorem sendWait_eq {token : Option (List UInt8)} (hn : noteOf form = note) (ht : TokenLen tok)
    (he : token = some tok ∨ token = none ∧ a.token = tok) :
    sendWait a form token =
      if note.val.length < ncFormMaxLabel ∨ tok.length < ncFormMaxToken then
        emit a (waitMessage note tok)
      else [] := by
  have hnote : ((form.bind (·.note)).map (·.val)).getD [] = note.val := by
    rw [← hn, noteOf]
    cases form.bind (·.note) with
    | none => rfl
    | some n => rfl
  have hwrite := wait_write note ht
  unfold sendWait
  rcases he with rfl | ⟨rfl, rfl⟩
  · dsimp only
    rw [hnote, hwrite]
    by_cases h : note.val.length < ncFormMaxLabel ∨ tok.length < ncFormMaxToken
    · rw [if_pos h, if_pos h]
    · rw [if_neg h, if_neg h]
  · have hpos : a.token.length > 0 := ht.1
    dsimp only
    rw [hnote, if_pos hpos, hwrite]
    by_cases h : note.val.length < ncFormMaxLabel ∨ a.token.length < ncFormMaxToken
    · rw [if_pos h, if_pos h]
    · rw [if_neg h, if_neg h]

theorem readTags_waitMessage (ht : TokenLen tok) :
    readTags waitBody (waitMessage note tok) {} =
      some { note := some (note.val.take ncFormMaxLabel), tok := some tok } := by
  obtain ⟨-, ht⟩ := ht
  simp only [ncFormMaxToken] at ht
  refine @readTags_wait (waitMessage note tok)
    [(fNote, note.val.take ncFormMaxLabel), (fToken, tok)] rfl fun x hx => ?_
  simp only [List.mem_cons, List.not_mem_nil, or_false] at hx
  rcases hx with rfl | rfl
  · refine ⟨.inl rfl, ?_⟩
    simp only [List.length_take, ncFormMaxLabel]
    omega
  · exact ⟨.inr rfl, by dsimp only; omega⟩

/-- A client that runs the method, with room for a note. -/
structure Interactive (c : NcAuth) : Prop where
  client : c.server = false
  pending : c.state = .pending
  method : c.iaMethod ≠ 0
  going : c.cancelling = false
  room : ∃ cap, c.buf = some cap ∧ ncFormMaxLabel + 1 ≤ cap

theorem parked_noted {c : NcAuth} (hc : Interactive c) (ht : TokenLen tok) :
    ∃ strings, c.parked { note := some (note.val.take ncFormMaxLabel), tok := some tok } =
      { c with token := tok, waitNote := some (CStr.take note ncFormMaxLabel), need := .nothing
               strings } := by
  obtain ⟨cap, hbuf, hcap⟩ := hc.room
  have hmin : (note.val.take ncFormMaxLabel).length = min ncFormMaxLabel note.val.length :=
    List.length_take
  have har : arenaStr { cap } (note.val.take ncFormMaxLabel) =
      some { cap, used := 0 + (note.val.take ncFormMaxLabel).length + 1
             text := [] ++ (note.val.take ncFormMaxLabel ++ [0]) } := if_neg (by dsimp only; omega)
  have hof : CStr.ofBytes (note.val.take ncFormMaxLabel) = CStr.take note ncFormMaxLabel :=
    ofBytes_val (CStr.take note ncFormMaxLabel)
  refine ⟨note.val.take ncFormMaxLabel ++ [0], ?_⟩
  simp only [NcAuth.parked, NcAuth.kept]
  rw [if_pos ⟨ht.1, ht.2⟩]
  simp only [NcAuth.noted, hbuf, har, hof, List.nil_append]

/-- The wait reached the client. -/
def Announced (P : Monocypher) (acts : List Act) (note : CStr) (tok : List UInt8) : Prop :=
  ∃ msg, sent acts = [msg] ∧ byte msg 0 = msgIaWait ∧ ∀ c env, Interactive c →
    ∃ c', ncAuthFeed P env c msg = (true, c', []) ∧
      ncAuthWaiting c' = some (CStr.take note ncFormMaxLabel) ∧
      ∀ len ≥ tok.length, ncAuthPendingToken c' len = some tok

/-- The ways to a wait with a token: it is passed to `nc_auth_server_resume`, or it was stored with
`nc_auth_server_token` before, by the callback that waits or earlier. -/
inductive Parks (env : Env) (b : NcAuth) (note : CStr) (tok : List UInt8) : NcAuth × List Act → Prop
  | passed {form : Option Form} (hn : noteOf form = note) :
    Parks env b note tok (ncAuthServerResume env b .wait form (some tok))
  | stored {form : Option Form} (hn : noteOf form = note) (ht : b.token = tok) :
    Parks env b note tok (ncAuthServerResume env b .wait form none)
  | replied {acts : List Act} {r : Reply} (hq : sent acts = []) (hw : r.what = .wait)
    (hn : noteOf (some r.form) = note) (ht : (b.issued r.token).token = tok) : Parks env b note tok (replied env b acts r)

theorem announced_emit {P : Monocypher} {acts : List Act} (hq : sent acts = [])
    (hsend : b.cbs.send = true) (ht : TokenLen tok) :
    Announced P (acts ++ emit b (waitMessage note tok)) note tok := by
  have hkind : byte (waitMessage note tok) 0 = msgIaWait := rfl
  have hlen : (waitMessage note tok).length ≤ ncAuthMaxMsg := by
    obtain ⟨-, ht⟩ := ht
    simp only [ncFormMaxToken] at ht
    simp only [waitMessage, List.flatMap_cons, List.flatMap_nil, List.append_nil, List.length_cons,
      List.length_append, length_tagged, List.length_take, ncFormMaxLabel, ncAuthMaxMsg]
    omega
  refine ⟨waitMessage note tok, ?_, hkind, fun c env hc => ?_⟩
  · rw [sent_append, hq, sent_emit hsend, List.nil_append]
  obtain ⟨strings, he⟩ := @parked_noted note tok c hc ht
  have hfeed : clientFeed c (waitMessage note tok) =
      some (c.parked { note := some (note.val.take ncFormMaxLabel), tok := some tok }, []) := by
    rw [clientFeed_ia (.inr hkind), iaClient, if_neg (by rw [hkind]; decide), if_pos hkind,
      if_neg (by rw [hc.going]; decide), if_neg hc.method, readTags_waitMessage ht]
    rfl
  rw [he] at hfeed
  refine ⟨_, feed_client hc.client hc.pending ⟨by simp [waitMessage], by rw [hkind]; exact hlen⟩ hfeed,
    ?_, fun len hl => ?_⟩
  · simp [ncAuthWaiting, hc.client]
  · have hpos := ht.1
    rw [ncAuthPendingToken, if_neg]
    dsimp only
    omega

theorem announced_sendWait {P : Monocypher} {token : Option (List UInt8)} {acts : List Act}
    (hq : sent acts = []) (hsend : b.cbs.send = true) (hn : noteOf form = note) (ht : TokenLen tok)
    (he : token = some tok ∨ token = none ∧ b.token = tok) :
    Announced P (acts ++ sendWait b form token) note tok ↔
      note.val.length < ncFormMaxLabel ∨ tok.length < ncFormMaxToken := by
  rw [sendWait_eq hn ht he]
  constructor
  · intro h
    by_contra hlong
    obtain ⟨msg, hmsg, -⟩ := h
    rw [if_neg hlong, List.append_nil, hq] at hmsg
    cases hmsg
  · intro h
    rw [if_pos h]
    exact announced_emit hq hsend ht

theorem verdict_wait (env : Env) (form : Option Form) (token : Option (List UInt8)) :
    verdict env b .wait form token = (b, [.verdict b.iaMethod .wait] ++ sendWait b form token) := rfl

theorem resume_verdict (env : Env) (hs : b.server = true) (hp : b.state = .pending)
    (hm : b.iaMethod ≠ 0) (what : Verdict) (form : Option Form) (token : Option (List UInt8)) :
    ncAuthServerResume env b what form token = verdict env b what form token := by
  unfold ncAuthServerResume
  rw [if_neg (by simp [hs, hp, hm])]

end

/-- **A wait with a token is announced** exactly when the note or the token is shorter than its
maximum. -/
theorem wait_announced {P : Monocypher} {env : Env} {b : NcAuth} {note : CStr} {tok : List UInt8}
    {r : NcAuth × List Act} (hs : b.server = true) (hp : b.state = .pending) (hm : b.iaMethod ≠ 0)
    (hsend : b.cbs.send = true) (ht : TokenLen tok) (h : Parks env b note tok r) :
    Announced P r.2 note tok ↔ note.val.length < ncFormMaxLabel ∨ tok.length < ncFormMaxToken := by
  cases h with
  | passed hn =>
    rw [resume_verdict env hs hp hm, verdict_wait]
    exact announced_sendWait rfl hsend hn ht (.inl rfl)
  | stored hn hb =>
    rw [resume_verdict env hs hp hm, verdict_wait]
    exact announced_sendWait rfl hsend hn ht (.inr ⟨rfl, hb⟩)
  | @replied acts rep hq hw hn hb =>
    obtain ⟨tok', he⟩ := issued_spec b rep.token
    rw [replied, andThen, hw, verdict_wait, ← List.append_assoc]
    refine announced_sendWait ?_ ?_ hn ht (.inr ⟨rfl, hb⟩)
    · rw [sent_append, hq]
      rfl
    · rw [he]
      exact hsend

/-- A registration that waits for an operator. -/
theorem wait_announced_sample :
    let b : NcAuth := { server := true, iaMethod := mRegister, cbs := { send := true } }
    let note : CStr := ⟨chars ['s', 'o', 'o', 'n'], by decide⟩
    Announced sampleMonocypher
      (ncAuthServerResume noEnv b .wait (some { note := some note }) (some (.replicate 64 7))).2 note
      (.replicate 64 7) := by
  intro b note
  exact (@wait_announced sampleMonocypher noEnv b note (.replicate 64 7) _ rfl rfl (by decide) rfl
    (by decide) (.passed rfl)).2 (.inl (by decide))

/-- The longest note and the longest token: the server waits and the client is told nothing. -/
theorem longest_wait_silent :
    let b : NcAuth := { server := true, iaMethod := mRegister, cbs := { send := true } }
    let note : CStr := ⟨.replicate 128 120, by decide⟩
    let tok : List UInt8 := .replicate 64 7
    let r := ncAuthServerResume noEnv b .wait (some { note := some note }) (some tok)
    TokenLen tok ∧ r.1.state = .pending ∧ r.1.iaMethod = mRegister ∧ sent r.2 = [] ∧
      ¬ Announced sampleMonocypher r.2 note tok := by
  intro b note tok r
  have hsent : sent r.2 = [] := by decide +kernel
  refine ⟨by decide, by decide +kernel, by decide +kernel, hsent, fun h => ?_⟩
  obtain ⟨msg, hmsg, -⟩ := h
  rw [hsent] at hmsg
  cases hmsg

/-! ## Coming back -/

/-- The `IA_BEGIN` with a method and a token. -/
def beginMessage (method : UInt32) (tok : List UInt8) : List UInt8 :=
  [msgIaBegin, fMethod <<< 3 ||| msWire8, method.toUInt8] ++ [(fToken, tok)].flatMap tagged

section
variable {a b : NcAuth} {tok : List UInt8} {method : UInt32}

/-- The method that is opened: the registration, if it is wanted and offered. -/
def openedBy (want : UInt32) : UInt32 := if want &&& mRegister ≠ 0 then mRegister else mInteractive

theorem openedBy_cases (want : UInt32) : openedBy want = mRegister ∨ openedBy want = mInteractive := by
  unfold openedBy
  split
  · exact .inl rfl
  · exact .inr rfl

theorem begin_write (m : UInt32) (ht : 1 ≤ tok.length) :
    (do
      let msg ← msWriteTagU8 [msgIaBegin] (3 + ncFormMaxToken) fMethod m.toUInt8
      if tok.length > 0 then msWriteTagBytes msg (3 + ncFormMaxToken) fToken tok else some msg) =
      if tok.length ≤ ncFormMaxToken - 3 then some (beginMessage m tok) else none := by
  have hpos : tok.length > 0 := ht
  have h1 : msWriteTagU8 [msgIaBegin] (3 + ncFormMaxToken) fMethod m.toUInt8 =
      some [msgIaBegin, fMethod <<< 3 ||| msWire8, m.toUInt8] := rfl
  rw [h1]
  simp only [Option.bind_eq_bind, Option.bind_some]
  rw [if_pos hpos]
  simp only [ncFormMaxToken]
  by_cases h : tok.length ≤ 61
  · rw [if_pos h, writeTagBytes_fits]
    · simp only [beginMessage, List.flatMap_cons, List.flatMap_nil, List.append_nil]
    · simp only [List.length_cons, List.length_nil]
      omega
  · rw [if_neg h, writeTagBytes_full]
    simp only [List.length_cons, List.length_nil]
    omega

/-- **What `nc_auth_i_ia_choose` sends** for an offered method. -/
theorem iaChoose_eq (hw : a.chosen &&& (mRegister ||| mInteractive) &&& a.avail ≠ 0)
    (ht : 1 ≤ a.token.length) :
    let m := openedBy (a.chosen &&& (mRegister ||| mInteractive) &&& a.avail)
    iaChoose a = if a.token.length ≤ ncFormMaxToken - 3 then
        ({ a with chose := false, iaMethod := m, need := .nothing }, emit a (beginMessage m a.token))
      else ({ a with chose := false, iaMethod := m, state := .denied }, []) := by
  intro m
  have hwant : a.chosen &&& (mRegister ||| mInteractive) ≠ 0 := by
    intro h
    rw [h, UInt32.zero_and] at hw
    exact hw rfl
  have hchosen : a.chosen ≠ 0 := by
    intro h
    rw [h, UInt32.zero_and] at hwant
    exact hwant rfl
  have hwrite := begin_write m ht
  unfold iaChoose
  dsimp only
  rw [if_neg hchosen, if_neg (fun h => hw h.2), if_neg hwant]
  rw [show (if a.chosen &&& (mRegister ||| mInteractive) &&& a.avail &&& mRegister ≠ 0 then mRegister
    else mInteractive) = m from rfl]
  rw [hwrite]
  by_cases h : a.token.length ≤ ncFormMaxToken - 3
  · rw [if_pos h, if_pos h]
    rfl
  · rw [if_neg h, if_neg h]

/-- A server that waits for a method to be opened. -/
structure Idle (b : NcAuth) : Prop where
  server : b.server = true
  pending : b.state = .pending
  greeted : b.greeted = true
  idle : b.iaMethod = 0

theorem beginMessage_delivered {P : Monocypher} {env : Env} (hb : Idle b)
    (hm : method = mRegister ∨ method = mInteractive)
    (hlen : tok.length ≤ ncFormMaxToken - 3) :
    ncAuthFeed P env b (beginMessage method tok) = (true, iaBegin env b method tok) := by
  have hkind : byte (beginMessage method tok) 0 = msgIaBegin := rfl
  have hsize : (beginMessage method tok).length = 6 + tok.length := by
    simp only [beginMessage, List.flatMap_cons, List.flatMap_nil, List.append_nil, List.length_cons,
      List.length_append, length_tagged, List.length_nil]
    omega
  have hread : readTags beginBody (beginMessage method tok) {} =
      some { method := method.toUInt8, tok := some tok } := by
    refine @readTags_begin method.toUInt8 (beginMessage method tok) [(fToken, tok)] rfl (fun x hx => ?_)
      (by simp)
    rw [List.mem_singleton.1 hx]
    simp only [ncFormMaxToken] at hlen
    exact ⟨rfl, by dsimp only; omega⟩
  have hback : UInt32.ofNat method.toUInt8.toNat = method := by
    rcases hm with rfl | rfl
    · rfl
    · rfl
  simp only [ncFormMaxToken] at hlen
  refine feed_server hb.server hb.pending ⟨by omega, ?_⟩ ?_
  · rw [hkind, hsize]
    change 6 + tok.length ≤ ncAuthMaxMsg
    simp only [ncAuthMaxMsg]
    omega
  · rw [serverFeed_ia (.inl hkind), iaServer, if_pos hkind, if_neg (by simp [hb.greeted, hb.idle]),
      hread]
    dsimp only
    rw [hback, if_neg (by tauto)]
    rfl

/-- The token reached the server, with the method that was chosen. -/
def Presented (P : Monocypher) (r : NcAuth × List Act) (method : UInt32) (tok : List UInt8) : Prop :=
  r.1.state = .pending ∧ r.1.iaMethod &&& method ≠ 0 ∧ ∃ msg, sent r.2 = [msg] ∧
    byte msg 0 = msgIaBegin ∧
    ∀ b env, Idle b → ncAuthFeed P env b msg = (true, iaBegin env b r.1.iaMethod tok)

/-- The ways to choose an offered method: when it is asked for, or before an offer or a refusal that
leaves it. -/
inductive Chooses (a : NcAuth) (method : UInt32) : NcAuth × List Act → Prop
  | asked (hn : a.need = .method)
    (hw : method &&& (mRegister ||| mInteractive) &&& a.avail ≠ 0) :
    Chooses a method (ncAuthSupplyMethod a method)
  | ahead {x : UInt8} {r : NcAuth × List Act} (hc : a.chose = true) (hm : a.chosen = method)
    (hw : method &&& (mRegister ||| mInteractive) &&& UInt32.ofNat x.toNat ≠ 0)
    (hr : clientFeed a [msgMethods, x] = some r) : Chooses a method r
  | refused {x : UInt8} {r : NcAuth × List Act} (hc : a.chose = true) (hm : a.chosen = method)
    (hw : method &&& (mRegister ||| mInteractive) &&& (a.avail &&& UInt32.ofNat x.toNat) ≠ 0)
    (hr : clientFeed a [msgFail, x] = some r) : Chooses a method r

theorem clientTryNext_chosen (hp : a.state = .pending) (ha : a.asked = false) (hc : a.chose = true)
    (hw : a.chosen &&& (mRegister ||| mInteractive) &&& a.avail ≠ 0) :
    clientTryNext a = iaChoose a := by
  have hoffered : a.avail &&& (mRegister ||| mInteractive) ≠ 0 := by
    intro h0
    rw [UInt32.and_assoc, UInt32.and_comm _ a.avail, h0, UInt32.and_zero] at hw
    exact hw rfl
  unfold clientTryNext
  rw [if_neg (not_not.2 hp), if_pos ⟨by rw [ha]; rfl, hoffered⟩, if_pos hc]

theorem Chooses.choose {r : NcAuth × List Act} (hs : a.server = false) (hp : a.state = .pending)
    (h : Chooses a method r) : ∃ a', r = iaChoose a' ∧ a'.chosen = method ∧
      a'.chosen &&& (mRegister ||| mInteractive) &&& a'.avail ≠ 0 ∧ a'.token = a.token ∧
      a'.state = .pending ∧ a'.cbs = a.cbs := by
  cases h with
  | asked hn hw =>
    refine ⟨{ a with chosen := method, chose := true, need := .nothing }, ?_, rfl, hw, rfl, hp, rfl⟩
    unfold ncAuthSupplyMethod
    rw [if_neg (by rw [hs]; decide)]
    exact if_pos hn
  | @ahead x r hc hm hw hr =>
    have hx : UInt32.ofNat x.toNat ≠ 0 := by
      intro h0
      rw [h0, UInt32.and_zero] at hw
      exact hw rfl
    let a' : NcAuth := { a with
      registered := a.registered || (a.iaMethod = mRegister && !a.cancelling)
      iaMethod := 0, cancelling := false, asked := false, waitNote := none
      avail := UInt32.ofNat x.toNat, offered := UInt32.ofNat x.toNat }
    have hw' : a'.chosen &&& (mRegister ||| mInteractive) &&& a'.avail ≠ 0 := by
      rw [← hm] at hw
      exact hw
    refine ⟨a', ?_, hm, hw', rfl, hp, rfl⟩
    have hb : byte [msgMethods, x] 0 = msgMethods := rfl
    unfold clientFeed at hr
    rw [if_pos hb, if_neg (by simp)] at hr
    dsimp only at hr
    rw [if_neg (show ¬ UInt32.ofNat (byte [msgMethods, x] 1).toNat = 0 from hx)] at hr
    exact (Option.some.inj hr).symm.trans (clientTryNext_chosen hp rfl hc hw')
  | @refused x r hc hm hw hr =>
    let a' : NcAuth := { a with
      avail := a.avail &&& UInt32.ofNat x.toNat, iaMethod := 0, cancelling := false, asked := false }
    have hw' : a'.chosen &&& (mRegister ||| mInteractive) &&& a'.avail ≠ 0 := by
      rw [← hm] at hw
      exact hw
    refine ⟨a', ?_, hm, hw', rfl, hp, rfl⟩
    have hb : byte [msgFail, x] 0 = msgFail := rfl
    unfold clientFeed at hr
    rw [if_neg (by rw [hb]; decide), if_neg (by rw [hb]; decide), if_pos hb, if_neg (by simp)] at hr
    exact (Option.some.inj hr).symm.trans (clientTryNext_chosen hp rfl hc hw')

theorem openedBy_wanted {avail : UInt32} (hw : method &&& (mRegister ||| mInteractive) &&& avail ≠ 0) :
    openedBy (method &&& (mRegister ||| mInteractive) &&& avail) &&& method ≠ 0 := by
  generalize hwant : method &&& (mRegister ||| mInteractive) &&& avail = want at *
  have hsub (m : UInt32) (h : m &&& method = 0) : want &&& m = 0 := by
    rw [← hwant, UInt32.and_comm _ m, ← UInt32.and_assoc, ← UInt32.and_assoc, h, UInt32.zero_and,
      UInt32.zero_and]
  have hself : want = want &&& mRegister ||| want &&& mInteractive := by
    have hdist : want &&& (mRegister ||| mInteractive) = want &&& mRegister ||| want &&& mInteractive :=
      UInt32.toBitVec_inj.1 BitVec.and_or_distrib_left
    rw [← hdist]
    conv_rhs => rw [← hwant, UInt32.and_assoc, UInt32.and_comm avail, ← UInt32.and_assoc,
      UInt32.and_assoc method, UInt32.and_self]
    exact hwant.symm
  unfold openedBy
  split
  · rename_i h8
    exact fun h => h8 (hsub mRegister h)
  · rename_i h8
    intro h4
    refine hw ?_
    rw [hself, not_not.1 h8, hsub mInteractive h4]
    rfl

end

/-- **A token is presented** exactly when it is three bytes shorter than its maximum. -/
theorem token_presented {P : Monocypher} {a : NcAuth} {method : UInt32} {r : NcAuth × List Act}
    (hs : a.server = false) (hp : a.state = .pending) (hsend : a.cbs.send = true)
    (ht : TokenLen a.token) (h : Chooses a method r) :
    Presented P r method a.token ↔ a.token.length ≤ ncFormMaxToken - 3 := by
  obtain ⟨a', rfl, rfl, hw, htok, hst, hcbs⟩ := h.choose hs hp
  rw [← htok] at ht ⊢
  rw [iaChoose_eq hw ht.1]
  constructor
  · intro hpres
    by_contra hlong
    rw [if_neg hlong] at hpres
    cases hpres.1
  · intro hlen
    rw [if_pos hlen]
    have hsend' : a'.cbs.send = true := by rw [hcbs]; exact hsend
    refine ⟨hst, openedBy_wanted hw, _, sent_emit hsend' _, rfl, fun b env hb => ?_⟩
    exact beginMessage_delivered hb (openedBy_cases _) hlen

theorem token_presented_sample :
    let a : NcAuth := { need := .method, avail := mRegister, cbs := { send := true }
                        token := .replicate 61 7 }
    Presented sampleMonocypher (ncAuthSupplyMethod a mRegister) mRegister (.replicate 61 7) := by
  intro a
  exact (@token_presented sampleMonocypher a mRegister _ rfl rfl rfl (by decide)
    (.asked rfl (by decide))).2 (by decide)

/-- A token of 62 bytes is stored, and ends the conversation. -/
theorem long_token_denied :
    let a : NcAuth := ncAuthResumePending
      { need := .method, avail := mRegister, cbs := { send := true } } (.replicate 62 7)
    let r := ncAuthSupplyMethod a mRegister
    a.token = .replicate 62 7 ∧ r.1.state = .denied ∧ r.2 = [] ∧
      ¬ Presented sampleMonocypher r mRegister a.token := by
  intro a r
  have hst : r.1.state = .denied := by decide +kernel
  refine ⟨rfl, hst, by decide +kernel, fun h => ?_⟩
  exact absurd (hst.symm.trans h.1) (by decide)

end Netchan.Auth
