import Netchan.Auth.Form
import Netchan.Crypto.Core

/-!
# nc_auth

The conversation of `auth/nc_auth.c` and its interactive method in `auth/nc_auth_ia.c`.

* `NcAuth` is `struct nc_auth`, for either side. Of a callback the struct holds whether it is there;
  what the application's callbacks answer is `Env`, an argument of each call, so that they may keep
  state of their own. A callback may issue a token with `nc_auth_server_token` before it returns.
* A function returns the struct and the `Act`s in order: the messages it sends and the callbacks it
  makes. `crypto_eddsa_check` is an act too.
* `char user[]` is read as a C string everywhere, so it is a `CStr` here.
* `strings` is the text in the caller's buffer that `a->strings` counts.
-/

namespace Netchan.Auth

open Lib Idl Crypto

/-! ## Constants -/

abbrev msgHello : UInt8 := 0x10
abbrev msgMethods : UInt8 := 0x11
abbrev msgPubkey : UInt8 := 0x12
abbrev msgPassword : UInt8 := 0x13
abbrev msgOk : UInt8 := 0x14
abbrev msgFail : UInt8 := 0x15
abbrev msgIaBegin : UInt8 := 0x16
abbrev msgIaWait : UInt8 := 0x19
abbrev msgIaCancel : UInt8 := 0x1a

abbrev mPubkey : UInt32 := 1
abbrev mPassword : UInt32 := 2
abbrev mInteractive : UInt32 := 4
abbrev mRegister : UInt32 := 8

abbrev ncAuthMaxUser : Nat := 64
abbrev ncAuthMaxPass : Nat := 128
abbrev ncAuthMaxMsg : Nat := 256
abbrev ncAuthMaxTries : Nat := 6

/-- `NC_AUTH_STATE_*`. -/
inductive State
  | pending | ok | denied
  deriving DecidableEq, Repr

/-- `NC_AUTH_NEED_*`. -/
inductive Need
  | nothing | key | password | method | form
  deriving DecidableEq, Repr

/-- `NC_AUTH_IA_*`; every other value is taken as `denied`. -/
inductive Verdict
  | more | done | denied | wait
  deriving DecidableEq, Repr

/-! ## The conversation -/

/-- The callbacks that are set. -/
structure Callbacks where
  send : Bool := false
  methods : Bool := false
  checkKey : Bool := false
  checkPassword : Bool := false
  start : Bool := false
  submit : Bool := false
  resume : Bool := false
  cancelled : Bool := false
  deriving DecidableEq

/-- `struct nc_auth`. -/
structure NcAuth where
  server : Bool := false
  state : State := .pending
  need : Need := .nothing
  greeted : Bool := false
  avail : UInt32 := 0
  tries : Nat := 0
  sid : Key := .zero 32
  user : CStr := ⟨[], zero_notMem_nil⟩
  cbs : Callbacks := {}
  buf : Option Nat := none
  strings : List UInt8 := []
  offered : UInt32 := 0
  iaMethod : UInt32 := 0
  chosen : UInt32 := 0
  chose : Bool := false
  asked : Bool := false
  cancelling : Bool := false
  registered : Bool := false
  fired : Bool := false
  form : Form := {}
  waitNote : Option CStr := none
  token : List UInt8 := []
  deriving DecidableEq

/-- What an interactive callback decides, fills in and issues. -/
structure Reply where
  what : Verdict
  form : Form := {}
  token : Option (List UInt8) := none

/-- What the server's callbacks answer; `start` is `begin`. -/
structure Env where
  methods : CStr → UInt32
  checkKey : CStr → Key → Bool
  checkPassword : CStr → CStr → Bool
  start : UInt32 → Reply
  submit : List UInt8 → Reply
  resume : List UInt8 → Reply

/-- What a call does to the outside; `begun` and `verdict` record that a method is started and what
`verdict` is called with. -/
inductive Act
  | emit (msg : List UInt8)
  | methods (user : CStr) (mask : UInt32)
  | checkSig (digest : Key) (pk : Key) (ok : Bool)
  | checkKey (user : CStr) (pk : Key) (ok : Bool)
  | checkPassword (user pass : CStr) (ok : Bool)
  | start (method : UInt32)
  | submit
  | resume (tok : List UInt8)
  | cancelled
  | begun (method : UInt32)
  | verdict (method : UInt32) (what : Verdict)
  deriving DecidableEq

section
variable (P : Monocypher)

/-- `nc_auth_i_emit`. -/
def emit (a : NcAuth) (msg : List UInt8) : List Act := if a.cbs.send then [.emit msg] else []

/-- `SIG_LABEL`, with its terminator. -/
def sigLabel : List UInt8 :=
  chars ['n', 'e', 't', 'c', 'h', 'a', 'n', '-', 'a', 'u', 't', 'h', '-', 'v', '1'] ++ [0]

/-- What `nc_auth_signed_digest` hashes. -/
def signedBytes (sid : Key) (user : CStr) (pk : Key) : List UInt8 :=
  let n := min user.val.length ncAuthMaxUser
  sigLabel ++ sid.val ++ [UInt8.ofNat n] ++ user.val.take n ++ pk.val

/-- `nc_auth_signed_digest`. -/
def ncAuthSignedDigest (sid : Key) (user : CStr) (pk : Key) : Key := P.blake2b (signedBytes sid user pk)

/-- The first bytes of a string are a string. -/
def CStr.take (s : CStr) (n : Nat) : CStr :=
  ⟨s.val.take n, fun h => s.property (List.mem_of_mem_take h)⟩

/-- `nc_auth_client_init`; a null user is the empty one. -/
def ncAuthClientInit (sid : Key) (user : CStr) (send : Bool) : NcAuth :=
  { sid, user := CStr.take user ncAuthMaxUser, cbs := { send } }

/-- `nc_auth_server_init` and `nc_auth_server_interactive`. -/
def ncAuthServerInit (sid : Key) (cbs : Callbacks) : NcAuth := { server := true, sid, cbs }

/-- `nc_auth_client_buffer` and `nc_auth_server_buffer`. -/
def ncAuthBuffer (a : NcAuth) (buf : Option Nat) : NcAuth := { a with buf }

/-- `nc_auth_start`. -/
def ncAuthStart (a : NcAuth) : List Act :=
  if a.server ∨ a.state ≠ .pending then []
  else emit a (msgHello :: UInt8.ofNat a.user.val.length :: a.user.val)

/-! ## Client side -/

/-- The credentials of `nc_auth_i_client_try_next`, once the player was asked. -/
def tryCredentials (a : NcAuth) : NcAuth :=
  if a.avail &&& mPubkey ≠ 0 then { a with avail := a.avail &&& ~~~mPubkey, need := .key }
  else if a.avail &&& mPassword ≠ 0 then
    { a with avail := a.avail &&& ~~~mPassword, need := .password }
  else { a with need := .nothing, state := .denied }

/-- `nc_auth_i_ia_choose`. Its call of `nc_auth_i_client_try_next` is made after `asked` is set, so
that it goes on to the credentials. -/
def iaChoose (a : NcAuth) : NcAuth × List Act :=
  let want := a.chosen &&& (mRegister ||| mInteractive)
  let a := { a with chose := false }
  if a.chosen = 0 then ({ a with need := .nothing, state := .denied }, [])
  else if want ≠ 0 ∧ want &&& a.avail = 0 then ({ a with need := .method }, [])
  else if want = 0 then
    let a := { a with asked := true }
    (if a.state ≠ .pending then a else tryCredentials a, [])
  else
    let want := want &&& a.avail
    let a := { a with iaMethod := if want &&& mRegister ≠ 0 then mRegister else mInteractive }
    let msg := do
      let msg ← msWriteTagU8 [msgIaBegin] (3 + ncFormMaxToken) fMethod a.iaMethod.toUInt8
      if a.token.length > 0 then msWriteTagBytes msg (3 + ncFormMaxToken) fToken a.token else some msg
    match msg with
    | none => ({ a with state := .denied }, [])
    | some msg => ({ a with need := .nothing }, emit a msg)

/-- `nc_auth_i_client_try_next`. -/
def clientTryNext (a : NcAuth) : NcAuth × List Act :=
  if a.state ≠ .pending then (a, [])
  else if !a.asked ∧ a.avail &&& (mRegister ||| mInteractive) ≠ 0 then
    if a.chose then iaChoose a else ({ a with need := .method }, [])
  else (tryCredentials a, [])

/-- `nc_auth_supply_key`. -/
def ncAuthSupplyKey (a : NcAuth) (keys : Option (Bytes 64 × Key)) : NcAuth × List Act :=
  if a.server ∨ a.need ≠ .key then (a, [])
  else
    let a := { a with need := .nothing }
    match keys with
    | none => clientTryNext a
    | some (sk, pk) =>
      let sig := P.eddsaSign sk (ncAuthSignedDigest P a.sid a.user pk).val
      (a, emit a (msgPubkey :: (pk.val ++ sig.val)))

/-- `nc_auth_supply_password`. -/
def ncAuthSupplyPassword (a : NcAuth) (password : Option CStr) : NcAuth × List Act :=
  if a.server ∨ a.need ≠ .password then (a, [])
  else
    let a := { a with need := .nothing }
    match password with
    | none => clientTryNext a
    | some password =>
      let plen := password.val.length
      if plen > ncAuthMaxPass - 1 then clientTryNext a
      else (a, emit a (msgPassword :: UInt8.ofNat plen :: password.val))

/-- `nc_auth_resume_pending`. -/
def ncAuthResumePending (a : NcAuth) (tok : List UInt8) : NcAuth :=
  if a.server ∨ tok.length = 0 ∨ tok.length > ncFormMaxToken then a else { a with token := tok }

/-- `nc_auth_supply_method`. -/
def ncAuthSupplyMethod (a : NcAuth) (method : UInt32) : NcAuth × List Act :=
  if a.server then (a, [])
  else
    let a := { a with chosen := method, chose := true }
    if a.need = .method then iaChoose { a with need := .nothing } else (a, [])

/-- `nc_auth_cancel`. -/
def ncAuthCancel (a : NcAuth) : NcAuth × List Act :=
  if a.server ∨ a.iaMethod = 0 ∨ a.cancelling then (a, [])
  else ({ a with cancelling := true, need := .nothing, waitNote := none, token := [] },
    emit a [msgIaCancel])

/-- `nc_auth_submit`; `none` is a null array or a negative count. -/
def ncAuthSubmit (a : NcAuth) (vals : Option (List FormValue)) : NcAuth × List Act :=
  if a.server ∨ a.need ≠ .form then (a, [])
  else
    let a := { a with need := .nothing }
    match vals with
    | none => ncAuthCancel a
    | some vals =>
      match encodeAnswers a.form vals ncFormMaxMsg with
      | none => ({ a with state := .denied }, [])
      | some msg => (a, emit a msg)

/-- The fields that an `IA_WAIT` carries. -/
structure WaitParts where
  note : Option (List UInt8) := none
  tok : Option (List UInt8) := none

/-- The loop body of the `IA_WAIT` reader. -/
def waitBody (msg : List UInt8) (p : WaitParts) (field wire : UInt8) (pos : Nat) :
    Option (WaitParts × Nat) :=
  if wire = msWireBytes ∧ field = fNote then
    (msReadBytes msg pos msg.length 0xffff).map fun r => ({ p with note := some r.1 }, r.2)
  else if wire = msWireBytes ∧ field = fToken then
    (msReadBytes msg pos msg.length 0xffff).map fun r => ({ p with tok := some r.1 }, r.2)
  else (msSkip msg pos msg.length wire).map fun pos => (p, pos)

/-- The token of an `IA_WAIT`. -/
def NcAuth.kept (a : NcAuth) : Option (List UInt8) → NcAuth
  | none => a
  | some tok => if tok.length > 0 ∧ tok.length ≤ ncFormMaxToken then { a with token := tok } else a

/-- The note of an `IA_WAIT`, copied to the buffer if there is one. -/
def NcAuth.noted (a : NcAuth) (note : Option (List UInt8)) : NcAuth :=
  match note, a.buf with
  | some note, some cap =>
    match arenaStr { cap } note with
    | some ar => { a with waitNote := some (.ofBytes note), strings := ar.text }
    | none => { a with waitNote := none, strings := [] }
  | _, _ => a

/-- What an `IA_WAIT` leaves at the client. -/
def NcAuth.parked (a : NcAuth) (p : WaitParts) : NcAuth :=
  { (a.kept p.tok).noted p.note with need := .nothing }

/-- `nc_auth_i_ia_client`. -/
def iaClient (a : NcAuth) (msg : List UInt8) : Option (NcAuth × List Act) :=
  if byte msg 0 = msgIaForm then
    if a.cancelling then some (a, [])
    else if a.iaMethod = 0 then none
    else if a.need = .form then none
    else
      match a.buf.bind fun cap => decodeForm cap msg with
      | none => none
      | some (form, strings) => some ({ a with form, strings, waitNote := none, need := .form }, [])
  else if byte msg 0 = msgIaWait then
    if a.cancelling then some (a, [])
    else if a.iaMethod = 0 then none
    else (readTags waitBody msg {}).map fun p => (a.parked p, [])
  else none

/-- `client_feed`. -/
def clientFeed (a : NcAuth) (msg : List UInt8) : Option (NcAuth × List Act) :=
  if byte msg 0 = msgMethods then
    if msg.length ≠ 2 then none
    else
      let mask := UInt32.ofNat (byte msg 1).toNat
      let a := { a with registered := a.registered || (a.iaMethod = mRegister && !a.cancelling) }
      let a := { a with iaMethod := 0, cancelling := false, asked := false, waitNote := none }
      let a := { a with avail := mask, offered := mask }
      if a.avail = 0 then some ({ a with state := .denied }, []) else some (clientTryNext a)
  else if byte msg 0 = msgOk then some ({ a with state := .ok }, [])
  else if byte msg 0 = msgFail then
    if msg.length ≠ 2 then none
    else
      let mask := UInt32.ofNat (byte msg 1).toNat
      some (clientTryNext
        { a with avail := a.avail &&& mask, iaMethod := 0, cancelling := false, asked := false })
  else iaClient a msg

/-! ## Server side -/

variable (env : Env)

/-- `nc_auth_i_server_deny`. -/
def serverDeny (a : NcAuth) (spent : UInt32) : NcAuth × List Act :=
  let a := { a with avail := a.avail &&& ~~~spent, tries := a.tries + 1 }
  let a := if a.tries ≥ ncAuthMaxTries ∨ a.avail = 0 then { a with avail := 0, state := .denied } else a
  (a, emit a [msgFail, a.avail.toUInt8])

/-- `nc_auth_i_server_offer`; the same lines end the handler of `HELLO`. -/
def serverOffer (a : NcAuth) : NcAuth × List Act :=
  let mask := if a.cbs.methods then env.methods a.user else 0
  let a := { a with avail := mask }
  let a := if a.avail = 0 then { a with state := .denied } else a
  (a, (if a.cbs.methods then [.methods a.user mask] else []) ++ emit a [msgMethods, mask.toUInt8])

/-- `nc_auth_i_ia_end`. -/
def iaEnd (a : NcAuth) : NcAuth × List Act :=
  if a.server ∧ a.iaMethod ≠ 0 ∧ !a.fired then
    ({ a with fired := true, iaMethod := 0 }, if a.cbs.cancelled then [.cancelled] else [])
  else ({ a with iaMethod := 0 }, [])

/-- `nc_auth_server_token`. -/
def ncAuthServerToken (a : NcAuth) (tok : List UInt8) : NcAuth :=
  if !a.server ∨ tok.length = 0 ∨ tok.length > ncFormMaxToken then a else { a with token := tok }

/-- `send_wait`. -/
def sendWait (a : NcAuth) (form : Option Form) (token : Option (List UInt8)) : List Act :=
  let note := ((form.bind (·.note)).map (·.val)).getD []
  let token := match token with
    | some tok => some tok
    | none => if a.token.length > 0 then some a.token else none
  let size := 3 + ncFormMaxLabel + 3 + ncFormMaxToken
  let msg := do
    let msg ← msWriteTagBytes [msgIaWait] size fNote (note.take ncFormMaxLabel)
    match token with
    | some tok =>
      if tok.length > 0 ∧ tok.length ≤ ncFormMaxToken then msWriteTagBytes msg size fToken tok
      else some msg
    | none => some msg
  match msg with
  | none => []
  | some msg => emit a msg

/-- Two calls one after the other. -/
def andThen (r : NcAuth × List Act) (f : NcAuth → NcAuth × List Act) : NcAuth × List Act :=
  ((f r.1).1, r.2 ++ (f r.1).2)

/-- `verdict`. -/
def verdict (a : NcAuth) (what : Verdict) (form : Option Form) (token : Option (List UInt8)) :
    NcAuth × List Act :=
  let method := a.iaMethod
  andThen (a, [.verdict method what]) fun a =>
    match what with
    | .more =>
      match form with
      | none => andThen (iaEnd a) fun a => serverDeny a method
      | some form =>
        match encodeForm form ncFormMaxMsg with
        | none => andThen (iaEnd { a with fired := true }) fun a => serverDeny a method
        | some msg => (a, emit a msg)
    | .wait => (a, sendWait a form token)
    | .done =>
      let a := { a with fired := true, iaMethod := 0 }
      if method = mRegister then serverOffer env { a with fired := false }
      else
        let a := { a with state := .ok }
        (a, emit a [msgOk])
    | .denied => andThen (iaEnd { a with fired := true }) fun a => serverDeny a method

/-- `nc_auth_server_resume`. -/
def ncAuthServerResume (a : NcAuth) (what : Verdict) (form : Option Form)
    (token : Option (List UInt8)) : NcAuth × List Act :=
  if !a.server ∨ a.iaMethod = 0 ∨ a.state ≠ .pending then (a, []) else verdict env a what form token

/-- A callback may issue a token. -/
def NcAuth.issued (a : NcAuth) : Option (List UInt8) → NcAuth
  | none => a
  | some tok => ncAuthServerToken a tok

/-- A callback returned: the token that it issued is stored, and its verdict is acted on. -/
def replied (a : NcAuth) (acts : List Act) (r : Reply) : NcAuth × List Act :=
  andThen (a.issued r.token, acts) fun a => verdict env a r.what (some r.form) none

/-- The fields that an `IA_BEGIN` carries. -/
structure BeginParts where
  method : UInt8 := 0
  tok : Option (List UInt8) := none

/-- The loop body of the `IA_BEGIN` reader. -/
def beginBody (msg : List UInt8) (p : BeginParts) (field wire : UInt8) (pos : Nat) :
    Option (BeginParts × Nat) :=
  if field = fMethod ∧ wire = msWire8 then
    (msReadU8 msg pos msg.length).map fun r => ({ p with method := r.1 }, r.2)
  else if field = fToken ∧ wire = msWireBytes then
    (msReadBytes msg pos msg.length 0xffff).map fun r => ({ p with tok := some r.1 }, r.2)
  else (msSkip msg pos msg.length wire).map fun pos => (p, pos)

/-- The handler of `IA_BEGIN`, once the method and the token are read. -/
def iaBegin (a : NcAuth) (method : UInt32) (tok : List UInt8) : NcAuth × List Act :=
  if a.avail &&& method = 0 ∨ !a.cbs.start then serverDeny a 0
  else
    let a := { a with iaMethod := method, fired := false }
    if tok.length > 0 then
      if !a.cbs.resume then
        andThen (andThen (a, [.begun method]) iaEnd) fun a => serverDeny a method
      else replied env a [.begun method, .resume tok] (env.resume tok)
    else replied env a [.begun method, .start method] (env.start method)

/-- The handler of `IA_SUBMIT`, once the answers are in the buffer. -/
def iaSubmit (a : NcAuth) (strings : List UInt8) : NcAuth × List Act :=
  replied env { a with strings := [] } [.submit] (env.submit strings)

/-- `nc_auth_i_ia_server`. -/
def iaServer (a : NcAuth) (msg : List UInt8) : Option (NcAuth × List Act) :=
  if byte msg 0 = msgIaBegin then
    if !a.greeted ∨ a.iaMethod ≠ 0 then none
    else
      match readTags beginBody msg {} with
      | none => none
      | some p =>
        let method := UInt32.ofNat p.method.toNat
        if method ≠ mRegister ∧ method ≠ mInteractive then none
        else some (iaBegin env a method (p.tok.getD []))
  else if byte msg 0 = msgIaSubmit then
    if a.iaMethod = 0 ∨ !a.cbs.submit then none
    else (a.buf.bind fun cap => decodeAnswers cap msg).map fun strings => iaSubmit env a strings
  else if byte msg 0 = msgIaCancel then
    if msg.length ≠ 1 ∨ a.iaMethod = 0 then none
    else some (andThen (iaEnd a) (serverOffer env))
  else none

/-- The handler of `PUBKEY`. -/
def serverPubkey (a : NcAuth) (pk : Key) (sig : Bytes 64) : NcAuth × List Act :=
  if a.avail &&& mPubkey = 0 then serverDeny a 0
  else
    let digest := ncAuthSignedDigest P a.sid a.user pk
    let valid := P.eddsaCheck sig pk digest.val
    let known := env.checkKey a.user pk
    let acts := .checkSig digest pk valid ::
      (if valid && a.cbs.checkKey then [.checkKey a.user pk known] else [])
    if valid && a.cbs.checkKey && known then
      ({ a with state := .ok }, acts ++ emit a [msgOk])
    else andThen (a, acts) fun a => serverDeny a mPubkey

/-- The handler of `PASSWORD`. -/
def serverPassword (a : NcAuth) (pass : CStr) : NcAuth × List Act :=
  if a.avail &&& mPassword = 0 then serverDeny a 0
  else
    let ok := env.checkPassword a.user pass
    let acts := if a.cbs.checkPassword then [.checkPassword a.user pass ok] else []
    if a.cbs.checkPassword && ok then ({ a with state := .ok }, acts ++ emit a [msgOk])
    else andThen (a, acts) fun a => serverDeny a mPassword

/-- `server_feed`. -/
def serverFeed (a : NcAuth) (msg : List UInt8) : Option (NcAuth × List Act) :=
  let len := msg.length
  if byte msg 0 = msgHello then
    let ulen := (byte msg 1).toNat
    if a.greeted ∨ len < 2 then none
    else if ulen > ncAuthMaxUser ∨ len ≠ 2 + ulen then none
    else some (serverOffer env { a with user := .ofBytes (msg.drop 2), greeted := true })
  else if byte msg 0 = msgPubkey then
    if !a.greeted ∨ len ≠ 1 + 32 + 64 then none
    else some (serverPubkey P env a (bytesAt 32 msg 1) (bytesAt 64 msg 33))
  else if byte msg 0 = msgPassword then
    let plen := (byte msg 1).toNat
    if !a.greeted ∨ len < 2 then none
    else if plen > ncAuthMaxPass - 1 ∨ len ≠ 2 + plen then none
    else some (serverPassword env a (.ofBytes (msg.drop 2)))
  else iaServer env a msg

/-- `MSG_IS_BULK`. -/
def msgIsBulk (t : UInt8) : Bool := t = msgIaForm ∨ t = msgIaSubmit

/-- `nc_auth_feed`: whether it returns `NC_AUTH_OK`, the struct and the acts. -/
def ncAuthFeed (a : NcAuth) (msg : List UInt8) : Bool × NcAuth × List Act :=
  if msg.length < 1 ∨ a.state ≠ .pending then (false, a, [])
  else if msg.length > (if msgIsBulk (byte msg 0) then ncFormMaxMsg else ncAuthMaxMsg) then (false, a, [])
  else
    match if a.server then serverFeed P env a msg else clientFeed a msg with
    | none => (false, { a with state := .denied }, [])
    | some (a', acts) => (true, a', acts)

/-- `nc_auth_clear`: the struct is all zeros afterwards. -/
def ncAuthClear (a : NcAuth) : NcAuth × List Act := ({}, (iaEnd a).2)

end

end Netchan.Auth
