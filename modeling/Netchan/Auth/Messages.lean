import Netchan.Auth.Answers
import Netchan.Auth.Server

/-!
# Messages

The messages that a client and a server send each other are well formed: each is one that the other
side can decode.

`FormMsg`, `WaitMsg`, `AnswerMsg` come from the server, `HelloMsg`, `CredentialMsg`, `BeginMsg`,
`SubmitMsg` from the client.
-/

namespace Netchan.Auth

open Lib Idl Crypto

/-- The messages among the acts of a call. -/
def sent (acts : List Act) : List (List UInt8) :=
  acts.filterMap fun
    | .emit msg => some msg
    | _ => none

/-- Whether a method is left waiting: the last verdict decides. -/
def parkedBy (waiting : Bool) (acts : List Act) : Bool :=
  acts.foldl (fun w x =>
    match x with
    | .verdict _ what => what = .wait
    | _ => w) waiting

/-! ## Messages -/

/-- A buffer is large enough for every form, and for every set of answers. -/
structure Ample (cap : Nat) : Prop where
  forms : ∀ f msg, encodeForm f ncFormMaxMsg = some msg → (decodeForm cap msg).isSome = true
  answers : ∀ f vals msg, encodeAnswers f vals ncFormMaxMsg = some msg →
    (decodeAnswers cap msg).isSome = true

/-- A form that a client can decode. -/
structure FormMsg (msg : List UInt8) : Prop where
  kind : byte msg 0 = msgIaForm
  fits : Fits msg
  decodes : ∀ cap, Ample cap → (decodeForm cap msg).isSome = true

structure WaitMsg (msg : List UInt8) : Prop where
  kind : byte msg 0 = msgIaWait
  fits : Fits msg
  decodes : (readTags waitBody msg {}).isSome = true

/-- A message that ends a request. -/
def AnswerMsg (msg : List UInt8) : Prop :=
  (∃ x, msg = [msgMethods, x]) ∨ (∃ x, msg = [msgFail, x]) ∨ msg = [msgOk]

structure SubmitMsg (msg : List UInt8) : Prop where
  kind : byte msg 0 = msgIaSubmit
  fits : Fits msg
  decodes : ∀ cap, Ample cap → (decodeAnswers cap msg).isSome = true

structure BeginMsg (msg : List UInt8) : Prop where
  kind : byte msg 0 = msgIaBegin
  fits : Fits msg
  decodes : ∃ p, readTags beginBody msg {} = some p ∧
    (UInt32.ofNat p.method.toNat = mRegister ∨ UInt32.ofNat p.method.toNat = mInteractive)

/-- What the conversation starts with. -/
structure HelloMsg (msg : List UInt8) : Prop where
  kind : byte msg 0 = msgHello
  fits : Fits msg
  length : msg.length = 2 + (byte msg 1).toNat
  bound : (byte msg 1).toNat ≤ ncAuthMaxUser

inductive CredentialMsg (msg : List UInt8) : Prop
  | pubkey (kind : byte msg 0 = msgPubkey) (length : msg.length = 97)
  | password (kind : byte msg 0 = msgPassword) (length : msg.length = 2 + (byte msg 1).toNat)
      (bound : (byte msg 1).toNat ≤ ncAuthMaxPass - 1)

section
variable {a : NcAuth}

@[simp] theorem sent_nil : sent [] = [] := rfl

theorem sent_append (l l' : List Act) : sent (l ++ l') = sent l ++ sent l' := List.filterMap_append

theorem sent_emit (h : a.cbs.send = true) (msg : List UInt8) : sent (emit a msg) = [msg] := by
  rw [emit, if_pos h]
  rfl

theorem parkedBy_emit (w : Bool) (a : NcAuth) (msg : List UInt8) : parkedBy w (emit a msg) = w := by
  unfold emit
  split
  · rfl
  · rfl

theorem parkedBy_append (w : Bool) (l l' : List Act) :
    parkedBy w (l ++ l') = parkedBy (parkedBy w l) l' := List.foldl_append

theorem formMsg_encode {f : Form} {msg : List UInt8} (h : encodeForm f ncFormMaxMsg = some msg) :
    FormMsg msg := by
  obtain ⟨hmsg, -, -, -, -, hlen⟩ := encodeForm_spec h
  have hkind : byte msg 0 = msgIaForm := by rw [hmsg]; rfl
  refine ⟨hkind, ⟨by rw [hmsg]; simp, ?_⟩, fun cap hcap => hcap.forms f msg h⟩
  rw [hkind]
  exact hlen

theorem helloMsg_name {user : List UInt8} (h : user.length ≤ ncAuthMaxUser) :
    HelloMsg (msgHello :: UInt8.ofNat user.length :: user) := by
  simp only [ncAuthMaxUser] at h
  have hn : (UInt8.ofNat user.length).toNat = user.length := by
    rw [UInt8.toNat_ofNat']
    omega
  refine ⟨rfl, ⟨Nat.le_add_left _ _, ?_⟩, ?_, hn.trans_le h⟩
  · change user.length + 2 ≤ ncAuthMaxMsg
    simp only [ncAuthMaxMsg]
    omega
  · change user.length + 2 = 2 + (UInt8.ofNat user.length).toNat
    omega

theorem submitMsg_encode {f : Form} {vals : List FormValue} {msg : List UInt8}
    (h : encodeAnswers f vals ncFormMaxMsg = some msg) : SubmitMsg msg := by
  obtain ⟨hmsg, -, -, hlen⟩ := encodeAnswers_spec h
  have hkind : byte msg 0 = msgIaSubmit := by rw [hmsg]; rfl
  refine ⟨hkind, ⟨by rw [hmsg]; simp, ?_⟩, fun cap hcap => hcap.answers f vals msg h⟩
  rw [hkind]
  exact hlen

/-- **A buffer of 36000 bytes is large enough.** -/
theorem ample_of_le {cap : Nat} (hcap : 36000 ≤ cap) : Ample cap := by
  refine ⟨fun f msg h => ?_, fun f vals msg h => ?_⟩
  · obtain ⟨-, -, -, -, -, hlen⟩ := encodeForm_spec h
    simp only [ncFormMaxMsg] at hlen
    obtain ⟨errors, text, he⟩ := @decodeForm_spec f ncFormMaxMsg msg cap h (by omega)
    rw [he]
    rfl
  · have hlen := (encodeAnswers_spec h).2.2.2
    simp only [ncFormMaxMsg] at hlen
    rw [decodeAnswers_spec h (by omega)]
    rfl

/-- What the reader of an `IA_WAIT` does with a bytes field. -/
def WaitParts.put (p : WaitParts) (x : UInt8 × List UInt8) : WaitParts :=
  if x.1 = fNote then { p with note := some x.2 } else { p with tok := some x.2 }

theorem readTags_wait {msg : List UInt8} {fs : List (UInt8 × List UInt8)}
    (hmsg : msg = msgIaWait :: fs.flatMap tagged)
    (hfs : ∀ x ∈ fs, (x.1 = fNote ∨ x.1 = fToken) ∧ x.2.length < 65536) :
    readTags waitBody msg {} = some (fs.foldl WaitParts.put {}) := by
  have hlong : fs.length ≤ (fs.flatMap tagged).length := by
    clear hmsg hfs
    induction fs with
    | nil => exact Nat.le_refl _
    | cons x fs ih =>
      rw [List.flatMap_cons, List.length_append, length_tagged, List.length_cons]
      omega
  refine @readLoop_fields WaitParts (waitBody msg) msg msg.length {} WaitParts.put fs ?_ ?_
    [msgIaWait] hmsg (by rw [hmsg, List.length_cons]; omega)
  · intro p x hx pos pos' hr
    unfold waitBody WaitParts.put
    rcases (hfs x hx).1 with h | h
    · rw [if_pos ⟨rfl, h⟩, hr, if_pos h]
      rfl
    · rw [if_neg (by rw [h]; decide), if_pos ⟨rfl, h⟩, hr, if_neg (by rw [h]; decide)]
      rfl
  · intro x hx
    refine ⟨?_, (hfs x hx).2⟩
    rcases (hfs x hx).1 with h | h
    · rw [h]
      decide
    · rw [h]
      decide

theorem waitMsg_fields {msg : List UInt8} {fs : List (UInt8 × List UInt8)}
    (hmsg : msg = msgIaWait :: fs.flatMap tagged) (hlen : msg.length ≤ ncAuthMaxMsg)
    (hfs : ∀ x ∈ fs, (x.1 = fNote ∨ x.1 = fToken) ∧ x.2.length < 65536) : WaitMsg msg := by
  have hkind : byte msg 0 = msgIaWait := by rw [hmsg]; rfl
  exact ⟨hkind, ⟨by rw [hmsg]; simp, by rw [hkind]; exact hlen⟩, by rw [readTags_wait hmsg hfs]; rfl⟩

theorem waitMsg_write {note msg : List UInt8} {token : Option (List UInt8)}
    (h : (do
      let msg ← msWriteTagBytes [msgIaWait] (3 + ncFormMaxLabel + 3 + ncFormMaxToken) fNote
        (note.take ncFormMaxLabel)
      match token with
      | some tok =>
        if tok.length > 0 ∧ tok.length ≤ ncFormMaxToken then
          msWriteTagBytes msg (3 + ncFormMaxLabel + 3 + ncFormMaxToken) fToken tok
        else some msg
      | none => some msg) = some msg) : WaitMsg msg := by
  have hnote : (note.take ncFormMaxLabel).length < 65536 := by
    rw [List.length_take]
    simp only [ncFormMaxLabel]
    omega
  obtain ⟨m, hw, h⟩ := Option.bind_eq_some_iff.1 h
  obtain ⟨hm, hl⟩ := writeTagBytes_eq hw
  have hplain : WaitMsg m := by
    refine @waitMsg_fields m [(fNote, note.take ncFormMaxLabel)] (by rw [hm]; simp)
      (hl.trans (by decide)) ?_
    intro x hx
    rw [List.mem_singleton.1 hx]
    exact ⟨.inl rfl, hnote⟩
  cases token with
  | none =>
    obtain rfl := Option.some.inj h
    exact hplain
  | some tok =>
    dsimp only at h
    split at h
    · rename_i htok
      obtain ⟨hm', hl'⟩ := writeTagBytes_eq h
      refine @waitMsg_fields msg [(fNote, note.take ncFormMaxLabel), (fToken, tok)]
        (by rw [hm', hm]; simp) (hl'.trans (by decide)) ?_
      intro x hx
      simp only [List.mem_cons, List.not_mem_nil, or_false] at hx
      rcases hx with rfl | rfl
      · exact ⟨.inl rfl, hnote⟩
      · refine ⟨.inr rfl, ?_⟩
        simp only [ncFormMaxToken] at htok
        dsimp only
        omega
    · obtain rfl := Option.some.inj h
      exact hplain

theorem sendWait_sent (h : a.cbs.send = true) (form : Option Form) (token : Option (List UInt8)) :
    sent (sendWait a form token) = [] ∨
      ∃ msg, WaitMsg msg ∧ sent (sendWait a form token) = [msg] := by
  unfold sendWait
  dsimp only
  split
  · exact .inl rfl
  · rename_i msg hmsg
    exact .inr ⟨msg, waitMsg_write hmsg, sent_emit h msg⟩

theorem parkedBy_sendWait (w : Bool) (a : NcAuth) (form : Option Form) (token : Option (List UInt8)) :
    parkedBy w (sendWait a form token) = w := by
  unfold sendWait
  dsimp only
  split
  · rfl
  · exact parkedBy_emit w a _

theorem readTags_begin {m : UInt8} {msg : List UInt8} {fs : List (UInt8 × List UInt8)}
    (hmsg : msg = [msgIaBegin, fMethod <<< 3 ||| msWire8, m] ++ fs.flatMap tagged)
    (hfs : ∀ x ∈ fs, x.1 = fToken ∧ x.2.length < 65536) (hn : fs.length ≤ 1) :
    readTags beginBody msg {} =
      some (fs.foldl (fun p x => { p with tok := some x.2 }) { method := m }) := by
  have hbig : 3 ≤ msg.length := by rw [hmsg]; simp
  have hmethod : beginBody msg {} (byte msg 1 >>> 3) (byte msg 1 &&& 7) (1 + 1) =
      some ({ method := m }, 3) := by
    have hb1 : byte msg 1 = fMethod <<< 3 ||| msWire8 := by rw [hmsg]; rfl
    have hb2 : byte msg 2 = m := by rw [hmsg]; rfl
    rw [hb1]
    unfold beginBody
    rw [if_pos (by decide), msReadU8, if_neg (by omega), hb2]
    rfl
  have hread := @readLoop_fields BeginParts (beginBody msg) msg (msg.length - 1) { method := m }
    (fun p x => { p with tok := some x.2 }) fs ?_ ?_
    [msgIaBegin, fMethod <<< 3 ||| msWire8, m] hmsg (by omega)
  · have hstart : readTags beginBody msg {} =
        readLoop (beginBody msg) msg msg.length (msg.length - 1) { method := m } 3 := by
      have hfuel : readTags beginBody msg {} =
          readLoop (beginBody msg) msg msg.length (msg.length - 1 + 1) {} 1 := by
        rw [readTags, Nat.sub_add_cancel (by omega)]
      rw [hfuel]
      exact readLoop_succ (by omega) hmethod
    exact hstart.trans hread
  · intro p x hx pos pos' hr
    unfold beginBody
    rw [(hfs x hx).1, if_neg (by decide), if_pos ⟨rfl, rfl⟩, hr]
    rfl
  · intro x hx
    exact ⟨by rw [(hfs x hx).1]; decide, (hfs x hx).2⟩

theorem beginMsg_write {m : UInt8} {tok msg : List UInt8}
    (hm : UInt32.ofNat m.toNat = mRegister ∨ UInt32.ofNat m.toNat = mInteractive)
    (h : (do
      let msg ← msWriteTagU8 [msgIaBegin] (3 + ncFormMaxToken) fMethod m
      if tok.length > 0 then msWriteTagBytes msg (3 + ncFormMaxToken) fToken tok else some msg) =
        some msg) : BeginMsg msg := by
  have h1 : msWriteTagU8 [msgIaBegin] (3 + ncFormMaxToken) fMethod m =
      some [msgIaBegin, fMethod <<< 3 ||| msWire8, m] := rfl
  rw [h1] at h
  simp only [Option.bind_eq_bind, Option.bind_some] at h
  split at h
  · obtain ⟨hmsg, hlen⟩ := writeTagBytes_eq h
    have hkind : byte msg 0 = msgIaBegin := by rw [hmsg]; rfl
    have hfs : ∀ x ∈ [(fToken, tok)], x.1 = fToken ∧ x.2.length < 65536 := by
      intro x hx
      rw [List.mem_singleton.1 hx]
      rw [hmsg, List.length_append, length_tagged] at hlen
      simp only [List.length_cons, List.length_nil, ncFormMaxToken] at hlen
      exact ⟨rfl, by dsimp only; omega⟩
    refine ⟨hkind, ⟨by rw [hmsg]; simp, by rw [hkind]; exact hlen.trans (by decide)⟩, _,
      @readTags_begin m msg [(fToken, tok)] (by rw [hmsg]; simp) hfs (by simp), hm⟩
  · obtain rfl := Option.some.inj h
    refine ⟨rfl, ⟨by simp, by simp +decide [byte]⟩, _,
      @readTags_begin m _ [] (by simp) (fun x hx => absurd hx List.not_mem_nil) (by simp), hm⟩

end

end Netchan.Auth
