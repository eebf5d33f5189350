import Netchan.Transport.Handshake

/-!
# The header block and what follows it

The handshake waits for the end of the header block, and then searches the whole buffer.

* `Block`: the bytes up to the first empty line, and with it.
* `findHeader_append`: the search behind a block goes on where the block ends.
* `block_decides_iff`: for which blocks the answer of the server, and the verdict of the client, do
  not depend on what follows.
-/

namespace Netchan.Transport

open Lib

/-- The bytes of a buffer up to the first empty line, and with it. -/
structure Block (B : List UInt8) : Prop where
  ends : hasEnd B = true
  first : hasEnd B.dropLast = false

section
variable {B l name rest : List UInt8}

theorem exists_blank (h : hasEnd l = true) : ∃ a c, l = a ++ 13 :: 10 :: 13 :: 10 :: c := by
  induction l with
  | nil => cases h
  | cons b l ih =>
    rw [hasEnd, Bool.or_eq_true, beq_iff_eq] at h
    rcases h with h | h
    · refine ⟨[], (b :: l).drop 4, ?_⟩
      have := List.take_append_drop 4 (b :: l)
      rw [h] at this
      exact this.symm
    · obtain ⟨a, c, rfl⟩ := ih h
      exact ⟨b :: a, c, rfl⟩

theorem Block.exists_append (h : Block B) : ∃ a, B = a ++ [13, 10, 13, 10] := by
  obtain ⟨a, c, hB⟩ := exists_blank h.ends
  rcases List.eq_nil_or_concat' c with rfl | ⟨c, b, rfl⟩
  · exact ⟨a, hB⟩
  · have hlast : B.dropLast = a ++ 13 :: 10 :: 13 :: 10 :: c := by
      rw [hB, show a ++ 13 :: 10 :: 13 :: 10 :: (c ++ [b]) = (a ++ 13 :: 10 :: 13 :: 10 :: c) ++ [b] by
        simp only [List.append_assoc, List.cons_append], List.dropLast_concat]
    have hfirst := h.first
    rw [hlast, hasEnd_blank] at hfirst
    cases hfirst

/-- A text of whole lines. -/
def Lines (B : List UInt8) : Prop := B = [] ∨ ∃ a, B = a ++ [10]

theorem Block.lines (h : Block B) : Lines B := by
  obtain ⟨a, rfl⟩ := h.exists_append
  exact .inr ⟨a ++ [13, 10, 13], by rw [List.append_assoc]; rfl⟩

/-- **The search goes on behind whole lines**, as at the start of a text. -/
theorem findHeader_append (hf : 10 ∉ name) (hB : Lines B) (rest : List UInt8) :
    findHeader (B ++ rest) name = (findHeader B name).or (findHeader rest name) := by
  unfold findHeader
  induction hlen : B.length using Nat.strong_induction_on generalizing B with
  | _ n ih =>
    rcases hB with rfl | ⟨a, ha⟩
    · rfl
    · have hmem : 10 ∈ B := by rw [ha]; simp
      obtain ⟨line, tail, rfl, hline⟩ := List.eq_append_cons_of_mem hmem
      have htail : Lines tail := by
        rcases List.eq_nil_or_concat' tail with rfl | ⟨t, b, rfl⟩
        · exact .inl rfl
        · refine .inr ⟨t, ?_⟩
          have hlast := congrArg List.getLast? ha
          simp only [List.getLast?_append, List.getLast?_cons] at hlast
          have hb : b = 10 := by simpa using hlast
          rw [hb]
      have hshort : tail.length < n := by
        rw [← hlen, List.length_append, List.length_cons]
        omega
      rw [List.append_assoc, List.cons_append, findFrom_line hf hline, findFrom_line hf hline,
        ih tail.length hshort htail rfl, Option.or_assoc]

end

/-! ## The server -/

/-- The server gives one answer to the block, whatever follows it. -/
def AnswersOnce (B : List UInt8) (cap : Nat) : Prop :=
  ∀ s s', (ncWsAccept (B ++ s) cap).1 = (ncWsAccept (B ++ s') cap).1 ∧
    response (B ++ s) cap = response (B ++ s') cap

/-- The block has both headers, or it has one that is refused whatever the other is; or the response
does not fit the buffer. -/
def AnswerKnown (B : List UInt8) (cap : Nat) : Prop :=
  cap ≤ 129 ∨
  ((findHeader B (ascii "Upgrade")).isSome = true ∧
    (findHeader B (ascii "Sec-WebSocket-Key")).isSome = true) ∨
  (∃ up, findHeader B (ascii "Upgrade") = some up ∧ hasWebsocket up = false) ∨
  findHeader B (ascii "Sec-WebSocket-Key") = some []

/-- Two header lines. -/
def upgradeBody : List UInt8 := ascii "Upgrade: websocket\nSec-WebSocket-Key: k\n"

section
variable {B : List UInt8} {cap : Nat}

theorem upgradeOf_refused {up : List UInt8} (h : hasWebsocket up = false)
    (key : Option (List UInt8)) : upgradeOf (some up) key = none := by
  cases key with
  | none => rfl
  | some key => simp [upgradeOf, h]

theorem upgradeOf_empty (up : Option (List UInt8)) : upgradeOf up (some []) = none := by
  cases up with
  | none => rfl
  | some up => rfl

/-- A request that is not to be upgraded gets no response, and neither does one whose response does
not fit. -/
theorem accept_refused {req : List UInt8} (hend : hasEnd req = true)
    (h : upgradeKey req = none ∨ cap ≤ 129) :
    (ncWsAccept req cap).1 = -1 ∧ response req cap = [] := by
  have hone : (ncWsAccept req cap).1 = -1 := by
    rw [accept_eq hend]
    cases hkey : upgradeKey req with
    | none => rfl
    | some key =>
      have hcap := h.resolve_left (by rw [hkey]; exact Option.some_ne_none key)
      rw [Option.elim_some, answer, if_pos hcap]
  refine ⟨hone, ?_⟩
  rw [response, hone]
  rfl

theorem accept_upgraded {req key : List UInt8} (hend : hasEnd req = true)
    (hkey : upgradeKey req = some key) (hcap : ¬ cap ≤ 129) : (ncWsAccept req cap).1 = 129 := by
  rw [accept_eq hend, hkey, Option.elim_some, answer, if_neg hcap]

theorem upgradeOf_some {up key : List UInt8} (hws : hasWebsocket up = true) (hne : key ≠ []) :
    upgradeOf (some up) (some key) = some key := by
  simp [upgradeOf, hws, hne]

/-- One header is not enough. -/
theorem upgradeOf_one {up key : Option (List UInt8)} (h : up.isSome = true → key.isSome = false) :
    upgradeOf up key = none := by
  cases up with
  | none => rfl
  | some up =>
    cases key with
    | none => rfl
    | some key => cases h rfl

/-- The two lines supply what is missing. -/
theorem upgradeOf_body {up key : Option (List UInt8)}
    (hws : ∀ u, up = some u → hasWebsocket u = true) (hne : key ≠ some []) :
    ∃ k, upgradeOf (up.or (findHeader upgradeBody (ascii "Upgrade")))
      (key.or (findHeader upgradeBody (ascii "Sec-WebSocket-Key"))) = some k := by
  have hup : findHeader upgradeBody (ascii "Upgrade") = some (ascii "websocket") := by
    decide
  have hkey : findHeader upgradeBody (ascii "Sec-WebSocket-Key") = some [107] := by
    decide
  have hsome {u : List UInt8} (hu : hasWebsocket u = true) :
      ∃ k, upgradeOf (some u) (key.or (some [107])) = some k := by
    cases key with
    | none => exact ⟨_, upgradeOf_some hu (List.cons_ne_nil _ _)⟩
    | some k => exact ⟨_, upgradeOf_some hu fun h => hne (congrArg some h)⟩
  rw [hup, hkey]
  cases up with
  | none => exact hsome (by decide)
  | some u => exact hsome (hws u rfl)

/-- **The server answers from the block alone** exactly when the block says what there is to say. -/
theorem answersOnce_iff (hB : Block B) : AnswersOnce B cap ↔ AnswerKnown B cap := by
  have hend (s : List UInt8) : hasEnd (B ++ s) = true := hasEnd_append hB.ends s
  have hkeyOf (s : List UInt8) : upgradeKey (B ++ s) = upgradeOf
      ((findHeader B (ascii "Upgrade")).or (findHeader s (ascii "Upgrade")))
      ((findHeader B (ascii "Sec-WebSocket-Key")).or
        (findHeader s (ascii "Sec-WebSocket-Key"))) := by
    rw [upgradeKey, findHeader_append (by decide) hB.lines,
      findHeader_append (by decide) hB.lines]
  constructor
  · intro h
    unfold AnswerKnown
    by_contra hno
    simp only [not_or, not_and, Bool.not_eq_true, not_exists] at hno
    obtain ⟨hcap, hmissing, hws, hempty⟩ := hno
    -- without a body the request is refused, with one that has the two headers it is not
    have hnone : upgradeKey (B ++ []) = none := by
      rw [hkeyOf, show findHeader [] (ascii "Upgrade") = none from rfl,
        show findHeader [] (ascii "Sec-WebSocket-Key") = none from rfl, Option.or_none, Option.or_none]
      exact upgradeOf_one hmissing
    obtain ⟨key, hkey⟩ : ∃ key, upgradeKey (B ++ upgradeBody) = some key := by
      rw [hkeyOf]
      exact upgradeOf_body (fun u hu => Bool.not_eq_false _ ▸ hws u hu) hempty
    have hdiff := (h [] upgradeBody).1
    rw [(accept_refused (hend _) (.inl hnone)).1, accept_upgraded (hend _) hkey hcap] at hdiff
    exact absurd hdiff (by decide)
  · intro h s s'
    have hrefused (hall : ∀ s, upgradeKey (B ++ s) = none ∨ cap ≤ 129) :
        (ncWsAccept (B ++ s) cap).1 = (ncWsAccept (B ++ s') cap).1 ∧
          response (B ++ s) cap = response (B ++ s') cap := by
      obtain ⟨h1, h2⟩ := accept_refused (hend s) (hall s)
      obtain ⟨h3, h4⟩ := accept_refused (hend s') (hall s')
      exact ⟨h1.trans h3.symm, h2.trans h4.symm⟩
    rcases h with hcap | ⟨hup, hkey⟩ | ⟨up, hup, hws⟩ | hempty
    · exact hrefused fun _ => .inr hcap
    · obtain ⟨up, hup⟩ := Option.isSome_iff_exists.1 hup
      obtain ⟨key, hkey⟩ := Option.isSome_iff_exists.1 hkey
      have hsame : upgradeKey (B ++ s) = upgradeKey (B ++ s') := by
        rw [hkeyOf, hkeyOf, hup, hkey]
        rfl
      have haccept : ncWsAccept (B ++ s) cap = ncWsAccept (B ++ s') cap := by
        rw [accept_eq (hend s), accept_eq (hend s'), hsame]
      rw [response, response, haccept]
      exact ⟨rfl, rfl⟩
    · refine hrefused fun s => .inl ?_
      rw [hkeyOf, hup, Option.some_or, upgradeOf_refused hws]
    · refine hrefused fun s => .inl ?_
      rw [hkeyOf, hempty, Option.some_or, upgradeOf_empty]

end

/-! ## The client -/

/-- The client gives one verdict on the block, whatever follows it. -/
def VerifiesOnce (B : List UInt8) (expect : CStr) : Prop :=
  ∀ s s', ncWsClientVerify (B ++ s) expect.val = ncWsClientVerify (B ++ s') expect.val

/-- The block has the header, or its status is refused; or no header can have the expected value. -/
def VerdictKnown (B : List UInt8) (expect : CStr) : Prop :=
  B.take 12 ≠ ascii "HTTP/1.1 101" ∨
  (findHeader B (ascii "Sec-WebSocket-Accept")).isSome = true ∨ ¬ Value expect.val

section
variable {B : List UInt8} {expect : CStr}

theorem take_status (hB : Block B) (s : List UInt8) :
    (B ++ s).take 12 = ascii "HTTP/1.1 101" ↔ B.take 12 = ascii "HTTP/1.1 101" := by
  have hlen12 : (ascii "HTTP/1.1 101").length = 12 := by decide
  rcases Nat.lt_or_ge B.length 12 with hlt | hge
  · have hshort : B.take 12 ≠ ascii "HTTP/1.1 101" := by
      intro h
      have hlen := congrArg List.length h
      rw [List.length_take, hlen12] at hlen
      omega
    refine ⟨fun h => absurd h ?_, fun h => absurd h hshort⟩
    -- the block has a return, the status does not
    intro h
    obtain ⟨a, hB⟩ := hB.exists_append
    have hmem : 13 ∈ (B ++ s).take 12 := by
      rw [List.take_append, List.take_of_length_le (Nat.le_of_lt hlt)]
      refine List.mem_append_left _ ?_
      rw [hB]
      simp
    rw [h] at hmem
    revert hmem
    decide
  · rw [List.take_append_of_le_length hge]

theorem value_headerValue (l : List UInt8) : Value (headerValue l) := by
  have hmem : ∀ b ∈ headerValue l, b ≠ 13 ∧ b ≠ 10 := fun b hb => by
    simpa using List.mem_takeWhile_imp hb
  have hhead : ∀ b, (headerValue l).head? = some b → ¬ (b = 32 ∨ b = 9) := by
    intro b hb
    rw [headerValue, List.head?_takeWhile] at hb
    have hdrop := List.head?_dropWhile_not (fun b => decide (b = 32 ∨ b = 9)) l
    rw [(Option.filter_eq_some_iff.1 hb).1] at hdrop
    simpa using hdrop
  refine ⟨⟨fun h => (hmem _ h).1 rfl, fun h => (hmem _ h).2 rfl⟩, fun h => ?_, fun h => ?_⟩
  · exact hhead _ h (.inl rfl)
  · exact hhead _ h (.inr rfl)

theorem verify_eq {resp e : List UInt8} (hend : hasEnd resp = true) :
    ncWsClientVerify resp e = if resp.take 12 = ascii "HTTP/1.1 101" ∧
      findHeader resp (ascii "Sec-WebSocket-Accept") = some e then 1 else -1 := by
  unfold ncWsClientVerify
  rw [hend]
  by_cases hstatus : resp.take 12 = ascii "HTTP/1.1 101"
  · simp only [Bool.not_true, Bool.false_eq_true, if_false, hstatus, ne_eq, not_true_eq_false,
      true_and]
    cases findHeader resp (ascii "Sec-WebSocket-Accept") with
    | none => rfl
    | some acc => simp only [Option.some.injEq]
  · simp only [Bool.not_true, Bool.false_eq_true, if_false, hstatus, ne_eq, not_false_eq_true,
      if_true, false_and]

theorem findFrom_value {name : List UInt8} {start : Bool} {l v : List UInt8}
    (h : findFrom name start l = some v) : Value v := by
  induction l generalizing start with
  | nil => cases h
  | cons b l ih =>
    rw [findFrom] at h
    split at h
    · split at h
      · rw [← Option.some.inj h]
        exact value_headerValue _
      · exact ih h
    · cases h

/-- A header line with this value. -/
def acceptBody (e : List UInt8) : List UInt8 := ascii "Sec-WebSocket-Accept" ++ 58 :: e ++ [10]

theorem findHeader_acceptBody {e : List UInt8} (h : Value e) :
    findHeader (acceptBody e) (ascii "Sec-WebSocket-Accept") = some e := by
  have hname : (10 : UInt8) ∉ ascii "Sec-WebSocket-Accept" := by decide
  have hline : 10 ∉ ascii "Sec-WebSocket-Accept" ++ 58 :: e := by
    rw [List.mem_append, List.mem_cons, not_or, not_or]
    exact ⟨hname, by decide, h.1.2⟩
  rw [findHeader, acceptBody, findFrom_line hname hline, lineValue_colon, headerValue_eq h]
  rfl

/-- **The client decides from the block alone** exactly when the block says what there is to say. -/
theorem verifiesOnce_iff (hB : Block B) : VerifiesOnce B expect ↔ VerdictKnown B expect := by
  have hend (s : List UInt8) : hasEnd (B ++ s) = true := hasEnd_append hB.ends s
  have hfind (s : List UInt8) : findHeader (B ++ s) (ascii "Sec-WebSocket-Accept") =
      (findHeader B (ascii "Sec-WebSocket-Accept")).or
        (findHeader s (ascii "Sec-WebSocket-Accept")) :=
    findHeader_append (by decide) hB.lines s
  constructor
  · intro h
    unfold VerdictKnown
    by_contra hno
    simp only [not_or, not_not, Option.isSome_iff_ne_none, ne_eq] at hno
    obtain ⟨hstatus, hmissing, hvalue⟩ := hno
    have hnone : findHeader (B ++ []) (ascii "Sec-WebSocket-Accept") = none := by
      rw [hfind, hmissing]
      rfl
    have hsome : findHeader (B ++ acceptBody expect.val) (ascii "Sec-WebSocket-Accept") =
        some expect.val := by
      rw [hfind, hmissing, Option.none_or, findHeader_acceptBody hvalue]
    have hdiff := h [] (acceptBody expect.val)
    rw [verify_eq (hend _), verify_eq (hend _), hnone, hsome,
      if_neg fun h => Option.some_ne_none _ h.2.symm, if_pos ⟨(take_status hB _).2 hstatus, rfl⟩] at hdiff
    exact absurd hdiff (by decide)
  · intro h s s'
    rw [verify_eq (hend s), verify_eq (hend s'), hfind s, hfind s']
    rcases h with hstatus | hsome | hvalue
    · rw [if_neg fun h => hstatus ((take_status hB s).1 h.1),
        if_neg fun h => hstatus ((take_status hB s').1 h.1)]
    · obtain ⟨acc, hacc⟩ := Option.isSome_iff_exists.1 hsome
      simp only [hacc, Option.some_or, take_status hB]
    · rw [← hfind, ← hfind, if_neg fun h => hvalue (findFrom_value h.2),
        if_neg fun h => hvalue (findFrom_value h.2)]

/-- **Only the block decides** where it has the headers, or the reason to refuse. -/
theorem block_decides_iff (hB : Block B) (cap : Nat) (expect : CStr) :
    (AnswersOnce B cap ↔ AnswerKnown B cap) ∧ (VerifiesOnce B expect ↔ VerdictKnown B expect) :=
  ⟨answersOnce_iff hB, verifiesOnce_iff hB⟩

end

/-- A plain request, and one with both headers. -/
def plainBlock : List UInt8 := ascii "GET / HTTP/1.1\r\n\r\n"

def upgradeBlock : List UInt8 :=
  ascii "GET / HTTP/1.1\r\nUpgrade: websocket\r\nSec-WebSocket-Key: k\r\n\r\n"

theorem block_decides_upgrade : AnswersOnce upgradeBlock 256 := by
  have hB : Block upgradeBlock := ⟨by decide, by decide⟩
  exact (block_decides_iff hB 256 ⟨[], by decide⟩).1.2
    (.inr (.inl ⟨by decide, by decide⟩))

/-- The body supplies both headers. -/
theorem body_upgrades : ¬ ∀ B cap, Block B → AnswersOnce B cap := by
  intro h
  have hB : Block plainBlock := ⟨by decide, by decide⟩
  have hsame := (h plainBlock 256 hB [] upgradeBody).1
  revert hsame
  decide +kernel

end Netchan.Transport
