import Netchan.Lib.CString
import Netchan.Transport.Sha1

/-!
# The WebSocket handshake

`nc_ws_accept`, `nc_ws_client_request` and `nc_ws_client_verify` of `transport/nc_ws.c`. A received
text is the list of its bytes; a built text is given with what `snprintf` leaves in the buffer.

* `findHeader`: the search for a header line.
* `findFrom_line`, `hasEnd_line`: the two scans of a text, line by line.
* `upgrade_agrees`: the server answers the client's request, and the client accepts the answer.
-/

namespace Netchan.Transport

open Lib

/-! ## The model -/

/-- `snprintf`: what it returns, and what it writes. -/
def snprintf (cap : Nat) (text : List UInt8) : Int × List UInt8 :=
  (if text.length < 2 ^ 31 then text.length else -1, if cap = 0 then [] else text.take (cap - 1) ++ [0])

/-- The scan for `"\r\n\r\n"`. -/
def hasEnd : List UInt8 → Bool
  | [] => false
  | b :: rest => (b :: rest).take 4 == [13, 10, 13, 10] || hasEnd rest

/-- The comparison of a line with a header's name, and with the colon. -/
def headerAt (name l : List UInt8) : Bool :=
  (l.take name.length).map lower == name.map lower && l[name.length]? == some 58

/-- A header's value, behind the colon. -/
def headerValue (l : List UInt8) : List UInt8 :=
  (l.dropWhile fun b => b = 32 ∨ b = 9).takeWhile fun b => b ≠ 13 ∧ b ≠ 10

/-- The loop of `find_header` from an index on; the first argument says whether the byte before it
is a line feed, or there is none. -/
def findFrom (name : List UInt8) : Bool → List UInt8 → Option (List UInt8)
  | _, [] => none
  | start, b :: rest =>
    if name.length < (b :: rest).length then
      if start && headerAt name (b :: rest) then
        some (headerValue ((b :: rest).drop (name.length + 1)))
      else findFrom name (b == 10) rest
    else none

def findHeader (req name : List UInt8) : Option (List UInt8) := findFrom name true req

/-- The scan of the `Upgrade` value, for `"websocket"` in any case. -/
def hasWebsocket : List UInt8 → Bool
  | [] => false
  | b :: rest => ((b :: rest).take 9).map (· ||| 32) == ascii "websocket" || hasWebsocket rest

/-- The response with an accept value. -/
def responseText (akey : List UInt8) : List UInt8 :=
  ascii "HTTP/1.1 101 Switching Protocols\r\nUpgrade: websocket\r\nConnection: Upgrade\r\n" ++
    ascii "Sec-WebSocket-Accept: " ++ akey ++ ascii "\r\n\r\n"

/-- `nc_ws_accept`: what it returns (-1 is `NC_WS_ERR`), and what it has written to `resp`. -/
def ncWsAccept (req : List UInt8) (respCap : Nat) : Int × List UInt8 :=
  if !hasEnd req then (0, [])
  else
    match findHeader req (ascii "Upgrade"), findHeader req (ascii "Sec-WebSocket-Key") with
    | some up, some key =>
      if key.length = 0 then (-1, [])
      else if !hasWebsocket up then (-1, [])
      else
        let (n, resp) := snprintf respCap (responseText (acceptKey key))
        if n < 0 ∨ (respCap : Int) ≤ n then (-1, resp) else (n, resp)
    | _, _ => (-1, [])

/-- The request. -/
def requestText (host path key64 : List UInt8) : List UInt8 :=
  ascii "GET " ++ path ++ ascii " HTTP/1.1\r\nHost: " ++ host ++
    ascii "\r\nUpgrade: websocket\r\nConnection: Upgrade\r\nSec-WebSocket-Key: " ++ key64 ++
    ascii "\r\nSec-WebSocket-Version: 13\r\n\r\n"

/-- What `nc_ws_client_request` returns, and what it has written to `buf` and to `expect`. -/
structure Request where
  n : Nat
  buf : List UInt8
  expect : List UInt8

def ncWsClientRequest (cap : Nat) (host path : CStr) (key16 : Bytes 16) : Request :=
  let key64 := base64 key16.val
  let expect := acceptKey key64
  let (n, buf) := snprintf cap (requestText host.val path.val key64)
  if n < 0 ∨ (cap : Int) ≤ n then ⟨0, buf, expect⟩ else ⟨n.toNat, buf, expect⟩

def ncWsClientVerify (resp expect : List UInt8) : Int :=
  if !hasEnd resp then 0
  else if resp.take 12 ≠ ascii "HTTP/1.1 101" then -1
  else
    match findHeader resp (ascii "Sec-WebSocket-Accept") with
    | some acc => if acc = expect then 1 else -1
    | none => -1

/-! ## The end of a header block -/

section
variable {l line rest : List UInt8} {b : UInt8}

theorem hasEnd_cons (hb : b ≠ 13) : hasEnd (b :: l) = hasEnd l := by
  have hne : ((b :: l).take 4 == [13, 10, 13, 10]) = false := by
    rw [beq_eq_false_iff_ne, List.take_succ_cons]
    exact fun h => hb (List.cons.inj h).1
  rw [hasEnd, hne, Bool.false_or]

/-- **A line** that an empty one does not follow is passed. -/
theorem hasEnd_line (hline : 13 ∉ line) (hrest : rest.take 2 ≠ [13, 10]) :
    hasEnd (line ++ 13 :: 10 :: rest) = hasEnd rest := by
  induction line with
  | nil =>
    have hne : ((13 :: 10 :: rest).take 4 == [13, 10, 13, 10]) = false := by
      rw [beq_eq_false_iff_ne, List.take_succ_cons, List.take_succ_cons]
      exact fun h => hrest (List.cons.inj (List.cons.inj h).2).2
    rw [List.nil_append, hasEnd, hne, Bool.false_or, hasEnd_cons (by decide)]
  | cons a line ih =>
    rw [List.cons_append, hasEnd_cons fun h => hline (h ▸ .head _), ih fun h => hline (.tail _ h)]

theorem hasEnd_append (h : hasEnd l = true) (rest : List UInt8) : hasEnd (l ++ rest) = true := by
  induction l with
  | nil => cases h
  | cons a l ih =>
    rw [hasEnd, Bool.or_eq_true, beq_iff_eq] at h
    rw [List.cons_append, hasEnd, Bool.or_eq_true, beq_iff_eq]
    rcases h with h | h
    · refine .inl ?_
      have hlen := congrArg List.length h
      rw [List.length_take] at hlen
      rw [← List.cons_append, List.take_append_of_le_length (by simp at hlen ⊢; omega), h]
    · exact .inr (ih h)

theorem hasEnd_blank (l rest : List UInt8) : hasEnd (l ++ 13 :: 10 :: 13 :: 10 :: rest) = true := by
  induction l with
  | nil => rfl
  | cons a l ih => rw [List.cons_append, hasEnd, ih, Bool.or_true]

end

/-! ## The search in a line -/

/-- The value of the header, if the line has it. -/
def lineValue (name line : List UInt8) : Option (List UInt8) :=
  if headerAt name line then some (headerValue (line.drop (name.length + 1))) else none

/-- The bytes that a line ends with. -/
def Ends (c : UInt8) : Prop := c = 13 ∨ c = 10

section
variable {name line rest l : List UInt8} {c : UInt8}

theorem Ends.lower_eq {a : UInt8} (hc : Ends c) (h : lower a = lower c) : a = c := by
  have hlow : lower c = c := by rcases hc with rfl | rfl <;> rfl
  have hsmall : c.toNat ≤ 13 := by rcases hc with rfl | rfl <;> decide
  rw [hlow] at h
  unfold lower at h
  split at h
  · rename_i ha
    have h65 : (65 : UInt8).toNat ≤ a.toNat := UInt8.le_iff_toNat_le.1 ha.1
    have h90 : a.toNat ≤ (90 : UInt8).toNat := UInt8.le_iff_toNat_le.1 ha.2
    have hsum := congrArg UInt8.toNat h
    rw [UInt8.toNat_add] at hsum
    simp only [UInt8.reduceToNat] at h65 h90 hsum
    omega
  · exact h

theorem headerAt_lt (h : headerAt name line = true) : name.length < line.length := by
  unfold headerAt at h
  rw [Bool.and_eq_true, beq_iff_eq, beq_iff_eq] at h
  exact (List.getElem?_eq_some_iff.1 h.2).1

/-- What follows a line does not count for its name. -/
theorem headerAt_append (line rest : List UInt8) (hc : Ends c) (hname : c ∉ name) :
    headerAt name (line ++ c :: rest) = headerAt name line := by
  unfold headerAt
  by_cases hlen : name.length < line.length
  · rw [List.take_append_of_le_length (Nat.le_of_lt hlen), List.getElem?_append_left hlen]
  · have hnone := List.getElem?_eq_none (Nat.not_lt.1 hlen)
    have hno : (none == some (58 : UInt8)) = false := rfl
    rw [hnone, hno, Bool.and_false]
    rcases Nat.eq_or_lt_of_le (Nat.not_lt.1 hlen) with heq | hlt
    · have hcolon : (some c == some (58 : UInt8)) = false := by rcases hc with rfl | rfl <;> rfl
      rw [← heq, List.getElem?_append_right (Nat.le_refl _), Nat.sub_self, List.getElem?_cons_zero,
        hcolon, Bool.and_false]
    · -- the byte behind the line would be one of the name
      rw [Bool.and_eq_false_iff]
      refine .inl (beq_eq_false_iff_ne.2 fun h => ?_)
      have hat := congrArg (fun x => x[line.length]?) h
      rw [List.getElem?_map, List.getElem?_take_of_lt hlt,
        List.getElem?_append_right (Nat.le_refl _), Nat.sub_self, List.getElem?_cons_zero,
        List.getElem?_map, List.getElem?_eq_getElem hlt] at hat
      have heq := hc.lower_eq (Option.some.inj hat).symm
      exact hname (heq ▸ List.getElem_mem hlt)

theorem headerValue_append (hc : Ends c) (l rest : List UInt8) :
    headerValue (l ++ c :: rest) = headerValue l := by
  have hskip : ¬ (c = 32 ∨ c = 9) := by rcases hc with rfl | rfl <;> decide
  have hstop : ¬ (c ≠ 13 ∧ c ≠ 10) := fun h => hc.elim h.1 h.2
  unfold headerValue
  induction l with
  | nil =>
    rw [List.nil_append, List.dropWhile_cons, if_neg (by simpa using hskip), List.takeWhile_cons,
      if_neg (by simpa using hstop)]
    rfl
  | cons a l ih =>
    rw [List.cons_append, List.dropWhile_cons, List.dropWhile_cons]
    split
    · exact ih
    · rw [← List.cons_append]
      generalize a :: l = k
      induction k with
      | nil => rw [List.nil_append, List.takeWhile_cons, if_neg (by simpa using hstop)]; rfl
      | cons a k ih =>
        rw [List.cons_append, List.takeWhile_cons, List.takeWhile_cons, ih]

theorem findFrom_short {start : Bool} (h : l.length ≤ name.length) : findFrom name start l = none := by
  cases l with
  | nil => rfl
  | cons b l => rw [findFrom, if_neg (Nat.not_lt.2 h)]

/-- The rest of a line is passed. -/
theorem findFrom_rest (hline : 10 ∉ line) :
    findFrom name false (line ++ 10 :: rest) = findFrom name true rest := by
  induction line with
  | nil =>
    rw [List.nil_append, findFrom]
    split
    · rfl
    · rename_i hlen
      exact (findFrom_short (by rw [List.length_cons] at hlen; omega)).symm
  | cons a line ih =>
    rw [List.cons_append, findFrom]
    split
    · have ha : (a == 10) = false := beq_eq_false_iff_ne.2 fun h => hline (h ▸ .head _)
      rw [Bool.false_and, if_neg Bool.false_ne_true, ha, ih fun h => hline (.tail _ h)]
    · rename_i hlen
      refine (findFrom_short ?_).symm
      rw [List.length_cons, List.length_append, List.length_cons] at hlen
      omega

/-- **A line**: it has the header, or the search goes on behind it. -/
theorem findFrom_line (hname : 10 ∉ name) (hline : 10 ∉ line) (rest : List UInt8) :
    findFrom name true (line ++ 10 :: rest) = (lineValue name line).or (findFrom name true rest) := by
  have hat := headerAt_append line rest (.inr rfl) hname
  have hcons : ∃ b tail, line ++ 10 :: rest = b :: tail ∧
      findFrom name (b == 10) tail = findFrom name true rest := by
    cases line with
    | nil => exact ⟨10, rest, rfl, rfl⟩
    | cons a line =>
      have ha : (a == 10) = false := beq_eq_false_iff_ne.2 fun h => hline (h ▸ .head _)
      exact ⟨a, line ++ 10 :: rest, rfl, by rw [ha, findFrom_rest fun h => hline (.tail _ h)]⟩
  obtain ⟨b, tail, heq, hgo⟩ := hcons
  rw [heq, findFrom, ← heq, Bool.true_and, hat, lineValue]
  by_cases hhead : headerAt name line = true
  · rw [if_pos hhead, if_pos hhead, Option.some_or]
    have hlen := headerAt_lt hhead
    rw [if_pos (by rw [List.length_append]; omega), List.drop_append_of_le_length hlen,
      headerValue_append (.inr rfl)]
  · rw [if_neg hhead, if_neg hhead, Option.none_or]
    split
    · exact hgo
    · rename_i hlen
      refine (findFrom_short ?_).symm
      rw [List.length_append, List.length_cons] at hlen
      omega

theorem headerAt_nil : headerAt name [] = false := by
  simp [headerAt]

theorem lineValue_return (hname : 13 ∉ name) : lineValue name (line ++ [13]) = lineValue name line := by
  unfold lineValue
  rw [headerAt_append line [] (.inl rfl) hname]
  split
  · rename_i hhead
    have hlen := headerAt_lt hhead
    rw [List.drop_append_of_le_length hlen, headerValue_append (.inl rfl)]
  · rfl

end

/-! ## Header blocks -/

/-- A line of a header block, without its end. -/
structure Line (l : List UInt8) : Prop where
  ne_nil : l ≠ []
  return_notMem : 13 ∉ l
  feed_notMem : 10 ∉ l

/-- Lines, and the empty one. -/
def headText (lines : List (List UInt8)) : List UInt8 :=
  lines.flatMap (fun l => l ++ [13, 10]) ++ [13, 10]

section
variable {lines : List (List UInt8)} {name rest p : List UInt8}

theorem hasEnd_lines (h : ∀ l ∈ lines, Line l) :
    hasEnd (lines.flatMap (fun l => l ++ [13, 10]) ++ [13]) = false := by
  induction lines with
  | nil => rfl
  | cons l lines ih =>
    have hl := h l (.head _)
    have hlines : ∀ l ∈ lines, Line l := fun l' h' => h l' (.tail _ h')
    have hnext : (lines.flatMap (fun l => l ++ [13, 10]) ++ [13]).take 2 ≠ [13, 10] := by
      cases lines with
      | nil => decide
      | cons l' lines =>
        have hl' := hlines l' (.head _)
        cases l' with
        | nil => exact absurd rfl hl'.ne_nil
        | cons a l' =>
          intro he
          have ha : a = 13 := (List.cons.inj he).1
          exact hl'.return_notMem (ha ▸ .head _)
    rw [List.flatMap_cons, List.append_assoc, List.append_assoc, List.cons_append, List.cons_append,
      List.nil_append, hasEnd_line hl.return_notMem hnext, ih hlines]

theorem hasEnd_headText (h : lines ≠ []) (rest : List UInt8) :
    hasEnd (headText lines ++ rest) = true := by
  obtain ⟨ls, l, rfl⟩ := (List.eq_nil_or_concat' lines).resolve_left h
  have := hasEnd_blank (ls.flatMap (fun l => l ++ [13, 10]) ++ l) rest
  rw [headText, List.flatMap_append, List.flatMap_singleton]
  simp only [List.append_assoc, List.cons_append, List.nil_append] at this ⊢
  exact this

/-- **A part of a header block** has no end. -/
theorem hasEnd_part (h : ∀ l ∈ lines, Line l) (hp : p <+: headText lines) (hne : p ≠ headText lines) :
    hasEnd p = false := by
  have hsplit : headText lines = (lines.flatMap (fun l => l ++ [13, 10]) ++ [13]) ++ [10] := by
    rw [headText, List.append_assoc, List.singleton_append]
  rw [hsplit] at hp hne
  obtain ⟨t, ht⟩ := (List.prefix_concat_iff.1 hp).resolve_left hne
  rw [← Bool.not_eq_true]
  intro hend
  have := hasEnd_append hend t
  rw [ht, hasEnd_lines h] at this
  cases this

/-- **The search in a header block** goes by line, and then on behind the block. -/
theorem findHeader_headText (hr : 13 ∉ name) (hf : 10 ∉ name) (h : ∀ l ∈ lines, Line l)
    (rest : List UInt8) :
    findHeader (headText lines ++ rest) name =
      (lines.findSome? (lineValue name)).or (findFrom name true rest) := by
  have hblank : lineValue name [13] = none := by
    rw [← List.nil_append [13], lineValue_return hr, lineValue, headerAt_nil]
    rfl
  unfold findHeader headText
  induction lines with
  | nil =>
    have hempty : (10 : UInt8) ∉ [13] := by decide
    have := findFrom_line hf hempty rest
    rw [hblank] at this
    exact this
  | cons l lines ih =>
    have hl := h l (.head _)
    have hfeed : 10 ∉ l ++ [13] := by
      rw [List.mem_append, not_or]
      exact ⟨hl.feed_notMem, by decide⟩
    have hline := findFrom_line hf hfeed
      (lines.flatMap (fun l => l ++ [13, 10]) ++ [13, 10] ++ rest)
    rw [lineValue_return hr, ih fun l' h' => h l' (.tail _ h')] at hline
    rw [List.findSome?_cons, List.flatMap_cons]
    simp only [List.append_assoc, List.cons_append, List.nil_append] at hline ⊢
    rw [hline]
    cases lineValue name l <;> rfl

end

/-! ## The two texts -/

def requestLines (host path key64 : List UInt8) : List (List UInt8) :=
  [ascii "GET " ++ path ++ ascii " HTTP/1.1", ascii "Host: " ++ host, ascii "Upgrade: websocket",
    ascii "Connection: Upgrade", ascii "Sec-WebSocket-Key: " ++ key64,
    ascii "Sec-WebSocket-Version: 13"]

def responseLines (akey : List UInt8) : List (List UInt8) :=
  [ascii "HTTP/1.1 101 Switching Protocols", ascii "Upgrade: websocket",
    ascii "Connection: Upgrade", ascii "Sec-WebSocket-Accept: " ++ akey]

section
variable {host path key64 akey name line v : List UInt8}

theorem requestLines_ne_nil (host path key64 : List UInt8) : requestLines host path key64 ≠ [] :=
  List.cons_ne_nil _ _

theorem responseLines_ne_nil (akey : List UInt8) : responseLines akey ≠ [] := List.cons_ne_nil _ _

theorem requestText_eq : requestText host path key64 = headText (requestLines host path key64) := by
  have h1 : ascii " HTTP/1.1\r\nHost: " = ascii " HTTP/1.1" ++ [13, 10] ++ ascii "Host: " := by decide
  have h2 : ascii "\r\nUpgrade: websocket\r\nConnection: Upgrade\r\nSec-WebSocket-Key: " =
      [13, 10] ++ ascii "Upgrade: websocket" ++ [13, 10] ++ ascii "Connection: Upgrade" ++ [13, 10] ++
        ascii "Sec-WebSocket-Key: " := by decide
  have h3 : ascii "\r\nSec-WebSocket-Version: 13\r\n\r\n" =
      [13, 10] ++ ascii "Sec-WebSocket-Version: 13" ++ [13, 10] ++ [13, 10] := by decide
  rw [requestText, h1, h2, h3]
  simp only [headText, requestLines, List.flatMap_cons, List.flatMap_nil, List.append_assoc,
    List.append_nil]

theorem responseText_eq : responseText akey = headText (responseLines akey) := by
  have h1 : ascii "HTTP/1.1 101 Switching Protocols\r\nUpgrade: websocket\r\nConnection: Upgrade\r\n" =
      ascii "HTTP/1.1 101 Switching Protocols" ++ [13, 10] ++ ascii "Upgrade: websocket" ++ [13, 10] ++
        ascii "Connection: Upgrade" ++ [13, 10] := by decide
  have h2 : ascii "\r\n\r\n" = [13, 10] ++ [13, 10] := by decide
  rw [responseText, h1, h2]
  simp only [headText, responseLines, List.flatMap_cons, List.flatMap_nil, List.append_assoc,
    List.append_nil]

/-- A string that does not break a line. -/
def Unbroken (s : List UInt8) : Prop := 13 ∉ s ∧ 10 ∉ s

instance (s : List UInt8) : Decidable (Unbroken s) := inferInstanceAs (Decidable (_ ∧ _))

theorem Unbroken.append {s t : List UInt8} (hs : Unbroken s) (ht : Unbroken t) :
    Unbroken (s ++ t) :=
  ⟨fun h => (List.mem_append.1 h).elim hs.1 ht.1, fun h => (List.mem_append.1 h).elim hs.2 ht.2⟩

theorem Unbroken.toLine {s : List UInt8} (hs : Unbroken s) (hne : s ≠ []) : Line s :=
  ⟨hne, hs.1, hs.2⟩

theorem unbroken_of_plain (h : ∀ b ∈ v, Plain b) : Unbroken v :=
  ⟨fun hm => (h _ hm).2.2.2.1 rfl, fun hm => (h _ hm).2.2.1 rfl⟩

theorem request_lines (hhost : Unbroken host) (hpath : Unbroken path) (hkey : Unbroken key64) :
    ∀ l ∈ requestLines host path key64, Line l := by
  have hget : Unbroken (ascii "GET " ++ path ++ ascii " HTTP/1.1") :=
    .append (.append (by decide) hpath) (by decide)
  have hhostLine : Unbroken (ascii "Host: " ++ host) := .append (by decide) hhost
  have hkeyLine : Unbroken (ascii "Sec-WebSocket-Key: " ++ key64) := .append (by decide) hkey
  simp only [requestLines, List.forall_mem_cons]
  refine ⟨hget.toLine (by simp [ascii]), hhostLine.toLine (by simp [ascii]), ?_, ?_,
    hkeyLine.toLine (by simp [ascii]), ?_, by simp⟩
  all_goals exact Unbroken.toLine (by decide) (by decide)

theorem response_lines (hkey : Unbroken akey) : ∀ l ∈ responseLines akey, Line l := by
  have hkeyLine : Unbroken (ascii "Sec-WebSocket-Accept: " ++ akey) := .append (by decide) hkey
  simp only [responseLines, List.forall_mem_cons]
  refine ⟨?_, ?_, ?_, hkeyLine.toLine (by simp [ascii]), by simp⟩
  all_goals exact Unbroken.toLine (by decide) (by decide)

theorem lineValue_other {a b : UInt8} (hline : line.head? = some a) (hname : name.head? = some b)
    (h : lower a ≠ lower b) : lineValue name line = none := by
  obtain ⟨line, rfl⟩ := List.head?_eq_some_iff.1 hline
  obtain ⟨name, rfl⟩ := List.head?_eq_some_iff.1 hname
  have hat : headerAt (b :: name) (a :: line) = false := by
    unfold headerAt
    rw [Bool.and_eq_false_iff]
    exact .inl (beq_eq_false_iff_ne.2 fun he => h (List.cons.inj he).1)
  rw [lineValue, hat]
  rfl

theorem lineValue_colon : lineValue name (name ++ 58 :: v) = some (headerValue v) := by
  have hat : headerAt name (name ++ 58 :: v) = true := by
    simp [headerAt]
  have hdrop : (name ++ 58 :: v).drop (name.length + 1) = v := by
    rw [← List.drop_drop, List.drop_left]
    rfl
  rw [lineValue, if_pos hat, hdrop]

/-- A string that is a header's value as it stands: nothing in front of it is skipped, and nothing in
it ends the line. -/
def Value (v : List UInt8) : Prop := Unbroken v ∧ v.head? ≠ some 32 ∧ v.head? ≠ some 9

theorem headerValue_eq (h : Value v) : headerValue v = v := by
  obtain ⟨⟨h13, h10⟩, h32, h9⟩ := h
  have hskip : v.dropWhile (fun b => b = 32 ∨ b = 9) = v := by
    cases v with
    | nil => rfl
    | cons a v =>
      have h1 : a ≠ 32 := fun h => h32 (congrArg some h)
      have h2 : a ≠ 9 := fun h => h9 (congrArg some h)
      rw [List.dropWhile_cons, if_neg (by simp [h1, h2])]
  rw [headerValue, hskip]
  refine List.takeWhile_eq_self_iff.2 fun b hb => decide_eq_true ⟨?_, ?_⟩
  · exact fun h => h13 (h ▸ hb)
  · exact fun h => h10 (h ▸ hb)

theorem value_of_plain (hv : ∀ b ∈ v, Plain b) : Value v := by
  refine ⟨unbroken_of_plain hv, fun h => ?_, fun h => ?_⟩
  · exact (hv _ (List.mem_of_mem_head? h)).2.2.2.2 rfl
  · exact (hv _ (List.mem_of_mem_head? h)).2.1 rfl

theorem lineValue_self (hv : ∀ b ∈ v, Plain b) : lineValue name (name ++ 58 :: 32 :: v) = some v := by
  have hspace : headerValue (32 :: v) = headerValue v := rfl
  rw [lineValue_colon, hspace, headerValue_eq (value_of_plain hv)]

theorem findSome_other {ls : List (List UInt8)} (h : lineValue name line = none) :
    (line :: ls).findSome? (lineValue name) = ls.findSome? (lineValue name) := by
  rw [List.findSome?_cons, h]

theorem findSome_self {ls : List (List UInt8)} (h : lineValue name line = some v) :
    (line :: ls).findSome? (lineValue name) = some v := by
  rw [List.findSome?_cons, h]

theorem request_upgrade (hhost : Unbroken host) (hpath : Unbroken path) (hkey : Unbroken key64) :
    findHeader (requestText host path key64) (ascii "Upgrade") = some (ascii "websocket") := by
  have hname : 13 ∉ ascii "Upgrade" ∧ 10 ∉ ascii "Upgrade" := by decide
  have h := findHeader_headText hname.1 hname.2 (request_lines hhost hpath hkey) []
  have hother {a : UInt8} {line : List UInt8} (hline : line.head? = some a)
      (ha : lower a ≠ lower 85) : lineValue (ascii "Upgrade") line = none :=
    lineValue_other hline rfl ha
  rw [List.append_nil, ← requestText_eq, requestLines, findSome_other (hother (a := 71) rfl (by decide)),
    findSome_other (hother (a := 72) rfl (by decide)),
    findSome_self (v := ascii "websocket") (by decide)] at h
  exact h

theorem request_key (hhost : Unbroken host) (hpath : Unbroken path) (hkey : ∀ b ∈ key64, Plain b) :
    findHeader (requestText host path key64) (ascii "Sec-WebSocket-Key") = some key64 := by
  have hname : 13 ∉ ascii "Sec-WebSocket-Key" ∧ 10 ∉ ascii "Sec-WebSocket-Key" := by decide
  have h := findHeader_headText hname.1 hname.2
    (request_lines hhost hpath (unbroken_of_plain hkey)) []
  have hother {a : UInt8} {line : List UInt8} (hline : line.head? = some a)
      (ha : lower a ≠ lower 83) : lineValue (ascii "Sec-WebSocket-Key") line = none :=
    lineValue_other hline rfl ha
  have hself : lineValue (ascii "Sec-WebSocket-Key") (ascii "Sec-WebSocket-Key: " ++ key64) =
      some key64 := by
    have hname : ascii "Sec-WebSocket-Key: " = ascii "Sec-WebSocket-Key" ++ [58, 32] := by
      decide
    rw [hname, List.append_assoc]
    exact lineValue_self hkey
  rw [List.append_nil, ← requestText_eq, requestLines, findSome_other (hother (a := 71) rfl (by decide)),
    findSome_other (hother (a := 72) rfl (by decide)),
    findSome_other (hother (a := 85) rfl (by decide)),
    findSome_other (hother (a := 67) rfl (by decide)), findSome_self hself] at h
  exact h

theorem response_accept (hkey : ∀ b ∈ akey, Plain b) :
    findHeader (responseText akey) (ascii "Sec-WebSocket-Accept") = some akey := by
  have hname : 13 ∉ ascii "Sec-WebSocket-Accept" ∧ 10 ∉ ascii "Sec-WebSocket-Accept" := by
    decide
  have h := findHeader_headText hname.1 hname.2 (response_lines (unbroken_of_plain hkey)) []
  have hother {a : UInt8} {line : List UInt8} (hline : line.head? = some a)
      (ha : lower a ≠ lower 83) : lineValue (ascii "Sec-WebSocket-Accept") line = none :=
    lineValue_other hline rfl ha
  have hself : lineValue (ascii "Sec-WebSocket-Accept") (ascii "Sec-WebSocket-Accept: " ++ akey) =
      some akey := by
    have hname : ascii "Sec-WebSocket-Accept: " = ascii "Sec-WebSocket-Accept" ++ [58, 32] := by
      decide
    rw [hname, List.append_assoc]
    exact lineValue_self hkey
  rw [List.append_nil, ← responseText_eq, responseLines,
    findSome_other (hother (a := 72) rfl (by decide)),
    findSome_other (hother (a := 85) rfl (by decide)),
    findSome_other (hother (a := 67) rfl (by decide)), findSome_self hself] at h
  exact h

end

/-! ## The handshake -/

/-- The bytes of the request. -/
def Request.text (r : Request) : List UInt8 := r.buf.take r.n

/-- The bytes of the response to a request. -/
def response (req : List UInt8) (respCap : Nat) : List UInt8 :=
  (ncWsAccept req respCap).2.take (ncWsAccept req respCap).1.toNat

section
variable {req text key akey expect : List UInt8} {cap : Nat}

theorem snprintf_fits (hcap : text.length < cap) (hint : text.length < 2 ^ 31) :
    snprintf cap text = ((text.length : Int), text ++ [0]) := by
  rw [snprintf, if_pos hint, if_neg (by omega), List.take_of_length_le (by omega)]

theorem length_responseText (key : List UInt8) : (responseText (acceptKey key)).length = 129 := by
  rw [responseText, List.length_append, List.length_append, List.length_append, length_acceptKey]
  rfl

/-- The key of a request with these values of its two headers, if it is one to be upgraded. -/
def upgradeOf (up key : Option (List UInt8)) : Option (List UInt8) :=
  up.bind fun up => key.filter fun key => key.length ≠ 0 ∧ hasWebsocket up = true

def upgradeKey (req : List UInt8) : Option (List UInt8) :=
  upgradeOf (findHeader req (ascii "Upgrade")) (findHeader req (ascii "Sec-WebSocket-Key"))

/-- The answer to a key. -/
def answer (cap : Nat) (key : List UInt8) : Int × List UInt8 :=
  if cap ≤ 129 then (-1, (snprintf cap (responseText (acceptKey key))).2)
  else (129, responseText (acceptKey key) ++ [0])

theorem snprintf_answer (cap : Nat) (key : List UInt8) :
    (let (n, resp) := snprintf cap (responseText (acceptKey key))
      if n < 0 ∨ (cap : Int) ≤ n then ((-1 : Int), resp) else (n, resp)) = answer cap key := by
  have hlen := length_responseText key
  unfold answer
  by_cases hcap : cap ≤ 129
  · have hn : (snprintf cap (responseText (acceptKey key))).1 = 129 := by
      rw [snprintf, hlen]
      rfl
    dsimp only
    rw [if_pos hcap, hn, if_pos (.inr (by omega))]
  · rw [if_neg hcap, snprintf_fits (by omega) (by omega), hlen]
    exact if_neg (by omega)

/-- **`nc_ws_accept` on a complete request**: the answer to its key, or a refusal. -/
theorem accept_eq (hend : hasEnd req = true) (cap : Nat) :
    ncWsAccept req cap = (upgradeKey req).elim (-1, []) (answer cap) := by
  unfold ncWsAccept upgradeKey
  rw [hend]
  cases findHeader req (ascii "Upgrade") with
  | none => rfl
  | some up =>
    cases findHeader req (ascii "Sec-WebSocket-Key") with
    | none => rfl
    | some key =>
      simp only [upgradeOf, Option.bind_some, Option.filter_some, Bool.not_true, Bool.false_eq_true,
        if_false]
      by_cases hne : key.length = 0
      · rw [if_pos hne, if_neg (by simp [hne])]
        rfl
      · by_cases hws : hasWebsocket up = true
        · have hkept : (if decide (key.length ≠ 0 ∧ hasWebsocket up = true) = true then some key
              else none) = some key := if_pos (by simp [hne, hws])
          rw [if_neg hne, if_neg (by simp [hws]), hkept]
          exact snprintf_answer cap key
        · rw [if_neg hne, if_pos (by simpa using hws), if_neg (by simp [hws])]
          rfl

/-- What `nc_ws_accept` answers is the response for the key of the request. -/
theorem accept_answers (h : 0 < (ncWsAccept req cap).1) :
    ∃ key, findHeader req (ascii "Sec-WebSocket-Key") = some key ∧
      response req cap = responseText (acceptKey key) := by
  by_cases hend : hasEnd req = true
  swap
  · rw [ncWsAccept, if_pos (by simpa using hend)] at h
    cases h
  have he := accept_eq hend cap
  cases hkey : upgradeKey req with
  | none =>
    rw [he, hkey] at h
    cases h
  | some key =>
    rw [hkey, Option.elim_some] at he
    obtain ⟨up, -, hfilter⟩ := Option.bind_eq_some_iff.1 hkey
    refine ⟨key, (Option.filter_eq_some_iff.1 hfilter).1, ?_⟩
    rw [he, answer] at h
    split at h
    · cases h
    · rename_i hcap
      rw [response, he, answer, if_neg hcap]
      exact List.take_left' (length_responseText key)

/-- **What the client makes of a response**: it compares the accept values. -/
theorem verify_response (key expect : List UInt8) :
    ncWsClientVerify (responseText (acceptKey key)) expect =
      if acceptKey key = expect then 1 else -1 := by
  have hplain := acceptKey_plain key
  have hend : hasEnd (responseText (acceptKey key)) = true := by
    have := hasEnd_headText (responseLines_ne_nil (acceptKey key)) []
    rwa [List.append_nil, ← responseText_eq] at this
  have hstatus : (responseText (acceptKey key)).take 12 = ascii "HTTP/1.1 101" := by
    rw [responseText, List.append_assoc, List.append_assoc, List.take_append_of_le_length (by decide)]
    decide
  unfold ncWsClientVerify
  rw [hend, hstatus, response_accept hplain]
  rfl

/-- A request is built where it fits. -/
theorem request_spec (cap : Nat) (host path : CStr) (key16 : Bytes 16) :
    let r := ncWsClientRequest cap host path key16
    let text := requestText host.val path.val (base64 key16.val)
    r.expect = acceptKey (base64 key16.val) ∧
      (r.n ≠ 0 ↔ text.length < cap ∧ text.length < 2 ^ 31) ∧ (r.n ≠ 0 → r.text = text) := by
  dsimp only
  generalize htext : requestText host.val path.val (base64 key16.val) = text
  have hpos : 0 < text.length := by
    rw [← htext, requestText]
    simp [ascii]
  have hr : ncWsClientRequest cap host path key16 =
      if (snprintf cap text).1 < 0 ∨ (cap : Int) ≤ (snprintf cap text).1 then
        ⟨0, (snprintf cap text).2, acceptKey (base64 key16.val)⟩
      else ⟨(snprintf cap text).1.toNat, (snprintf cap text).2, acceptKey (base64 key16.val)⟩ := by
    rw [← htext]
    rfl
  rw [hr]
  by_cases hfit : text.length < cap ∧ text.length < 2 ^ 31
  · rw [snprintf_fits hfit.1 hfit.2, if_neg (by omega)]
    dsimp only [Request.text]
    refine ⟨rfl, ⟨fun _ => hfit, fun _ => ?_⟩, fun _ => ?_⟩
    · omega
    · exact List.take_left' rfl
  · have hover : (snprintf cap text).1 < 0 ∨ (cap : Int) ≤ (snprintf cap text).1 := by
      rw [snprintf]
      dsimp only
      split <;> omega
    rw [if_pos hover]
    exact ⟨rfl, ⟨fun h => absurd rfl h, fun h => absurd h hfit⟩, fun h => absurd rfl h⟩

/-- **The two ends agree**, when the buffers are long enough for the texts and `snprintf` can count
them: the server answers what the client asks, the client accepts the answer, a part of either is not
complete, and the response to a key with another accept value is refused. -/
theorem upgrade_agrees (host path : CStr) (hhost : Unbroken host.val) (hpath : Unbroken path.val)
    (key16 : Bytes 16) (cap respCap : Nat)
    (hcap : (requestText host.val path.val (base64 key16.val)).length < min cap (2 ^ 31))
    (hresp : 129 < respCap) :
    let r := ncWsClientRequest cap host path key16
    0 < (ncWsAccept r.text respCap).1 ∧
    ncWsClientVerify (response r.text respCap) r.expect = 1 ∧
    (∀ p, p <+: r.text → p ≠ r.text → (ncWsAccept p respCap).1 = 0) ∧
    (∀ p, p <+: response r.text respCap → p ≠ response r.text respCap →
      ncWsClientVerify p r.expect = 0) ∧
    ∀ req' cap' key', 0 < (ncWsAccept req' cap').1 →
      findHeader req' (ascii "Sec-WebSocket-Key") = some key' → acceptKey key' ≠ r.expect →
      ncWsClientVerify (response req' cap') r.expect = -1 := by
  obtain ⟨hexpect, hbuilt, htext⟩ := request_spec cap host path key16
  dsimp only
  rw [hexpect, htext (hbuilt.2 (lt_min_iff.1 hcap))]
  have hplain := base64_plain key16.val
  have hlong : (base64 key16.val).length = 24 := by
    rw [length_base64, key16.property]
  generalize base64 key16.val = key64 at *
  have hkey := request_key hhost hpath hplain
  have hunbroken := unbroken_of_plain hplain
  have hupgrade : upgradeKey (requestText host.val path.val key64) = some key64 := by
    rw [upgradeKey, request_upgrade hhost hpath hunbroken, hkey, upgradeOf, Option.bind_some,
      Option.filter_some, if_pos]
    have hlen : key64.length ≠ 0 := by omega
    have hws : hasWebsocket (ascii "websocket") = true := by decide
    simp [hlen, hws]
  have hlines := request_lines hhost hpath hunbroken
  have hend : hasEnd (requestText host.val path.val key64) = true := by
    have := hasEnd_headText (requestLines_ne_nil host.val path.val key64) []
    rwa [List.append_nil, ← requestText_eq] at this
  have haccept := accept_eq hend respCap
  rw [hupgrade, Option.elim_some, answer, if_neg (Nat.not_le.2 hresp)] at haccept
  have hpos : 0 < (ncWsAccept (requestText host.val path.val key64) respCap).1 := by
    rw [haccept]
    show (0 : Int) < 129
    decide
  have hresponse : response (requestText host.val path.val key64) respCap =
      responseText (acceptKey key64) := by
    rw [response, haccept]
    exact List.take_left' (length_responseText key64)
  refine ⟨hpos, ?_, fun p hp hne => ?_, fun p hp hne => ?_, fun req' cap' key' h hkey' hother => ?_⟩
  · rw [hresponse, verify_response, if_pos rfl]
  · rw [requestText_eq] at hp hne
    rw [ncWsAccept, hasEnd_part hlines hp hne]
    rfl
  · rw [hresponse, responseText_eq] at hp hne
    have hpart := hasEnd_part (response_lines (unbroken_of_plain (acceptKey_plain key64))) hp hne
    rw [ncWsClientVerify, hpart]
    rfl
  · obtain ⟨key, hfound, htext'⟩ := accept_answers h
    obtain rfl : key = key' := Option.some.inj (hfound.symm.trans hkey')
    rw [htext', verify_response, if_neg hother]

end

/-- The strings and the key of the test. -/
def testHost : CStr := ⟨ascii "host:9099", by decide⟩

def testPath : CStr := ⟨ascii "/ws", by decide⟩

def testKey : Bytes 16 := ⟨(List.range 16).map fun i => UInt8.ofNat (i * 7 + 1), by decide⟩

theorem upgrade_agrees_test :
    ncWsClientVerify (response (ncWsClientRequest 256 testHost testPath testKey).text 256)
      (ncWsClientRequest 256 testHost testPath testKey).expect = 1 := by
  have hfits : (requestText testHost.val testPath.val (base64 testKey.val)).length < 256 := by
    decide +kernel
  exact (upgrade_agrees testHost testPath (by decide) (by decide) testKey 256 256
    (lt_min hfits (hfits.trans (by decide))) (by decide)).2.1

end Netchan.Transport
