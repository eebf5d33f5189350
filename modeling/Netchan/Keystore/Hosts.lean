import Netchan.Keystore.Append

/-!
# Pinning a host

`known_hosts` stands for a map from hosts to keys, `keyOf`, and `ks_known_host` compares with the
key there. `ks_known_host_add` is to change that map at one host.

It does if the last line of the file is finished, or is white space that leaves room for the entry:
`known_host_add_iff`. Behind any other unfinished line the new entry is not read, and that line's
own entry is lost.
-/

namespace Netchan.Keystore

open Lib
open Crypto (Key)

/-! ## The map of a file -/

/-- What a line says: a name and its key. -/
def hostEntry (s : CStr) : Option (List UInt8 × Key) :=
  if isComment s then none
  else match scanWords 2 s with
    | [name, hex] =>
      match ksHexDecode (.zero 32) hex with
      | .ok key => some (name, key)
      | .error _ => none
    | _ => none

/-- The key of a name in a line. -/
def keyIn (name : List UInt8) (s : CStr) : Option Key :=
  (hostEntry s).bind fun e => if e.1 = name then some e.2 else none

/-- The key on file for a host. -/
def keyOf (file : File) (host : CStr) : Option Key := scanFile file (keyIn host.val)

/-- The result for a key on file. -/
def verdict (pk onFile : Key) : HostResult × Option Key :=
  if onFile = pk then (.matched, none) else (.changed, some onFile)

theorem knownHostLine_eq (host : CStr) (pk : Key) (s : CStr) :
    knownHostLine host pk s = (keyIn host.val s).map (verdict pk) := by
  unfold knownHostLine keyIn hostEntry verdict
  cases isComment s with
  | true => rfl
  | false =>
    rw [if_neg (by decide), if_neg (by decide)]
    generalize scanWords 2 s = ws
    cases ws with
    | nil => rfl
    | cons name ws =>
      cases ws with
      | nil => rfl
      | cons hex ws =>
        cases ws with
        | cons _ _ => rfl
        | nil =>
          by_cases hname : name = host.val
          · cases hkey : ksHexDecode (.zero 32) hex with
            | error _ => simp [hname, hkey]
            | ok key => by_cases hk : key = pk <;> simp [hname, hkey, hk]
          · cases hkey : ksHexDecode (.zero 32) hex <;> simp [hname, hkey]

theorem scanFile_map {β γ : Type} (file : File) (f : CStr → Option β) (g : β → γ) :
    scanFile file (fun s => (f s).map g) = (scanFile file f).map g := by
  cases file with
  | none => rfl
  | some s => exact (List.map_findSome? ..).symm

/-- **`ks_known_host` looks the key up and compares.** -/
theorem ksKnownHost_eq (file : File) (host : CStr) (pk : Key) :
    ksKnownHost file host pk = ((keyOf file host).map (verdict pk)).getD (.unknown, none) := by
  have hbody : knownHostLine host pk = fun s => (keyIn host.val s).map (verdict pk) :=
    funext (knownHostLine_eq host pk)
  rw [ksKnownHost, hbody, scanFile_map, keyOf]

theorem unknown_iff (file : File) (host : CStr) (pk : Key) :
    (ksKnownHost file host pk).1 = .unknown ↔ keyOf file host = none := by
  rw [ksKnownHost_eq]
  cases keyOf file host with
  | none => simp
  | some k => by_cases hk : k = pk <;> simp [verdict, hk]

theorem results_iff (file file' : File) (host : CStr) :
    (∀ k, (ksKnownHost file' host k).1 = (ksKnownHost file host k).1) ↔
      keyOf file' host = keyOf file host := by
  constructor
  · intro h
    cases h1 : keyOf file host with
    | none =>
      have h2 := h (.zero 32)
      rw [(unknown_iff file host _).2 h1] at h2
      exact (unknown_iff file' host _).1 h2
    | some k =>
      have h2 := h k
      rw [ksKnownHost_eq, ksKnownHost_eq, h1] at h2
      cases h3 : keyOf file' host with
      | none => simp [h3, verdict] at h2
      | some k' =>
        by_cases hk : k' = k
        · rw [hk]
        · simp [h3, verdict, hk] at h2
  · intro h k
    rw [ksKnownHost_eq, ksKnownHost_eq, h]

theorem pinned_iff (file : File) (host : CStr) (pk : Key) :
    (∀ k, (ksKnownHost file host k).1 = if k = pk then .matched else .changed) ↔
      keyOf file host = some pk := by
  constructor
  · intro h
    have h1 := h pk
    rw [ksKnownHost_eq, if_pos rfl] at h1
    cases h2 : keyOf file host with
    | none => simp [h2] at h1
    | some k =>
      by_cases hk : k = pk
      · rw [hk]
      · simp [h2, verdict, hk] at h1
  · intro h k
    rw [ksKnownHost_eq, h]
    by_cases hk : k = pk
    · simp [verdict, hk]
    · simp [verdict, hk, Ne.symm hk]

/-! ## Entries in the pieces -/

/-- The entry of a written line, behind white space. -/
theorem hostEntry_line {s : CStr} {a name r : List UInt8} {pk : Key}
    (hs : s.val = a ++ (name ++ ([32] ++ (ksHexEncode pk ++ r)))) (ha : Blank a) (hne : name ≠ [])
    (hp : Plain name) (hc : (a ++ name).head? ≠ some 35) (hr : Edge r)
    (hlen : name.length ≤ ksLine - 1) : hostEntry s = some (name, pk) := by
  have hhex : (ksHexEncode pk).length = 64 := length_ksHexEncode pk
  have hhexne : ksHexEncode pk ≠ [] := fun h => by simp [h] at hhex
  have hcomment : isComment s = false := by
    have hhead : s.val.head? = (a ++ name).head? := by
      rw [hs, ← List.append_assoc, List.head?_append_of_ne_nil]
      exact List.append_ne_nil_of_right_ne_nil a hne
    rw [isComment, hhead]
    exact decide_eq_false hc
  have hwords : scanWords 2 s = [name, ksHexEncode pk] := by
    have hedge : Edge ([32] ++ (ksHexEncode pk ++ r)) := edge_space _
    rw [scanWords, hs, sscanf_word 1 ha hne hp hlen hedge,
      sscanf_word 0 blank_space hhexne (hexEncode_plain _) (by rw [hhex]; decide) hr]
    rfl
  simp [hostEntry, hcomment, hwords, ksHexDecode_encode]

theorem hostEntry_short {s : CStr} (h : (scanWords 2 s).length ≤ 1) : hostEntry s = none := by
  unfold hostEntry
  split
  · rfl
  · split
    · rename_i hw
      rw [hw] at h
      simp at h
    · rfl

/-- An entry is two words. -/
theorem hostEntry_some {s : CStr} {name : List UInt8} {key : Key}
    (h : hostEntry s = some (name, key)) :
    isComment s = false ∧ ∃ hex, scanWords 2 s = [name, hex] ∧
      ksHexDecode (.zero 32) hex = .ok key := by
  unfold hostEntry at h
  split at h
  · cases h
  · rename_i hc
    refine ⟨by simpa using hc, ?_⟩
    split at h
    · rename_i name' hex hw
      split at h
      · rename_i key' hk
        cases h
        exact ⟨hex, hw, hk⟩
      · cases h
    · cases h

section
variable (file : File) (host : CStr) (pk : Key)

/-- What a host line is but for its newline. -/
def hostLine : List UInt8 := host.val ++ ([32] ++ ksHexEncode pk)

theorem hostText_eq : hostText host pk = hostLine host pk ++ [10] := by simp [hostText, hostLine]

/-- The part of the name that the buffer cuts off. -/
def cutName : CStr := ⟨host.val.drop (room file), fun h => host.property (List.mem_of_mem_drop h)⟩

variable {host}

theorem hostLine_no_newline (hp : Plain host.val) : 10 ∉ hostLine host pk := by
  intro h
  rcases List.mem_append.1 h with h | h
  · exact absurd (hp 10 h) (by decide)
  · rcases List.mem_append.1 h with h | h
    · exact absurd (List.mem_singleton.1 h) (by decide)
    · exact absurd (hexEncode_plain _ 10 h) (by decide)

theorem hostText_no_nul : 0 ∉ hostText host pk := by
  intro h
  rw [hostText_eq, hostLine] at h
  simp only [List.mem_append, List.mem_singleton] at h
  rcases h with (h | h | h) | h
  · exact host.property h
  · exact absurd h (by decide)
  · exact (hexEncode_digits h).2.1 rfl
  · exact absurd h (by decide)

/-- The rest of a line that was cut behind the name is no entry. -/
theorem restPiece_behind (hm : host.val.length ≤ room file) :
    hostEntry (CStr.ofBytes (restPiece file (hostText host pk))) = none := by
  refine hostEntry_short ?_
  have hnul : 0 ∉ restPiece file (hostText host pk) :=
    fun h => hostText_no_nul pk (List.mem_of_mem_drop h)
  have hhex : (ksHexEncode pk).length = 64 := length_ksHexEncode pk
  rw [scanWords, ofBytes_of_notMem hnul, restPiece, hostText_eq, hostLine, List.append_assoc,
    List.drop_append, List.drop_of_length_le hm, List.nil_append, List.append_assoc,
    List.drop_append, List.drop_append]
  refine sscanf_one 2 (Blank.drop ?_ _) ((hexEncode_plain _).drop _) ?_ (Blank.drop ?_ _)
  · exact blank_space
  · rw [List.length_drop, hhex]
    exact Nat.le_trans (Nat.sub_le _ _) (by decide)
  · exact blank_newline

/-- The rest of a line that was cut in the name is an entry for the rest of the name. -/
theorem restPiece_within (hlen : host.val.length ≤ 200) (hp : Plain host.val)
    (hm : room file < host.val.length) (hc : (cutName file host).val.head? ≠ some 35) :
    hostEntry (CStr.ofBytes (restPiece file (hostText host pk))) =
      some ((cutName file host).val, pk) := by
  have hnul : 0 ∉ restPiece file (hostText host pk) :=
    fun h => hostText_no_nul pk (List.mem_of_mem_drop h)
  have hne : (cutName file host).val ≠ [] := by
    intro h
    have := congrArg List.length h
    simp only [cutName, List.length_drop, List.length_nil] at this
    omega
  refine hostEntry_line (a := []) (r := [10]) ?_ blank_nil hne (hp.drop _) hc ?_ ?_
  · rw [ofBytes_of_notMem hnul, restPiece, hostText,
      List.drop_append_of_le_length (Nat.le_of_lt hm)]
    rfl
  · exact fun b hb => by cases hb; rfl
  · simp only [cutName, List.length_drop, ksLine]
    omega

/-- The rest of a line is no entry for the host itself. -/
theorem restPiece_other (hlen : host.val.length ≤ 200) (hp : Plain host.val) {name : List UInt8}
    {key : Key}
    (h : hostEntry (CStr.ofBytes (restPiece file (hostText host pk))) = some (name, key)) :
    room file < host.val.length ∧ name = (cutName file host).val ∧ key = pk ∧
      (cutName file host).val.head? ≠ some 35 ∧ name ≠ host.val := by
  rcases Nat.lt_or_ge (room file) host.val.length with hm | hm
  · have hc : (cutName file host).val.head? ≠ some 35 := by
      intro hc
      have hcomment := (hostEntry_some h).1
      have hnul : 0 ∉ restPiece file (hostText host pk) :=
        fun h => hostText_no_nul pk (List.mem_of_mem_drop h)
      rw [isComment, ofBytes_of_notMem hnul, restPiece, hostText,
        List.drop_append_of_le_length (Nat.le_of_lt hm), List.head?_append] at hcomment
      simp only [cutName] at hc
      simp [hc] at hcomment
    rw [restPiece_within file pk hlen hp hm hc] at h
    cases h
    refine ⟨hm, rfl, rfl, hc, fun h => ?_⟩
    have hl := congrArg List.length h
    have := room_pos file
    simp only [cutName, List.length_drop] at hl
    omega
  · rw [restPiece_behind file pk hm] at h
    cases h

/-! ## The entry in front -/

/-- The tail is the host's name and the start of a word which the name itself completes to the key:
the one unfinished line behind which the new entry is read all the same. -/
def Coincides (file : File) (host : CStr) (pk : Key) : Prop :=
  ∃ a b p, tail file = a ++ (host.val ++ (b ++ p)) ∧ Blank a ∧ Blank b ∧ b ≠ [] ∧ Plain p ∧ 0 ∉ p ∧
    ksHexDecode (.zero 32) (p ++ host.val.take (room file)) = .ok pk

theorem Coincides.no_nul {file : File} {host : CStr} {pk : Key} (h : Coincides file host pk) :
    0 ∉ tail file := by
  obtain ⟨a, b, p, htail, ha, hb, -, -, hp, -⟩ := h
  rw [htail]
  simp only [List.mem_append]
  intro h0
  rcases h0 with h0 | h0 | h0 | h0
  · exact ha.no_nul h0
  · exact host.property h0
  · exact hb.no_nul h0
  · exact hp h0

theorem headPiece_no_nul (h : 0 ∉ tail file) : 0 ∉ headPiece file (hostText host pk) := by
  rw [headPiece, List.mem_append]
  exact not_or_intro h fun h => hostText_no_nul pk (List.mem_of_mem_take h)

/-- Behind a NUL the new line is not seen. -/
theorem headPiece_nul (h : 0 ∈ tail file) :
    CStr.ofBytes (headPiece file (hostText host pk)) = CStr.ofBytes (tail file) :=
  ofBytes_append_of_mem h _

theorem take_hostText : (hostText host pk).take (room file) = host.val.take (room file) ++
    (32 :: (ksHexEncode pk ++ [10])).take (room file - host.val.length) := by
  rw [hostText, List.take_append]

/-- White space with room: the new entry is read. -/
theorem headPiece_blank (hne : host.val ≠ []) (hp : Plain host.val)
    (hc : host.val.head? ≠ some 35) (hlen : host.val.length ≤ 200) (hb : Blank (tail file))
    (hroom : host.val.length + 65 ≤ room file) :
    hostEntry (CStr.ofBytes (headPiece file (hostText host pk))) = some (host.val, pk) := by
  have hnul := hb.no_nul
  have hhex : (ksHexEncode pk).length = 64 := length_ksHexEncode pk
  have htake : (hostText host pk).take (room file) =
      host.val ++ ([32] ++ (ksHexEncode pk ++ [10].take (room file - (host.val.length + 65)))) := by
    have hl : (hostLine host pk).length = host.val.length + 65 := by
      simp only [hostLine, List.length_append, List.length_singleton, hhex]
    rw [hostText_eq, List.take_append, List.take_of_length_le (by rw [hl]; exact hroom), hl]
    simp [hostLine]
  refine hostEntry_line (a := tail file) (r := [10].take (room file - (host.val.length + 65))) ?_ hb
    hne hp ?_ ?_ (Nat.le_trans hlen (by decide))
  · rw [ofBytes_of_notMem (headPiece_no_nul file pk hnul), headPiece, htake]
  · rw [List.head?_append]
    cases htail : (tail file).head? with
    | none => simpa using hc
    | some b =>
      have hsp := hb b (List.mem_of_mem_head? htail)
      intro h
      cases h
      exact absurd hsp (by decide)
  · exact (blank_newline.take _).edge

/-- The coincidence: the new entry is read. -/
theorem headPiece_coincides (hne : host.val ≠ []) (hp : Plain host.val)
    (hc : host.val.head? ≠ some 35) (hco : Coincides file host pk) :
    hostEntry (CStr.ofBytes (headPiece file (hostText host pk))) = some (host.val, pk) := by
  have hnul := hco.no_nul
  obtain ⟨a, b, p, htail, ha, hb, hbne, hpp, hp0, hdec⟩ := hco
  have hval : (CStr.ofBytes (headPiece file (hostText host pk))).val =
      headPiece file (hostText host pk) := ofBytes_of_notMem (headPiece_no_nul file pk hnul)
  have hsize := tail_add_room file
  rw [htail] at hsize
  simp only [List.length_append] at hsize
  have hcomment : isComment (CStr.ofBytes (headPiece file (hostText host pk))) = false := by
    refine decide_eq_false ?_
    rw [hval, headPiece, htail, List.append_assoc, List.head?_append]
    cases hhead : a.head? with
    | some c =>
      have hsp := ha c (List.mem_of_mem_head? hhead)
      intro h
      cases h
      exact absurd hsp (by decide)
    | none =>
      rw [Option.none_or, List.append_assoc, List.head?_append_of_ne_nil _ hne]
      exact hc
  have hx : p ++ host.val.take (room file) ≠ [] := by
    intro h
    have := length_of_decode hdec
    rw [h] at this
    cases this
  have hwords : scanWords 2 (CStr.ofBytes (headPiece file (hostText host pk))) =
      [host.val, p ++ host.val.take (room file)] := by
    have hsplit : headPiece file (hostText host pk) =
        a ++ (host.val ++ (b ++ ((p ++ host.val.take (room file)) ++
          (32 :: (ksHexEncode pk ++ [10])).take (room file - host.val.length)))) := by
      rw [headPiece, htail, take_hostText]
      simp
    rw [scanWords, hval, hsplit, sscanf_word 1 ha hne hp (by omega) (hb.edge.append hbne _),
      sscanf_word 0 hb hx (hpp.append (hp.take _)) ?_ ((edge_space _).take _)]
    · rfl
    · rw [length_of_decode hdec]
      decide
  simp [hostEntry, hcomment, hwords, hdec]

/-- Digits that are cut off give no key, so a second word that gives one has all of them. -/
theorem digits_second {key : Key} {hex : List UInt8} {m : Nat}
    (hread : sscanf (ksLine - 1) 1 ((32 :: (ksHexEncode pk ++ [10])).take m) = [hex])
    (hdec : ksHexDecode (.zero 32) hex = .ok key) : key = pk ∧ 65 ≤ m := by
  have hhex : (ksHexEncode pk).length = 64 := length_ksHexEncode pk
  cases m with
  | zero => cases hread
  | succ j =>
    rw [List.take_succ_cons, List.take_append, hhex] at hread
    change sscanf (ksLine - 1) 1 ([32] ++ ((ksHexEncode pk).take j ++ [10].take (j - 64))) = [hex]
      at hread
    by_cases hj : (ksHexEncode pk).take j = []
    · rw [hj, List.nil_append, sscanf_blank _ _ (blank_space.append (blank_newline.take _))] at hread
      cases hread
    · have hshort : ((ksHexEncode pk).take j).length ≤ ksLine - 1 := by
        rw [List.length_take, hhex]
        exact Nat.le_trans (Nat.min_le_right _ _) (by decide)
      rw [sscanf_word 0 blank_space hj ((hexEncode_plain _).take j) hshort
        (blank_newline.take (j - 64)).edge] at hread
      have hall : (ksHexEncode pk).take j = hex := (List.cons.inj hread).1
      have hlen := length_of_decode hdec
      rw [← hall, List.length_take, hhex] at hlen
      rw [← hall, List.take_of_length_le (by omega), ksHexDecode_encode] at hdec
      cases hdec
      exact ⟨rfl, by omega⟩

section
variable {file} {key : Key} {a b x hex : List UInt8}

/-- The second word is what stands last in the tail, and the name that completes it. -/
theorem coincides_of_second (hne : host.val ≠ []) (hp : Plain host.val)
    (htail : tail file = a ++ (host.val ++ (b ++ x))) (ha : Blank a) (hb : Blank b) (hbne : b ≠ [])
    (hx : Plain x) (hnul : 0 ∉ x)
    (hread : sscanf (ksLine - 1) 1 (b ++ x ++ (hostText host pk).take (room file)) = [hex])
    (hdec : ksHexDecode (.zero 32) hex = .ok key) : Coincides file host key := by
  have hsize := tail_add_room file
  have hpos := room_pos file
  rw [htail] at hsize
  simp only [List.length_append] at hsize
  have htake : host.val.take (room file) ≠ [] := by
    intro h
    rcases List.take_eq_nil_iff.1 h with h | h
    · omega
    · exact hne h
  have hword : x ++ host.val.take (room file) ≠ [] := List.append_ne_nil_of_right_ne_nil _ htake
  rw [take_hostText, List.append_assoc, ← List.append_assoc x,
    sscanf_word 0 hb hword (hx.append (hp.take _))
      (by rw [List.length_append, List.length_take]; omega) ((edge_space _).take _)] at hread
  obtain rfl := (List.cons.inj hread).1
  exact ⟨a, b, x, htail, ha, hb, hbne, hx, hnul, hdec⟩

/-- A second word that ends in the tail is the tail's own, so the tail was an entry. -/
theorem tail_entry {q : List UInt8} (hne : host.val ≠ []) (hp : Plain host.val)
    (hnul : 0 ∉ tail file) (htail : tail file = a ++ (host.val ++ (b ++ (x ++ q)))) (ha : Blank a)
    (hr : Edge (b ++ (x ++ q))) (hb : Blank b) (hxne : x ≠ []) (hx : Plain x) (hq : Edge q)
    (hq0 : q ≠ []) (hcomment : isComment (CStr.ofBytes (headPiece file (hostText host pk))) = false)
    (hread : sscanf (ksLine - 1) 1
      (b ++ (x ++ q) ++ (hostText host pk).take (room file)) = [hex])
    (hdec : ksHexDecode (.zero 32) hex = .ok key) :
    hostEntry (CStr.ofBytes (tail file)) = some (host.val, key) := by
  have hsize := tail_add_room file
  have htne : tail file ≠ [] := by
    rw [htail]
    simp [hne]
  rw [htail] at hsize
  simp only [List.length_append] at hsize
  rw [List.append_assoc, List.append_assoc,
    sscanf_word 0 hb hxne hx (by omega) (hq.append hq0 _)] at hread
  obtain rfl := (List.cons.inj hread).1
  have hcomment' : isComment (CStr.ofBytes (tail file)) = false := by
    rw [isComment, ofBytes_of_notMem hnul]
    rwa [isComment, ofBytes_of_notMem (headPiece_no_nul file pk hnul), headPiece,
      List.head?_append_of_ne_nil _ htne] at hcomment
  have hwords : scanWords 2 (CStr.ofBytes (tail file)) = [host.val, x] := by
    rw [scanWords, ofBytes_of_notMem hnul, htail, sscanf_word 1 ha hne hp (by omega) hr,
      sscanf_word 0 hb hxne hx (by omega) hq]
    rfl
  simp [hostEntry, hcomment', hwords, hdec]

end

/-- **Where the new entry is read.** If the first piece of the new text is an entry for the host
and the tail alone was none, the tail is white space with room, or the coincidence. -/
theorem headPiece_cases (hp : Plain host.val) {key : Key}
    (hold : ∀ key, hostEntry (CStr.ofBytes (tail file)) ≠ some (host.val, key))
    (hnew : hostEntry (CStr.ofBytes (headPiece file (hostText host pk))) = some (host.val, key)) :
    key = pk ∧ Blank (tail file) ∧ host.val.length + 65 ≤ room file ∨ Coincides file host key := by
  have hnul : 0 ∉ tail file := by
    intro h
    rw [headPiece_nul file pk h] at hnew
    exact hold key hnew
  obtain ⟨hcomment, hex, hwords, hdec⟩ := hostEntry_some hnew
  have hsize := tail_add_room file
  have hread : sscanf (ksLine - 1) 2 (tail file ++ (hostText host pk).take (room file)) =
      [host.val, hex] := by
    rw [← hwords, scanWords, ofBytes_of_notMem (headPiece_no_nul file pk hnul), headPiece]
  have hne : host.val ≠ [] := (mem_sscanf (hread ▸ List.mem_cons_self)).1
  have hcases := hread
  rw [hostText] at hcases
  rcases name_cases hp (edge_space _) (Nat.le_of_eq hsize) hcases with
    ⟨hb, hm⟩ | ⟨a, r, htail, ha, hr, hrne⟩
  · -- white space: the name and then the digits
    rw [take_hostText, List.take_of_length_le (Nat.le_of_lt hm),
      sscanf_word 1 hb hne hp (by omega) ((edge_space _).take _)] at hread
    obtain ⟨rfl, h65⟩ := digits_second pk (List.cons.inj hread).2 hdec
    exact .inl ⟨rfl, hb, by omega⟩
  · rw [htail] at hsize
    simp only [List.length_append] at hsize
    rw [htail, List.append_assoc, List.append_assoc,
      sscanf_word 1 ha hne hp (by omega) (hr.append hrne _)] at hread
    have hsecond := (List.cons.inj hread).2
    refine .inr ?_
    rcases scan_cases r with hb | ⟨b, x, q, rfl, hb, hxne, hx, hq⟩
    · -- the name itself is the second word
      rw [← List.append_nil r] at htail hsecond
      exact coincides_of_second pk hne hp htail ha hb hrne (fun _ h => absurd h List.not_mem_nil)
        List.not_mem_nil hsecond hdec
    · have hbne : b ≠ [] := by
        intro hb0
        cases x with
        | nil => exact hxne rfl
        | cons c x =>
          have hspace := hr c (by rw [hb0]; rfl)
          rw [hx c (.head _)] at hspace
          cases hspace
      by_cases hq0 : q = []
      · have hx0 : 0 ∉ x := by
          intro h
          refine hnul ?_
          rw [htail]
          simp [h]
        rw [hq0, List.append_nil] at htail hsecond
        exact coincides_of_second pk hne hp htail ha hb hbne hx hx0 hsecond hdec
      · exact absurd (tail_entry pk hne hp hnul htail ha hr hb hxne hx hq hq0 hcomment hsecond hdec)
          (hold key)

end

/-! ## The map with one more host -/

/-- The file pins `host` to `pk`, and every other name reads as before. -/
structure PinsOnly (file file' : File) (host : CStr) (pk : Key) : Prop where
  pinned : ∀ k, (ksKnownHost file' host k).1 = if k = pk then .matched else .changed
  others : ∀ v, v ≠ host → ∀ k, (ksKnownHost file' v k).1 = (ksKnownHost file v k).1

/-- The last line is finished, or white space with room for the entry; or it is the coincidence, and
the part of the name that the buffer cuts off is no new entry. -/
def HasRoom (file : File) (host : CStr) (pk : Key) : Prop :=
  host.val ≠ [] ∧
    (Blank (tail file) ∧ host.val.length + 65 ≤ room file ∨
      Coincides file host pk ∧ ((cutName file host).val = [] ∨
        (cutName file host).val.head? = some 35 ∨
        (ksKnownHost file (cutName file host) pk).1 ≠ .unknown))

theorem pinsOnly_iff (file file' : File) (host : CStr) (pk : Key) :
    PinsOnly file file' host pk ↔
      keyOf file' host = some pk ∧ ∀ v, v ≠ host → keyOf file' v = keyOf file v := by
  constructor
  · intro h
    exact ⟨(pinned_iff file' host pk).1 h.pinned,
      fun v hv => (results_iff file file' v).1 (h.others v hv)⟩
  · intro h
    exact ⟨(pinned_iff file' host pk).2 h.1,
      fun v hv => (results_iff file file' v).2 (h.2 v hv)⟩

theorem keyIn_some {name : List UInt8} {s : CStr} {key : Key} :
    keyIn name s = some key ↔ hostEntry s = some (name, key) := by
  unfold keyIn
  cases hostEntry s with
  | none => simp
  | some e =>
    obtain ⟨name', key'⟩ := e
    by_cases h : name' = name <;> simp [h]

theorem keyIn_none_of_ne {name : List UInt8} {s : CStr}
    (h : ∀ e, hostEntry s = some e → e.1 ≠ name) : keyIn name s = none := by
  cases hk : keyIn name s with
  | none => rfl
  | some key => exact absurd rfl (h _ (keyIn_some.1 hk))

theorem Coincides.no_entry {file : File} {host : CStr} {pk : Key} (h : Coincides file host pk)
    (hne : host.val ≠ []) (hp : Plain host.val) : hostEntry (CStr.ofBytes (tail file)) = none := by
  have hnul := h.no_nul
  obtain ⟨a, b, p, htail, ha, hb, hbne, hpp, hp0, hdec⟩ := h
  have hsize := tail_add_room file
  rw [htail] at hsize
  simp only [List.length_append] at hsize
  have hpos := room_pos file
  cases he : hostEntry (CStr.ofBytes (tail file)) with
  | none => rfl
  | some e =>
    obtain ⟨-, hex, hwords, hdec'⟩ := hostEntry_some he
    rw [scanWords, ofBytes_of_notMem hnul, htail,
      sscanf_word 1 ha hne hp (by omega) (hb.edge.append hbne _)] at hwords
    have hsecond := (List.cons.inj hwords).2
    by_cases hp' : p = []
    · rw [hp', List.append_nil, sscanf_blank _ _ hb] at hsecond
      cases hsecond
    · have h1 := sscanf_word (w := ksLine - 1) 0 hb hp' hpp (by omega) edge_nil
      rw [List.append_nil] at h1
      rw [h1] at hsecond
      obtain rfl := (List.cons.inj hsecond).1
      have hlen := length_of_decode hdec
      have hlen' := length_of_decode hdec'
      rw [List.length_append, List.length_take] at hlen
      have := List.length_pos_of_ne_nil hne
      omega

/-- **Pinning a host.** For every file and every host that is not on file, `ks_known_host_add` pins
that host and leaves every other name as it was if and only if the end of the file has room for the
entry. -/
theorem known_host_add_iff (opened : Bool) (file : File) (host : CStr) (pk : Key)
    (hlen : host.val.length ≤ 200) (hp : Plain host.val) (hc : host.val.head? ≠ some 35)
    (hnew : ∀ k, (ksKnownHost file host k).1 = .unknown)
    (hadd : (ksKnownHostAdd opened file host pk).1 = true) :
    PinsOnly file (ksKnownHostAdd opened file host pk).2 host pk ↔ HasRoom file host pk := by
  cases opened with
  | false => cases hadd
  | true =>
    have hline : (hostLine host pk).length < ksLine := by
      simp only [hostLine, List.length_append, length_ksHexEncode, List.length_singleton, ksLine]
      omega
    obtain ⟨ls, hscan⟩ := scan_append file (hostLine_no_newline pk hp) hline
    have hfile' : (ksKnownHostAdd true file host pk).2 = fileAppend file (hostText host pk) := rfl
    rw [hfile', pinsOnly_iff]
    rw [← hostText_eq] at hscan
    have hbefore := fun v : CStr => (hscan (keyIn v.val) rfl).1
    have hafter := fun v : CStr => (hscan (keyIn v.val) rfl).2
    have hunknown := (unknown_iff file host pk).1 (hnew pk)
    have hls : (ls.findSome? fun l => keyIn host.val (CStr.ofBytes l)) = none ∧
        keyIn host.val (CStr.ofBytes (tail file)) = none := by
      rw [keyOf, hbefore host] at hunknown
      exact Option.or_eq_none_iff.1 hunknown
    have hrest : keyIn host.val (CStr.ofBytes (restPiece file (hostText host pk))) = none :=
      keyIn_none_of_ne fun e he => (restPiece_other file pk hlen hp he).2.2.2.2
    have htail : ∀ key, hostEntry (CStr.ofBytes (tail file)) ≠ some (host.val, key) := by
      intro key h
      rw [keyIn_some.2 h] at hls
      cases hls.2
    constructor
    · intro ⟨hpin, hothers⟩
      have hhead : hostEntry (CStr.ofBytes (headPiece file (hostText host pk))) =
          some (host.val, pk) := by
        rw [keyOf, hafter host, hls.1, hrest, Option.none_or, Option.or_none] at hpin
        exact keyIn_some.1 hpin
      have hne : host.val ≠ [] := by
        obtain ⟨-, hex, hwords, -⟩ := hostEntry_some hhead
        exact (mem_sscanf (hwords ▸ List.mem_cons_self)).1
      refine ⟨hne, (headPiece_cases file pk hp htail hhead).imp And.right fun hco => ⟨hco, ?_⟩⟩
      by_cases hcut : (cutName file host).val = []
      · exact .inl hcut
      by_cases hcut' : (cutName file host).val.head? = some 35
      · exact .inr (.inl hcut')
      refine .inr (.inr fun hu => ?_)
      have hm : room file < host.val.length := by
        refine Nat.lt_of_not_le fun hm => hcut ?_
        exact List.drop_of_length_le hm
      have hrest' := restPiece_within file pk hlen hp hm hcut'
      have hcutne : host.val ≠ (cutName file host).val := by
        intro h
        exact (restPiece_other file pk hlen hp hrest').2.2.2.2 h.symm
      have hnone := (unknown_iff file (cutName file host) pk).1 hu
      have hafter' := hothers (cutName file host) fun h => hcutne (congrArg Subtype.val h).symm
      rw [hnone, keyOf, hafter (cutName file host), keyIn_some.2 hrest'] at hafter'
      simp at hafter'
    · intro ⟨hne, hroom⟩
      have hhead : hostEntry (CStr.ofBytes (headPiece file (hostText host pk))) =
          some (host.val, pk) := by
        rcases hroom with ⟨hb, hm⟩ | ⟨hco, -⟩
        · exact headPiece_blank file pk hne hp hc hlen hb hm
        · exact headPiece_coincides file pk hne hp hc hco
      have hnone : hostEntry (CStr.ofBytes (tail file)) = none := by
        rcases hroom with ⟨hb, -⟩ | ⟨hco, -⟩
        · refine hostEntry_short ?_
          rw [scanWords, ofBytes_of_notMem hb.no_nul, sscanf_blank _ _ hb]
          exact Nat.zero_le 1
        · exact hco.no_entry hne hp
      have htail' : ∀ v : CStr, keyIn v.val (CStr.ofBytes (tail file)) = none := by
        intro v
        refine keyIn_none_of_ne fun e he => ?_
        rw [hnone] at he
        cases he
      refine ⟨?_, fun v hv => ?_⟩
      · rw [keyOf, hafter host, hls.1, keyIn_some.2 hhead]
        rfl
      · have hheadv : keyIn v.val (CStr.ofBytes (headPiece file (hostText host pk))) = none := by
          refine keyIn_none_of_ne fun e he => ?_
          rw [hhead] at he
          cases he
          exact fun h => hv (Subtype.ext h).symm
        rw [keyOf, keyOf, hafter v, hbefore v, hheadv, htail' v, Option.none_or, Option.or_none]
        cases hk : keyIn v.val (CStr.ofBytes (restPiece file (hostText host pk))) with
        | none => exact Option.or_none
        | some key =>
          -- the rest of the name is on file already, in a line that is read first
          obtain ⟨hm, hv', -, hcut, -⟩ := restPiece_other file pk hlen hp (keyIn_some.1 hk)
          rcases hroom with ⟨-, hm'⟩ | ⟨-, hcut' | hcut' | hknown⟩
          · omega
          · have := congrArg List.length hcut'
            simp only [cutName, List.length_drop, List.length_nil] at this
            omega
          · exact absurd hcut' hcut
          · have hveq : v = cutName file host := Subtype.ext hv'
            rw [ne_eq, unknown_iff, ← hveq, keyOf, hbefore v, htail' v, Option.or_none] at hknown
            cases hls' : ls.findSome? fun l => keyIn v.val (CStr.ofBytes l) with
            | none => exact absurd hls' hknown
            | some key => rfl

/-- A host behind a finished line. -/
theorem known_host_add_finished :
    PinsOnly (some (ascii "old" ++ [10])) (ksKnownHostAdd true (some (ascii "old" ++ [10]))
      ⟨ascii "new", by decide +kernel⟩ (.zero 32)).2 ⟨ascii "new", by decide +kernel⟩ (.zero 32) :=
  (known_host_add_iff true (some (ascii "old" ++ [10])) ⟨ascii "new", by decide⟩ (.zero 32)
    (by decide +kernel) (by decide +kernel) (by decide +kernel)
    (fun k => (unknown_iff _ _ k).2 (by decide)) rfl).2
    ⟨by decide +kernel, .inl (by decide +kernel)⟩

/-- A `known_hosts` file without a final newline. -/
def unfinishedHosts : File := some (ascii "old " ++ ksHexEncode (Bytes.zero 32))

/-- The new entry is appended to the last line: that line's key is gone, and the new one is not
read. -/
theorem unfinished_line_unpins :
    let host : CStr := ⟨ascii "new", by decide +kernel⟩
    let file' := (ksKnownHostAdd true unfinishedHosts host (.zero 32)).2
    (host.val.length ≤ 200 ∧ Plain host.val ∧ host.val.head? ≠ some 35 ∧
      ∀ k, (ksKnownHost unfinishedHosts host k).1 = .unknown) ∧
      ¬PinsOnly unfinishedHosts file' host (.zero 32) ∧
      (ksKnownHost unfinishedHosts ⟨ascii "old", by decide +kernel⟩ (.zero 32)).1 = .matched ∧
      (ksKnownHost file' ⟨ascii "old", by decide +kernel⟩ (.zero 32)).1 = .unknown := by
  refine ⟨⟨by decide +kernel, by decide +kernel, by decide +kernel,
    fun k => (unknown_iff _ _ k).2 (by decide)⟩, fun h => ?_, by decide,
    by decide +kernel⟩
  have h1 := h.others ⟨ascii "old", by decide⟩ (by decide) (.zero 32)
  revert h1
  decide +kernel

end Netchan.Keystore
