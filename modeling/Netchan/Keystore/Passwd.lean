import Netchan.Keystore.Append

/-!
# Registering an account

`passwd` is read by `ks_check_password`, which wants three words, and by `ks_user_exists`, which
wants one. `ks_passwd_add` is to add one account, with that password, and to change no other.

It does exactly if the name has no white space, is not taken for a comment, and the last line of the
file is finished, or white space that leaves room: `passwd_add_iff`. The name is printed as it came,
so that one with a newline in it is a line, and an account, of its own.
-/

namespace Netchan.Keystore

open Lib
open Crypto (Key)

/-! ## Lines of an account -/

theorem passwordLine_some {user s : CStr} {e : Salt × Key} (h : passwordLine user s = some e) :
    isComment s = false ∧ ∃ saltHex hashHex, scanWords 3 s = [user.val, saltHex, hashHex] ∧
      ksHexDecode (.zero ksSaltLen) saltHex = .ok e.1 ∧ ksHexDecode (.zero 32) hashHex = .ok e.2 := by
  unfold passwordLine at h
  split at h
  · cases h
  · rename_i hc
    refine ⟨by simpa using hc, ?_⟩
    split at h
    · rename_i name saltHex hashHex hw
      split at h
      · cases h
      · rename_i hname
        split at h
        · rename_i salt want hsalt hwant
          cases h
          rw [Decidable.not_not.1 hname] at hw
          exact ⟨saltHex, hashHex, hw, hsalt, hwant⟩
        · cases h
    · cases h

theorem userLine_of_first {user s : CStr} {k : Nat} {ws : List (List UInt8)}
    (hc : isComment s = false) (hw : scanWords k s = user.val :: ws) : userLine user s = some () := by
  have h1 : scanWords 1 s = [user.val] := sscanf_first hw
  simp [userLine, hc, h1]

/-- What is no account for `ks_user_exists` is none for `ks_check_password`. -/
theorem passwordLine_none {user s : CStr} (h : userLine user s = none) :
    passwordLine user s = none := by
  cases hp : passwordLine user s with
  | none => rfl
  | some e =>
    obtain ⟨hc, saltHex, hashHex, hw, -⟩ := passwordLine_some hp
    rw [userLine_of_first hc hw] at h
    cases h

theorem userLine_none_of_ne {user s : CStr} {name : List UInt8} {k : Nat} {ws : List (List UInt8)}
    (hw : scanWords k s = name :: ws) (hne : name ≠ user.val) : userLine user s = none := by
  have h1 : scanWords 1 s = [name] := sscanf_first hw
  simp [userLine, h1, hne]

theorem userLine_blank {user s : CStr} (h : Blank s.val) : userLine user s = none := by
  have h1 : scanWords 1 s = [] := sscanf_blank _ _ h
  simp [userLine, h1]

/-- The words of a written line, behind white space. -/
theorem account_words {s : CStr} {a name r : List UInt8} {salt : Salt} {hash : Key}
    (hs : s.val = a ++ (name ++ ([32] ++ (ksHexEncode salt ++ ([32] ++ (ksHexEncode hash ++ r))))))
    (ha : Blank a) (hne : name ≠ []) (hp : Plain name) (hr : Edge r)
    (hlen : name.length ≤ ksLine - 1) :
    scanWords 3 s = [name, ksHexEncode salt, ksHexEncode hash] := by
  have hsalt : (ksHexEncode salt).length = 32 := length_ksHexEncode salt
  have hhash : (ksHexEncode hash).length = 64 := length_ksHexEncode hash
  have hsaltne : ksHexEncode salt ≠ [] := fun h => by simp [h] at hsalt
  have hhashne : ksHexEncode hash ≠ [] := fun h => by simp [h] at hhash
  have hedge : ∀ l : List UInt8, Edge ([32] ++ l) := edge_space
  rw [scanWords, hs, sscanf_word 2 ha hne hp hlen (hedge _),
    sscanf_word 1 blank_space hsaltne (hexEncode_plain _) (by rw [hsalt]; decide) (hedge _),
    sscanf_word 0 blank_space hhashne (hexEncode_plain _) (by rw [hhash]; decide) hr]
  rfl

section
variable (file : File) (user : CStr) (salt : Salt) (hash : Key)

/-- What an account line is but for its newline. -/
def accountLine : List UInt8 :=
  user.val ++ ([32] ++ (ksHexEncode salt ++ ([32] ++ ksHexEncode hash)))

theorem accountText_eq : accountText user salt hash = accountLine user salt hash ++ [10] := by
  simp [accountText, accountLine]

theorem length_accountLine : (accountLine user salt hash).length = user.val.length + 98 := by
  simp only [accountLine, List.length_append, length_ksHexEncode, List.length_singleton, ksSaltLen]

variable {user}

theorem accountLine_no_newline (hp : Plain user.val) : 10 ∉ accountLine user salt hash := by
  intro h
  simp only [accountLine, List.mem_append, List.mem_singleton] at h
  rcases h with h | h | h | h | h
  · exact absurd (hp 10 h) (by decide)
  · exact absurd h (by decide)
  · exact absurd (hexEncode_plain _ 10 h) (by decide)
  · exact absurd h (by decide)
  · exact absurd (hexEncode_plain _ 10 h) (by decide)

theorem accountText_no_nul : 0 ∉ accountText user salt hash := by
  intro h
  simp only [accountText_eq, accountLine, List.mem_append, List.mem_singleton] at h
  rcases h with (h | h | h | h | h) | h
  · exact user.property h
  · exact absurd h (by decide)
  · exact (hexEncode_digits h).2.1 rfl
  · exact absurd h (by decide)
  · exact (hexEncode_digits h).2.1 rfl
  · exact absurd h (by decide)

/-- What the buffer cuts off is no account of the user. -/
theorem passwordLine_restPiece (hlen : user.val.length ≤ 64) (hp : Plain user.val) :
    passwordLine user (CStr.ofBytes (restPiece file (accountText user salt hash))) = none := by
  have hnul : 0 ∉ restPiece file (accountText user salt hash) :=
    fun h => accountText_no_nul salt hash (List.mem_of_mem_drop h)
  have hpos := room_pos file
  have hsalt : (ksHexEncode salt).length = 32 := length_ksHexEncode salt
  have hhash : (ksHexEncode hash).length = 64 := length_ksHexEncode hash
  cases he : passwordLine user (CStr.ofBytes (restPiece file (accountText user salt hash))) with
  | none => rfl
  | some e =>
    exfalso
    obtain ⟨-, saltHex, hashHex, hw, -⟩ := passwordLine_some he
    rw [scanWords, ofBytes_of_notMem hnul, restPiece] at hw
    rcases Nat.lt_or_ge (room file) user.val.length with hm | hm
    · -- the first word is a rest of the name
      have hne : user.val.drop (room file) ≠ [] := by
        intro h
        have := congrArg List.length h
        rw [List.length_drop, List.length_nil] at this
        omega
      rw [accountText, List.drop_append_of_le_length (Nat.le_of_lt hm), ← List.nil_append (_ ++ _),
        sscanf_word 2 blank_nil hne (hp.drop _)
        (by
          rw [List.length_drop]
          exact Nat.le_trans (Nat.sub_le _ _) (Nat.le_trans hlen (by decide)))
        (edge_space _)] at hw
      have h1 := congrArg List.length (List.cons.inj hw).1
      rw [List.length_drop] at h1
      omega
    · -- two words are left at most
      have hcut : (accountText user salt hash).drop (room file) =
          ([32] ++ ksHexEncode salt).drop (room file - user.val.length) ++
            ([32] ++ (ksHexEncode hash ++ [10])).drop (room file - user.val.length - 33) := by
        have hl : ([32] ++ ksHexEncode salt).length = 33 := by simp [hsalt]
        have happ : accountText user salt hash =
            user.val ++ (([32] ++ ksHexEncode salt) ++ ([32] ++ (ksHexEncode hash ++ [10]))) := by
          simp [accountText]
        rw [happ, List.drop_append, List.drop_of_length_le hm, List.nil_append,
          List.drop_append, hl]
      have hlast : ∀ j, (sscanf (ksLine - 1) 3
          (([32] ++ (ksHexEncode hash ++ [10])).drop j)).length ≤ 1 := by
        intro j
        rw [List.drop_append, List.drop_append]
        exact sscanf_one 3 (blank_space.drop _) ((hexEncode_plain _).drop _)
          (by rw [List.length_drop, hhash]; exact Nat.le_trans (Nat.sub_le _ _) (by decide))
          (blank_newline.drop _)
      have htwo : (sscanf (ksLine - 1) 3 ((accountText user salt hash).drop (room file))).length ≤
          2 := by
        rw [hcut]
        rcases Nat.lt_or_ge 33 (room file - user.val.length) with hj | hj
        · rw [List.drop_of_length_le (by simp [hsalt]; omega), List.nil_append]
          exact Nat.le_trans (hlast _) (by decide)
        · rw [Nat.sub_eq_zero_of_le hj, List.drop_zero, List.drop_append, List.append_assoc]
          refine Nat.le_trans (length_sscanf_word _ 3 (blank_space.drop _) ((hexEncode_plain _).drop _) ?_
            (edge_space _)) (Nat.succ_le_succ (hlast 0))
          rw [List.length_drop, hsalt]
          exact Nat.le_trans (Nat.sub_le _ _) (by decide)
      rw [hw] at htwo
      simp at htwo

end

/-! ## One more account -/

/-- The user's account has the password, and all other names read as before. -/
structure Registers (stretch : CStr → Salt → Key) (file file' : File) (user password : CStr) :
    Prop where
  accepts : ksCheckPassword stretch file' user password = true
  rejects : ∀ q, q ≠ password → ksCheckPassword stretch file' user q = false
  passwords : ∀ v, v ≠ user → ∀ q,
    ksCheckPassword stretch file' v q = ksCheckPassword stretch file v q
  names : ∀ v, v ≠ user → ksUserExists file' v = ksUserExists file v

/-- The name is one word and no comment, and the last line is finished, or white space with room. -/
structure AccountRoom (file : File) (user : CStr) : Prop where
  plain : Plain user.val
  comment : (tail file ++ user.val).head? ≠ some 35
  blank : Blank (tail file)
  fits : user.val.length + 98 ≤ room file

theorem plain_of_accepts {stretch : CStr → Salt → Key} {file : File} {user password : CStr}
    (h : ksCheckPassword stretch file user password = true) :
    Plain user.val ∧ ∃ e, scanFile file (passwordLine user) = some e := by
  unfold ksCheckPassword at h
  cases he : scanFile file (passwordLine user) with
  | none =>
    rw [he] at h
    cases h
  | some e =>
    refine ⟨?_, e, rfl⟩
    obtain ⟨s, -, hs⟩ := Option.bind_eq_some_iff.1 he
    obtain ⟨l, -, hl⟩ := List.exists_of_findSome?_eq_some hs
    obtain ⟨-, saltHex, hashHex, hw, -⟩ := passwordLine_some hl
    exact (mem_sscanf (hw ▸ List.mem_cons_self)).2

section
variable (file : File) {user : CStr} (salt : Salt) (hash : Key)

/-- **Where the new account is read.** If the first piece of the new text is an account of the user
and the tail alone was no line of the user, there is room. -/
theorem AccountRoom.of_headPiece (hp : Plain user.val)
    (hold : userLine user (CStr.ofBytes (tail file)) = none) {e : Salt × Key}
    (hnew : passwordLine user (CStr.ofBytes (headPiece file (accountText user salt hash))) =
      some e) : AccountRoom file user := by
  have hnul : 0 ∉ tail file := by
    intro h
    have heq : CStr.ofBytes (headPiece file (accountText user salt hash)) =
        CStr.ofBytes (tail file) := ofBytes_append_of_mem h _
    rw [heq, passwordLine_none hold] at hnew
    cases hnew
  have hnul' : 0 ∉ headPiece file (accountText user salt hash) := by
    rw [headPiece, List.mem_append]
    exact not_or_intro hnul fun h => accountText_no_nul salt hash (List.mem_of_mem_take h)
  obtain ⟨hcomment, saltHex, hashHex, hw, hsalt, hhash⟩ := passwordLine_some hnew
  have hne : user.val ≠ [] := (mem_sscanf (hw ▸ List.mem_cons_self)).1
  have hsize := tail_add_room file
  rw [isComment, ofBytes_of_notMem hnul'] at hcomment
  rw [scanWords, ofBytes_of_notMem hnul', headPiece, accountText] at hw
  rcases name_cases hp (edge_space _) (Nat.le_of_eq hsize) hw with
    ⟨hb, hm⟩ | ⟨a, r, htail, ha, hr, hrne⟩
  · refine ⟨hp, ?_, hb, ?_⟩
    · have hhead : (headPiece file (accountText user salt hash)).head? =
          (tail file ++ user.val).head? := by
        rw [headPiece, accountText, List.take_append, List.take_of_length_le (Nat.le_of_lt hm),
          ← List.append_assoc, List.head?_append_of_ne_nil]
        exact List.append_ne_nil_of_right_ne_nil _ hne
      rw [hhead] at hcomment
      simpa using hcomment
    · -- the two fields that were read are as long as those written
      obtain ⟨j, hj⟩ : ∃ j, room file = user.val.length + (j + 1) :=
        ⟨room file - user.val.length - 1, by omega⟩
      rw [List.take_append, List.take_of_length_le (Nat.le_of_lt hm), hj, Nat.add_sub_cancel_left,
        List.take_succ_cons, sscanf_word 2 hb hne hp (by omega) (edge_space _)] at hw
      have htwo := (List.cons.inj hw).2
      rw [← List.singleton_append, sscanf_skip _ 2 blank_space] at htwo
      have hle : ((ksHexEncode salt ++ 32 :: (ksHexEncode hash ++ [10])).take j).length ≤ j :=
        List.length_take_le _ _
      have hsum := sum_sscanf_le (ksLine - 1) 2 _ (Nat.le_trans hle (by omega))
      rw [htwo] at hsum
      simp only [List.map_cons, List.map_nil, List.sum_cons, List.sum_nil,
        length_of_decode hsalt, length_of_decode hhash, ksSaltLen] at hsum
      omega
  · -- the tail was a line of the user
    exfalso
    have htne : tail file ≠ [] := by
      intro h
      rw [h] at htail
      simp [hne] at htail
    have hcomment' : isComment (CStr.ofBytes (tail file)) = false := by
      rw [isComment, ofBytes_of_notMem hnul]
      rwa [headPiece, List.head?_append_of_ne_nil _ htne] at hcomment
    have hw1 : scanWords 1 (CStr.ofBytes (tail file)) = [user.val] := by
      rw [scanWords, ofBytes_of_notMem hnul, htail]
      have hl := congrArg List.length htail
      simp only [List.length_append] at hl
      exact sscanf_word 0 ha hne hp (by omega) hr
    rw [userLine_of_first hcomment' hw1] at hold
    cases hold

theorem AccountRoom.headPiece {file : File} (h : AccountRoom file user) (hne : user.val ≠ []) :
    isComment (CStr.ofBytes (headPiece file (accountText user salt hash))) = false ∧
      scanWords 3 (CStr.ofBytes (headPiece file (accountText user salt hash))) =
        [user.val, ksHexEncode salt, ksHexEncode hash] := by
  have hnul := h.blank.no_nul
  have hnul' : 0 ∉ Keystore.headPiece file (accountText user salt hash) := by
    rw [Keystore.headPiece, List.mem_append]
    exact not_or_intro hnul fun h => accountText_no_nul salt hash (List.mem_of_mem_take h)
  have hsize := tail_add_room file
  have hfits := h.fits
  have htake : (accountText user salt hash).take (room file) = user.val ++ ([32] ++
      (ksHexEncode salt ++ ([32] ++ (ksHexEncode hash ++
        [10].take (room file - (user.val.length + 98)))))) := by
    rw [accountText_eq, List.take_append,
      List.take_of_length_le (by rw [length_accountLine]; exact hfits), length_accountLine]
    simp [accountLine]
  constructor
  · rw [isComment, ofBytes_of_notMem hnul', Keystore.headPiece, htake, ← List.append_assoc,
      List.head?_append_of_ne_nil _ (List.append_ne_nil_of_right_ne_nil _ hne)]
    exact decide_eq_false h.comment
  · refine account_words (a := tail file) (r := [10].take (room file - (user.val.length + 98))) ?_
      h.blank hne h.plain ?_ (by omega)
    · rw [ofBytes_of_notMem hnul', Keystore.headPiece, htake]
    · exact (blank_newline.take _).edge

end

/-- **Registering an account.** For every file and every free name, `ks_passwd_add` makes the
account with its password, and touches no other, if and only if the name is a word and there is
room for the line. -/
theorem passwd_add_iff (stretch : CStr → Salt → Key) (random : Option Salt) (opened : Bool)
    (file : File) (user password : CStr)
    (hinj : ∀ salt q, stretch q salt = stretch password salt → q = password)
    (hne : user.val ≠ []) (hlen : user.val.length ≤ 64) (hfree : ksUserExists file user = false)
    (hadd : (ksPasswdAdd stretch random opened file user password).1 = true) :
    Registers stretch file (ksPasswdAdd stretch random opened file user password).2 user password ↔
      AccountRoom file user := by
  cases random with
  | none => cases hadd
  | some salt =>
    cases opened with
    | false => cases hadd
    | true =>
      have hfile' : (ksPasswdAdd stretch (some salt) true file user password).2 =
          fileAppend file (accountText user salt (stretch password salt)) := rfl
      rw [hfile']
      have hfind : scanFile file (userLine user) = none := by simpa [ksUserExists] using hfree
      -- both directions read the pieces of the new file, for a name without newlines
      have hread : Plain user.val → ∃ ls : List (List UInt8),
          ∀ {β : Type} (f : CStr → Option β), f (CStr.ofBytes []) = none →
            scanFile file f =
              (ls.findSome? fun l => f (CStr.ofBytes l)).or (f (CStr.ofBytes (tail file))) ∧
            scanFile (fileAppend file (accountText user salt (stretch password salt))) f =
              (ls.findSome? fun l => f (CStr.ofBytes l)).or
                ((f (CStr.ofBytes
                  (headPiece file (accountText user salt (stretch password salt))))).or
                (f (CStr.ofBytes
                  (restPiece file (accountText user salt (stretch password salt)))))) := by
        intro hp
        have hline : (accountLine user salt (stretch password salt)).length < ksLine := by
          rw [length_accountLine]
          simp only [ksLine]
          omega
        have h := scan_append file (accountLine_no_newline salt (stretch password salt) hp) hline
        rwa [← accountText_eq] at h
      have hold : ∀ {ls : List (List UInt8)},
          scanFile file (userLine user) = (ls.findSome? fun l => userLine user (CStr.ofBytes l)).or
            (userLine user (CStr.ofBytes (tail file))) →
          (ls.findSome? fun l => passwordLine user (CStr.ofBytes l)) = none ∧
            userLine user (CStr.ofBytes (tail file)) = none := by
        intro ls h
        rw [hfind] at h
        obtain ⟨h1, h2⟩ := Option.or_eq_none_iff.1 h.symm
        refine ⟨List.findSome?_eq_none_iff.2 fun l hl => ?_, h2⟩
        exact passwordLine_none (List.findSome?_eq_none_iff.1 h1 l hl)
      constructor
      · intro hreg
        obtain ⟨hp, e, he⟩ := plain_of_accepts hreg.accepts
        obtain ⟨ls, hscan⟩ := hread hp
        obtain ⟨hls, htail⟩ := hold (hscan (userLine user) rfl).1
        rw [(hscan (passwordLine user) rfl).2, hls, passwordLine_restPiece file salt _ hlen hp,
          Option.none_or, Option.or_none] at he
        exact AccountRoom.of_headPiece file salt _ hp htail he
      · intro hroom
        obtain ⟨ls, hscan⟩ := hread hroom.plain
        obtain ⟨hls, -⟩ := hold (hscan (userLine user) rfl).1
        obtain ⟨hcomment, hwords⟩ := hroom.headPiece salt (stretch password salt) hne
        have hrest : Blank (CStr.ofBytes
            (restPiece file (accountText user salt (stretch password salt)))).val := by
          have hl := hroom.fits
          rw [restPiece, accountText_eq, List.drop_append, List.drop_of_length_le
            (by rw [length_accountLine]; exact hl), List.nil_append]
          exact fun b hb => blank_newline.drop _ b (List.takeWhile_subset _ hb)
        have htail : Blank (CStr.ofBytes (tail file)).val :=
          fun b hb => hroom.blank b (List.takeWhile_subset _ hb)
        have hentry : scanFile (fileAppend file (accountText user salt (stretch password salt)))
            (passwordLine user) = some (salt, stretch password salt) := by
          have hhead : passwordLine user (CStr.ofBytes
              (headPiece file (accountText user salt (stretch password salt)))) =
              some (salt, stretch password salt) := by
            simp [passwordLine, hcomment, hwords, ksHexDecode_encode]
          rw [(hscan (passwordLine user) rfl).2, hls, hhead]
          rfl
        have hname : ∀ v, v ≠ user → userLine v (CStr.ofBytes
            (headPiece file (accountText user salt (stretch password salt)))) = none :=
          fun v hv => userLine_none_of_ne hwords fun h => hv (Subtype.ext h).symm
        refine ⟨?_, fun q hq => ?_, fun v hv q => ?_, fun v hv => ?_⟩
        · simp [ksCheckPassword, hentry]
        · simp only [ksCheckPassword, hentry]
          exact decide_eq_false fun h => hq (hinj salt q h)
        · have hsame : scanFile (fileAppend file
              (accountText user salt (stretch password salt))) (passwordLine v) =
              scanFile file (passwordLine v) := by
            rw [(hscan (passwordLine v) rfl).2, (hscan (passwordLine v) rfl).1,
              passwordLine_none (hname v hv), passwordLine_none (userLine_blank hrest),
              passwordLine_none (userLine_blank htail), Option.none_or]
          simp only [ksCheckPassword, hsame]
        · rw [ksUserExists, ksUserExists, (hscan (userLine v) rfl).2, (hscan (userLine v) rfl).1,
            hname v hv, userLine_blank hrest, userLine_blank htail, Option.none_or]

/-- A stretch that tells one password from all others. -/
def oneStretch (password q : CStr) (_ : Salt) : Key :=
  if q = password then .zero 32 else ⟨List.replicate 32 1, List.length_replicate⟩

theorem oneStretch_inj (password : CStr) (salt : Salt) (q : CStr)
    (h : oneStretch password q salt = oneStretch password password salt) : q = password := by
  by_cases hq : q = password
  · exact hq
  · simp only [oneStretch, if_neg hq, if_pos] at h
    exact absurd h (by decide)

theorem passwd_add_first :
    Registers (oneStretch ⟨ascii "correct horse", by decide +kernel⟩) none
      (ksPasswdAdd (oneStretch ⟨ascii "correct horse", by decide +kernel⟩) (some (.zero 16)) true none
        ⟨ascii "alice", by decide +kernel⟩ ⟨ascii "correct horse", by decide +kernel⟩).2
      ⟨ascii "alice", by decide +kernel⟩ ⟨ascii "correct horse", by decide +kernel⟩ :=
  (passwd_add_iff _ (some (.zero 16)) true none ⟨ascii "alice", by decide⟩
    ⟨ascii "correct horse", by decide⟩ (oneStretch_inj _) (by decide)
    (by decide) (by decide) rfl).2
    ⟨by decide +kernel, by decide +kernel, by decide +kernel, by decide +kernel⟩

/-- A name with a newline makes another account, here one of `alice`. -/
theorem newline_registers_other :
    let alice : CStr := ⟨ascii "alice", by decide +kernel⟩
    let user : CStr := ⟨ascii "bob x" ++ [10] ++ ascii "alice", by decide +kernel⟩
    let password : CStr := ⟨ascii "correct horse", by decide +kernel⟩
    let stretch := oneStretch password
    let file' := (ksPasswdAdd stretch (some (.zero 16)) true none user password).2
    (user.val ≠ [] ∧ user.val.length ≤ 64 ∧ ksUserExists none user = false ∧
      ∀ salt q, stretch q salt = stretch password salt → q = password) ∧
      ¬Registers stretch none file' user password ∧
      ksUserExists none alice = false ∧ ksCheckPassword stretch file' alice password = true ∧
      ksCheckPassword stretch file' user password = false := by
  refine ⟨⟨by decide, by decide, by decide, oneStretch_inj _⟩,
    fun h => ?_, by decide, by decide, by decide⟩
  have h1 := h.accepts
  revert h1
  decide

end Netchan.Keystore
