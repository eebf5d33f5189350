import Netchan.Keystore.Core

/-!
# Appending a line

What a reader of lines finds after a line is appended to a file.

* `tail` is the last line of a file if it is not finished, `room` what the buffer has left behind
  it.
* `scan_append` gives the readings before and after as those of the lines before the tail, then of
  the tail alone, or of the tail with the new line, which the buffer may cut into `headPiece` and
  `restPiece`.
-/

namespace Netchan.Keystore

open Lib

/-- The unfinished last line of a file. -/
def tail (file : File) : List UInt8 := pending (ksLine - 1) (file.getD [])

/-- What the buffer of a reader has left behind the tail. -/
def room (file : File) : Nat := ksLine - 1 - (tail file).length

/-- What the buffer holds of the tail and the text after it. -/
def headPiece (file : File) (text : List UInt8) : List UInt8 := tail file ++ text.take (room file)

/-- What is read after `headPiece`. -/
def restPiece (file : File) (text : List UInt8) : List UInt8 := text.drop (room file)

theorem tail_short (file : File) : (tail file).length < ksLine - 1 ∧ 10 ∉ tail file := by
  obtain ⟨_, -, -, h⟩ := lines_pending (n := ksLine - 1) (by decide) (file.getD [])
  exact h

theorem room_pos (file : File) : 0 < room file := Nat.sub_pos_of_lt (tail_short file).1

theorem tail_add_room (file : File) : (tail file).length + room file = ksLine - 1 := by
  have := (tail_short file).1
  simp only [room]
  omega

/-- The readings of a file before and after a line is appended. -/
theorem scan_append (file : File) {x : List UInt8} (hx : 10 ∉ x) (hlen : x.length < ksLine) :
    ∃ ls : List (List UInt8), ∀ {β : Type} (f : CStr → Option β), f (CStr.ofBytes []) = none →
      scanFile file f =
        (ls.findSome? fun l => f (CStr.ofBytes l)).or (f (CStr.ofBytes (tail file))) ∧
      scanFile (fileAppend file (x ++ [10])) f =
        (ls.findSome? fun l => f (CStr.ofBytes l)).or
          ((f (CStr.ofBytes (headPiece file (x ++ [10])))).or
            (f (CStr.ofBytes (restPiece file (x ++ [10]))))) := by
  have hn : 0 < ksLine - 1 := by decide
  obtain ⟨ls, happ, hls, hshort, hnl⟩ := lines_pending hn (file.getD [])
  refine ⟨ls, fun f hf => ⟨?_, ?_⟩⟩
  · have hfile : scanFile file f =
        (lines (ksLine - 1) (file.getD [])).findSome? fun l => f (CStr.ofBytes l) := by
      cases file <;> rfl
    have htail : (lines (ksLine - 1) (tail file)).findSome? (fun l => f (CStr.ofBytes l)) =
        f (CStr.ofBytes (tail file)) :=
      findSome?_piece hn hf hshort hnl
    rw [hfile, hls, List.findSome?_append]
    exact congrArg _ htail
  · have hline : 10 ∉ tail file ++ x := by
      rw [List.mem_append]
      exact not_or_intro (tail_short file).2 hx
    have hsum : (tail file ++ x).length < 2 * (ksLine - 1) := by
      have := (tail_short file).1
      rw [List.length_append]
      simp only [ksLine] at *
      omega
    change (lines (ksLine - 1) (file.getD [] ++ (x ++ [10]))).findSome? _ = _
    rw [happ, List.findSome?_append]
    refine congrArg _ ?_
    change (lines (ksLine - 1) (tail file ++ (x ++ [10]))).findSome? _ = _
    have hle := Nat.le_of_lt (tail_short file).1
    rw [← List.append_assoc, findSome?_line hn hf hline hsum, List.append_assoc, List.take_append,
      List.drop_append, List.take_of_length_le hle, List.drop_of_length_le hle]
    rfl

end Netchan.Keystore
