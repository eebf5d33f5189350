/-!
# Text in bytes

* `ascii`: the bytes of a string constant.
* `lower`: ASCII letters without case.
* `isIdentifier`: a text that a C compiler takes for a name.
-/

namespace Lib

/-- The bytes of an ASCII string. -/
def ascii (s : String) : List UInt8 := s.toList.map fun c => UInt8.ofNat c.toNat

/-- `if (a >= 'A' && a <= 'Z') a += 32`. -/
def lower (a : UInt8) : UInt8 := if 65 ≤ a ∧ a ≤ 90 then a + 32 else a

/-- The keywords of C. -/
def keywords : List (List UInt8) :=
  ["auto", "break", "case", "char", "const", "continue", "default", "do", "double", "else", "enum",
    "extern", "float", "for", "goto", "if", "inline", "int", "long", "register", "restrict", "return",
    "short", "signed", "sizeof", "static", "struct", "switch", "typedef", "union", "unsigned", "void",
    "volatile", "while", "_Alignas", "_Alignof", "_Atomic", "_Bool", "_Complex", "_Generic",
    "_Imaginary", "_Noreturn", "_Static_assert", "_Thread_local"].map ascii

/-- Letters and the underscore. -/
def isNondigit (b : UInt8) : Bool := (97 ≤ lower b && lower b ≤ 122) || b == 95

/-- An identifier: letters, digits and underscores, no digit first, and not a keyword. -/
def isIdentifier (s : List UInt8) : Bool :=
  s.head?.any isNondigit && s.all (fun b => isNondigit b || (48 ≤ b && b ≤ 57)) &&
    !keywords.contains s

example : isIdentifier (ascii "a_len") ∧ ¬ isIdentifier (ascii "a[2]") ∧
    ¬ isIdentifier (ascii "int") := by decide

end Lib
