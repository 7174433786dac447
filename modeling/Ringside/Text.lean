import Mathlib.Data.List.Infix
import Mathlib.Data.List.DropRight

/-!
# Texts

The operations of Python's strings that the launch tools and parsers use, on lists of characters:
`strip`, `splitlines`, `partition`, `int` and the parts of a path.

* `splitLines` drops the line breaks; a last line that is empty is none. All the line breaks of
  `str.splitlines` are breaks, not only the newline.
* `int?` takes single underscores between digits and a sign, as `int` does. The digits of a number
  are those of ASCII.
* `pathParts` has no empty part and no `.`, as `pathlib` has it.
-/

namespace Ringside.Text

/-- `str.isspace`, of one character. -/
def isSpace (c : Char) : Bool :=
  c.val ∈ [0x20, 0x85, 0xa0, 0x1680, 0x2028, 0x2029, 0x202f, 0x205f, 0x3000] ∨
    0x9 ≤ c.val ∧ c.val ≤ 0xd ∨
    0x1c ≤ c.val ∧ c.val ≤ 0x1f ∨ 0x2000 ≤ c.val ∧ c.val ≤ 0x200a

/-- `str.lstrip`. -/
def lstrip (s : List Char) : List Char := s.dropWhile isSpace

/-- `str.strip`. -/
def strip (s : List Char) : List Char := (lstrip s).rdropWhile isSpace

/-- A line break of `str.splitlines`. -/
def isBreak (c : Char) : Bool := c.val ∈ [0xa, 0xb, 0xc, 0xd, 0x1c, 0x1d, 0x1e, 0x85,
    0x2028, 0x2029]

/-- `str.splitlines`, after the characters of a line. -/
def splitLinesFrom (line : List Char) : List Char → List (List Char)
  | [] => if line = [] then [] else [line]
  | '\r' :: '\n' :: s => line :: splitLinesFrom [] s
  | c :: s => if isBreak c then line :: splitLinesFrom [] s else splitLinesFrom (line ++ [c]) s

/-- `str.splitlines`. -/
def splitLines : List Char → List (List Char) := splitLinesFrom []

/-- `str.partition`, `none` where the separator is missing. -/
def partition (sep : Char) : List Char → Option (List Char × List Char)
  | [] => none
  | c :: s => if c = sep then some ([], s) else (partition sep s).map fun kv => (c :: kv.1, kv.2)

/-- A number of digits, with single underscores between them. -/
def natFrom (value : Nat) (afterDigit : Bool) : List Char → Option Nat
  | [] => if afterDigit then some value else none
  | '_' :: s => if afterDigit then natFrom value false s else none
  | c :: s => if c.isDigit then natFrom (value * 10 + (c.toNat - 48)) true s else none

/-- `int`. -/
def int? (s : List Char) : Option Int :=
  match strip s with
  | '+' :: digits => (natFrom 0 false digits).map Int.ofNat
  | '-' :: digits => (natFrom 0 false digits).map fun n => -Int.ofNat n
  | digits => (natFrom 0 false digits).map Int.ofNat

/-- The parts of a path, as `pathlib` has them. -/
def pathParts (path : String) : List String :=
  ((path.toList.splitOn '/').map String.ofList).filter fun p => p ≠ "" ∧ p ≠ "."

theorem partition_append {sep : Char} : ∀ {before : List Char}, sep ∉ before → ∀ after : List Char,
    partition sep (before ++ sep :: after) = some (before, after)
  | [], _, _ => if_pos rfl
  | c :: before, h, after => by
    rw [List.mem_cons, not_or] at h
    rw [List.cons_append, partition, if_neg (Ne.symm h.1), partition_append h.2]
    rfl

end Ringside.Text
