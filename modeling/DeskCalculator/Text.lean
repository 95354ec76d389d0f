/-!
# Texts

A text is a list of characters.  A character is blank if it has the Unicode property
`White_Space`.  The words of a text are its maximal runs of characters that are not
blank.

A newline ends a line, and a carriage return right before it belongs to the line end.
A carriage return anywhere else is part of its line.  A line of blanks alone holds no
expression.
-/

namespace DeskCalculator
namespace Text

/-! ## Blanks -/

/-- The characters with the Unicode property `White_Space`, as inclusive ranges
of code points. -/
def blankRanges : List (Nat × Nat) :=
  [(0x0009, 0x000D), (0x0020, 0x0020), (0x0085, 0x0085), (0x00A0, 0x00A0),
   (0x1680, 0x1680), (0x2000, 0x200A), (0x2028, 0x2029), (0x202F, 0x202F),
   (0x205F, 0x205F), (0x3000, 0x3000)]

/-- Is the character blank? -/
def isBlank (c : Char) : Bool :=
  blankRanges.any fun range => range.1 ≤ c.toNat && c.toNat ≤ range.2

/-! ## Words -/

/-- The word that a text starts with, which is empty before a blank, and the
words after it. -/
def splitWords : List Char → List Char × List (List Char)
  | [] => ([], [])
  | c :: cs =>
    let (word, later) := splitWords cs
    if isBlank c then ([], if word.isEmpty then later else word :: later)
    else (c :: word, later)

/-- The words of a text, in reading order. -/
def words (text : List Char) : List (List Char) :=
  let (word, later) := splitWords text
  if word.isEmpty then later else word :: later

/-! ## Lines -/

/-- The pieces of a text between its newlines: one more than there are newlines. -/
def pieces : List Char → List (List Char)
  | [] => [[]]
  | c :: cs =>
    if c = '\n' then [] :: pieces cs
    else
      match pieces cs with
      | [] => [[c]]
      | piece :: later => (c :: piece) :: later

/-- A piece without the carriage return at its end, if it has one. -/
def dropReturn (piece : List Char) : List Char :=
  if piece.getLast? = some '\r' then piece.dropLast else piece

/-- The lines that a list of pieces stands for.  All pieces but the last were
ended by a newline; the last one is a line only if it is not empty. -/
def linesOfPieces : List (List Char) → List (List Char)
  | [] => []
  | [last] => if last.isEmpty then [] else [last]
  | piece :: later => dropReturn piece :: linesOfPieces later

/-- The lines of a text. -/
def lines (text : List Char) : List (List Char) :=
  linesOfPieces (pieces text)

/-- Does a line hold nothing but blanks? -/
def isBlankLine (line : List Char) : Bool :=
  line.all isBlank

end Text
end DeskCalculator
