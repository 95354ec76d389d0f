import DeskCalculator.Operator

/-!
# Keystrokes

What a key does to the text on the display.  Every rule looks at the end of the
text, so the text is given backward here, its last character first.

Words are separated by single spaces.  An operator is put between spaces and
replaces an operator that still waits for its operand; a `-` may instead become
the sign of the next number, at the start and after `(`.  A `(` is accepted where
an operand is due, a `)` where a group is open and its last operand complete, and
a digit or point everywhere but after `!`.  A key that no rule accepts changes
nothing.
-/

namespace DeskCalculator
namespace Keystroke

/-- Is the character the symbol of a binary operator? -/
def isBinarySymbol (c : Char) : Bool :=
  match Operator.ofSymbol? c with
  | some (.binary _) => true
  | _ => false

/-- The space before a new word, left out where the text already ends in one. -/
def gap : List Char → List Char
  | ' ' :: _ => []
  | _ => [' ']

/-- The text after an operator key, if it is accepted.

After a space, the character before it decides: `)` and `!` are complete operands,
after `(` only a sign may follow, and any other operator is replaced, unless it
stands two places after `(`.  In a text of at most three characters that ends in a
space only a `-` is accepted. -/
def typeOperator (text : List Char) (op : Char) : Option (List Char) :=
  match text with
  | [] => if op = '-' then some ['-'] else none
  | '-' :: _ => if op = '-' then some ('-' :: text) else none
  | ' ' :: before =>
    if text.length ≤ 3 && op != '-' then none
    else
      match before with
      | [] => none
      | ')' :: _ | '!' :: _ => some (' ' :: op :: text)
      | '(' :: _ => if op = '-' then some ('-' :: text) else none
      | _ :: rest => if text[3]? = some '(' then none else some (' ' :: op :: rest)
  | _ => some (' ' :: op :: ' ' :: text)

/-- The text after `(`, if it is accepted: the text is empty, or its last character
but one is a binary operator. -/
def typeOpen (text : List Char) : Option (List Char) :=
  match text with
  | [] => some (' ' :: '(' :: gap text)
  | _ :: before :: _ =>
    if isBinarySymbol before then some (' ' :: '(' :: (gap text ++ text)) else none
  | _ => none

/-- The text after `)`, if it is accepted: more groups are open than closed, and
the text does not end in `(`, a sign or an operator without its operand. -/
def typeClose (text : List Char) : Option (List Char) :=
  match text with
  | last :: before :: _ =>
    if text.count '(' ≤ text.count ')' || before == '(' || last == '-' ||
        (isBinarySymbol before && last == ' ') then none
    else some (' ' :: ')' :: (gap text ++ text))
  | _ => none

/-- The text after a digit or point, if it is accepted: it does not follow `!`. -/
def typeDigit (text : List Char) (digit : Char) : Option (List Char) :=
  match text with
  | _ :: '!' :: _ => none
  | _ => some (digit :: text)

/-- The text after a key, if the key is accepted. -/
def type? (text : List Char) (key : Char) : Option (List Char) :=
  if (Operator.ofSymbol? key).isSome then typeOperator text key
  else if key = ')' then typeClose text
  else if key = '(' then typeOpen text
  else if key.isDigit || key == '.' then typeDigit text key
  else none

/-- The text without its last character.  A space at the end belongs to the word
before it, so that this word's last character goes too, with a space before it. -/
def erase : List Char → List Char
  | ' ' :: _ :: ' ' :: rest => rest
  | ' ' :: _ :: rest => rest
  | _ :: rest => rest
  | [] => []

end Keystroke
end DeskCalculator
