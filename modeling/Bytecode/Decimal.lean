/-!
Numbers written in decimal, and texts that write a number on each line.

A number is written with the digits that it needs: the first of them is a zero only where it stands
alone. A text of lines ends each of them, the last one too, with a newline.
-/

namespace Bytecode.Decimal

def number? : List Char → Option Nat
  | [] => none
  | ['0'] => some 0
  | c :: cs =>
    if c ≠ '0' ∧ (c :: cs).all Char.isDigit then some (Nat.ofDigitChars 10 (c :: cs) 0) else none

def lines? : List Char → Option (List (List Char))
  | [] => some []
  | c :: cs =>
    if c = '\n' then (lines? cs).map ([] :: ·)
    else
      match lines? cs with
      | some (line :: lines) => some ((c :: line) :: lines)
      | _ => none

def ofText? (text : String) : Option Nat := number? text.toList

/-- The numbers that the lines of a text write. -/
def ofLines? (text : String) : Option (List Nat) :=
  (lines? text.toList).bind fun lines => lines.mapM number?

end Bytecode.Decimal
