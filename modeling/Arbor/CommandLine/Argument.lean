import Arbor.Assembly.Operand

/-!
Words given as command line arguments: blanks, an optional sign and decimal digits. What follows the
digits is not looked at.
-/

namespace Arbor

namespace Argument

def isSpace (c : Char) : Bool :=
  c = ' ' || c = '\t' || c = '\n' || c = '\x0b' || c = '\x0c' || c = '\r'

def isDigit (c : Char) : Bool := '0' ≤ c && c ≤ '9'

def digitsValue (digits : List Char) : Nat :=
  digits.foldl (fun n c => 10 * n + (c.toNat - '0'.toNat)) 0

def unsigned? (cs : List Char) : Option Nat :=
  match cs.takeWhile isDigit with
  | [] => none
  | digits => some (digitsValue digits)

def integer? (cs : List Char) : Option Int :=
  match cs.dropWhile isSpace with
  | '-' :: rest => (unsigned? rest).map fun n => -(n : Int)
  | '+' :: rest => (unsigned? rest).map fun n => (n : Int)
  | rest => (unsigned? rest).map fun n => (n : Int)

/-- Nothing if there are no digits or the number is no signed word. -/
def word? (text : String) : Option Word :=
  match integer? text.toList with
  | some n => if -0x8000000000000000 ≤ n ∧ n < 0x8000000000000000 then some (Int64.ofInt n) else none
  | none => none

end Argument

end Arbor
