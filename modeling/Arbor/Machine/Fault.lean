import Arbor.Assembly.Instruction

/-!
What can go wrong on the machine. A trap is raised while the machine is at some place of the code,
which the fault names when the program has any; the other faults concern the program as a whole.
-/

namespace Arbor

inductive Trap where
  | operandCount (m : Mnemonic) (expected : Nat)
  | noAddress (o : Operand)
  | notWritable (o : Operand)
  | unknownLabel (label : String)
  | externalCall (symbol : String)
  | divisionByZero
  | dividendTooWide
  | divisionOverflow
  | stackOverflow
  | unaligned (address : Address)
  | unmapped (address : Address)
  | corruptedReturn (target : Word)
  | pastEnd
  | stepLimit (limit : Nat)
deriving DecidableEq, Repr

def Trap.message : Trap → String
  | .operandCount m n => m.name ++ " expects " ++ toString n ++ " operands"
  | .noAddress o => "operand " ++ o.text ++ " has no address"
  | .notWritable o => "cannot write to " ++ o.text
  | .unknownLabel l => "jump to unknown label '" ++ l ++ "'"
  | .externalCall s => "call to external symbol '" ++ s ++ "'"
  | .divisionByZero => "division by zero"
  | .dividendTooWide => "dividend does not fit in rax"
  | .divisionOverflow => "division overflow"
  | .stackOverflow => "stack overflow"
  | .unaligned a => "unaligned access at " ++ toString a.toNat
  | .unmapped a => "access to unmapped address " ++ toString a.toNat
  | .corruptedReturn t => "return to corrupted address " ++ toString t.toInt
  | .pastEnd => "execution ran past the end of the function"
  | .stepLimit n => "step limit of " ++ toString n ++ " exceeded"

structure Site where
  unit : String
  position : Nat
deriving DecidableEq, Repr

inductive Fault where
  | duplicateSymbol (symbol : String)
  | unknownSymbol (symbol : String)
  | unknownFunction (name : String)
  | negativeLength (address : Address)
  | trap (site : Option Site) (trap : Trap)
deriving DecidableEq, Repr

def Fault.message : Fault → String
  | .duplicateSymbol s => "Duplicate data symbol '" ++ s ++ "'"
  | .unknownSymbol s => "Unknown data symbol '" ++ s ++ "'"
  | .unknownFunction f => "No function named '" ++ f ++ "'"
  | .negativeLength a => "Negative list length at " ++ toString a.toNat
  | .trap none t => "Machine fault: " ++ t.message
  | .trap (some site) t =>
    "Machine fault in " ++ site.unit ++ " at #" ++ toString site.position ++ ": " ++ t.message

end Arbor
