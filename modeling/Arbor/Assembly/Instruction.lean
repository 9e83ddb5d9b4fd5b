import Arbor.Assembly.Operand

/-!
Instructions and straight code. An instruction may carry a label, which names its position, and
may have no mnemonic, in which case it is a bare label line (or nothing at all).
-/

namespace Arbor

inductive Mnemonic where
  | none
  | mov | lea | xchg | push | pop
  | add | sub | imul | cqo | idiv
  | cmp | test
  | jmp | jz | je | jne | jg | jl | jge | jle
  | call | ret
deriving DecidableEq, Repr, Inhabited

namespace Mnemonic

def name : Mnemonic → String
  | .none => ""
  | .mov => "mov"
  | .lea => "lea"
  | .xchg => "xchg"
  | .push => "push"
  | .pop => "pop"
  | .add => "add"
  | .sub => "sub"
  | .imul => "imul"
  | .cqo => "cqo"
  | .idiv => "idiv"
  | .cmp => "cmp"
  | .test => "test"
  | .jmp => "jmp"
  | .jz => "jz"
  | .je => "je"
  | .jne => "jne"
  | .jg => "jg"
  | .jl => "jl"
  | .jge => "jge"
  | .jle => "jle"
  | .call => "call"
  | .ret => "ret"

def isConditionalJump : Mnemonic → Bool
  | .jz | .je | .jne | .jg | .jl | .jge | .jle => true
  | _ => false

def all : List Mnemonic :=
  [.none, .mov, .lea, .xchg, .push, .pop, .add, .sub, .imul, .cqo, .idiv, .cmp, .test, .jmp, .jz,
    .je, .jne, .jg, .jl, .jge, .jle, .call, .ret]

end Mnemonic

/-- `line` is the source line the instruction was lowered from, 0 when unknown. -/
structure Instruction where
  mnemonic : Mnemonic := .none
  operands : List Operand := []
  label : Option String := none
  line : UInt32 := 0
deriving DecidableEq, Repr, Inhabited

abbrev Code := List Instruction

namespace Instruction

def isLabelOnly (i : Instruction) : Bool := i.mnemonic == .none

def make (m : Mnemonic) (operands : List Operand) (line : UInt32) : Instruction :=
  { mnemonic := m, operands := operands, line := line }

def labelled (name : String) (line : UInt32) : Instruction :=
  { label := some name, line := line }

/-- `lea` takes the address of a data symbol, so its symbol operand stands in brackets. -/
def operandText (m : Mnemonic) (o : Operand) : String :=
  if m = .lea ∧ o.kind = .symbol then "[rel " ++ o.symbol ++ "]" else o.text

def operandsText (m : Mnemonic) : List Operand → String
  | [] => ""
  | os => " " ++ ", ".intercalate (os.map (operandText m))

def text (i : Instruction) : String :=
  let label := match i.label with
    | none => ""
    | some name => name ++ ":" ++ (if i.isLabelOnly then "" else "\n")
  let body :=
    if i.isLabelOnly then "" else "    " ++ i.mnemonic.name ++ operandsText i.mnemonic i.operands
  label ++ body

end Instruction

namespace Code

/-- The position of the last instruction that carries the label. -/
def position? (code : Code) (label : String) : Option Nat :=
  code.zipIdx.foldl (fun found (i, k) => if i.label = some label then some k else found) none

end Code

end Arbor
