/-!
Registers and operands of the accumulator convention: `rax` holds every value under
construction, `rbx` the left operand of a binary operation, `rcx` the index of an element
store, `rdx` the remainder of a division. A memory operand is either relative to a symbol or a
base register plus an optional index register scaled by eight.
-/

namespace Arbor

/-- A register, memory word, immediate or displacement: 64 bits read in two's complement. -/
abbrev Word := Int64

/-- A memory address: 64 bits read as unsigned. -/
abbrev Address := UInt64

/-- `none` stands where an operand names no register. The machine still keeps a word for it. -/
inductive Reg where
  | none | rax | rbx | rcx | rdx | rbp | rsp
deriving DecidableEq, Repr, Inhabited

namespace Reg

def name : Reg → String
  | .none => ""
  | .rax => "rax"
  | .rbx => "rbx"
  | .rcx => "rcx"
  | .rdx => "rdx"
  | .rbp => "rbp"
  | .rsp => "rsp"

def all : List Reg := [.none, .rax, .rbx, .rcx, .rdx, .rbp, .rsp]

end Reg

inductive OperandKind where
  | register | immediate | memory | symbol
deriving DecidableEq, Repr, Inhabited

/-- The kind says which fields matter to a reader of the operand. Two operands are equal only if
all fields agree, the ones their kind ignores included. -/
structure Operand where
  kind : OperandKind := .immediate
  reg : Reg := .none
  index : Reg := .none
  value : Word := 0
  symbol : String := ""
deriving DecidableEq, Repr, Inhabited

namespace Operand

def ofReg (r : Reg) : Operand := { kind := .register, reg := r }

def imm (v : Word) : Operand := { kind := .immediate, value := v }

def sym (name : String) : Operand := { kind := .symbol, symbol := name }

/-- The word at a displacement from the frame base. -/
def frameSlot (displacement : Word) : Operand :=
  { kind := .memory, reg := .rbp, value := displacement }

/-- The word at a displacement from a data symbol. -/
def global (name : String) (displacement : Word) : Operand :=
  { kind := .memory, symbol := name, value := displacement }

/-- The word at `base + 8 * index + displacement`. -/
def element (base index : Reg) (displacement : Word) : Operand :=
  { kind := .memory, reg := base, index := index, value := displacement }

def isReg (o : Operand) (r : Reg) : Bool := o.kind == .register && o.reg == r

def isFrameSlot (o : Operand) : Bool :=
  o.kind == .memory && o.reg == .rbp && o.index == .none && o.symbol.isEmpty

/-- Whether evaluating the operand as a source, or addressing it, reads the register. -/
def usesReg (o : Operand) (r : Reg) : Bool :=
  match o.kind with
  | .register => o.reg == r
  | .memory => o.reg == r || o.index == r
  | .immediate | .symbol => false

/-- A displacement is written with its sign, and a zero displacement not at all. -/
def displacementText (v : Word) : String :=
  if v > 0 then "+" ++ toString v.toInt else if v < 0 then toString v.toInt else ""

def text (o : Operand) : String :=
  match o.kind with
  | .register => o.reg.name
  | .immediate => toString o.value.toInt
  | .symbol => o.symbol
  | .memory =>
    let base :=
      if o.symbol.isEmpty then
        o.reg.name ++ (if o.index = .none then "" else "+" ++ o.index.name ++ "*8")
      else "rel " ++ o.symbol
    "qword [" ++ base ++ displacementText o.value ++ "]"

end Operand

end Arbor
