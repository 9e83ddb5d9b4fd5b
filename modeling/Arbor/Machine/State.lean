import Arbor.Machine.Layout

/-!
A loaded program and the state of the machine that runs it.
-/

namespace Arbor

structure Limits where
  maxSteps : Nat := 10000000
  maxStackWords : Nat := 65536
deriving DecidableEq, Repr

structure LoadedUnit where
  name : String
  code : Array Instruction
  /-- Labels with their positions. The last instruction with a label comes first. -/
  labels : List (String × Nat)

/-- A program ready to run. -/
structure Image where
  units : Array LoadedUnit
  /-- Function names with their units. The last unit of a name comes first. -/
  functions : List (String × Nat)
  layout : Layout
  initial : Memory
  limits : Limits

namespace Image

def loadUnit (unit : CompiledUnit) : LoadedUnit where
  name := unit.name
  code := unit.code.toArray
  labels := (unit.code.zipIdx.filterMap fun (i, k) => i.label.map fun l => (l, k)).reverse

def load (p : Program) (limits : Limits) : Except Fault Image :=
  match Layout.ofProgram p with
  | .error e => .error e
  | .ok layout => .ok {
      units := (p.units.map loadUnit).toArray
      functions := (p.units.zipIdx.map fun (unit, k) => (unit.name, k)).reverse
      layout := layout
      initial := layout.initialMemory p
      limits := limits }

/-- The address just above the stack, which grows downwards. -/
def stackTop : Address := 0x7fff0000

/-- The lowest stack address. -/
def stackLimit (img : Image) : Address := stackTop - 8 * UInt64.ofNat img.limits.maxStackWords

def isData (img : Image) (a : Address) : Bool := Layout.base ≤ a && a < img.layout.dataEnd

def isStack (img : Image) (a : Address) : Bool := img.stackLimit ≤ a && a < stackTop

/-- What is wrong with accessing an address, if anything. -/
def accessTrap? (img : Image) (a : Address) : Option Trap :=
  if a % 8 != 0 then some (.unaligned a)
  else if img.isData a || img.isStack a then none
  else some (.unmapped a)

def symbolAddress (img : Image) (symbol : String) : Except Fault Address :=
  match img.layout.find? symbol with
  | some placement => .ok placement.address
  | none => .error (.unknownSymbol symbol)

end Image

structure Registers where
  none : Word := 0
  rax : Word := 0
  rbx : Word := 0
  rcx : Word := 0
  rdx : Word := 0
  rbp : Word := 0
  rsp : Word := 0
deriving DecidableEq, Repr

namespace Registers

def get (rs : Registers) : Reg → Word
  | .none => rs.none
  | .rax => rs.rax
  | .rbx => rs.rbx
  | .rcx => rs.rcx
  | .rdx => rs.rdx
  | .rbp => rs.rbp
  | .rsp => rs.rsp

def set (rs : Registers) (r : Reg) (v : Word) : Registers :=
  match r with
  | .none => { rs with none := v }
  | .rax => { rs with rax := v }
  | .rbx => { rs with rbx := v }
  | .rcx => { rs with rcx := v }
  | .rdx => { rs with rdx := v }
  | .rbp => { rs with rbp := v }
  | .rsp => { rs with rsp := v }

theorem get_set (rs : Registers) (r r' : Reg) (v : Word) :
    (rs.set r v).get r' = if r = r' then v else rs.get r' := by
  cases r <;> cases r' <;> rfl

end Registers

/-- `lhs` and `rhs` are the words compared last, which conditional jumps look at. `unit` and `ip`
say where the next instruction is; `steps` counts the instructions since the last reset. -/
structure MachineState where
  memory : Memory
  regs : Registers := {}
  lhs : Word := 0
  rhs : Word := 0
  unit : Nat := 0
  ip : Nat := 0
  steps : Nat := 0

namespace Image

/-- Where a trap happens: the instruction pointer is already past the instruction at fault. -/
def site (img : Image) (s : MachineState) : Option Site :=
  img.units[s.unit]?.map fun unit => { unit := unit.name, position := s.ip - 1 }

def faultOf (img : Image) (s : MachineState) (t : Trap) : Fault := .trap (img.site s) t

def load? (img : Image) (s : MachineState) (a : Address) : Except Fault Word :=
  match img.accessTrap? a with
  | some t => .error (img.faultOf s t)
  | none => .ok (s.memory.read a)

end Image

end Arbor
