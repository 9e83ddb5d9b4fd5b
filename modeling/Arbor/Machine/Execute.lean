import Arbor.Machine.State

/-!
The meaning of one instruction. Execution keeps the state it reached when it faults.
-/

namespace Arbor

abbrev Exec := EStateM Fault MachineState

namespace Exec

def ofExcept {α : Type} : Except Fault α → Exec α
  | .ok a => pure a
  | .error e => throw e

def trap {α : Type} (img : Image) (t : Trap) : Exec α := fun s => .error (img.faultOf s t) s

def reg (r : Reg) : Exec Word := return (← get).regs.get r

def setReg (r : Reg) (v : Word) : Exec Unit := modify fun s => { s with regs := s.regs.set r v }

def load (img : Image) (a : Address) : Exec Word := fun s =>
  match img.load? s a with
  | .ok v => .ok v s
  | .error e => .error e s

def store (img : Image) (a : Address) (v : Word) : Exec Unit :=
  match img.accessTrap? a with
  | some t => trap img t
  | none => modify fun s => { s with memory := s.memory.write a v }

/-- The stack pointer moves before the stack is found to be full. -/
def push (img : Image) (v : Word) : Exec Unit := do
  let rsp := (← reg .rsp) - 8
  setReg .rsp rsp
  if rsp.toUInt64 < img.stackLimit then trap img .stackOverflow else store img rsp.toUInt64 v

def pop (img : Image) : Exec Word := do
  let rsp ← reg .rsp
  let v ← load img rsp.toUInt64
  setReg .rsp (rsp + 8)
  return v

def addressOf (img : Image) (o : Operand) : Exec Address := do
  match o.kind with
  | .memory =>
    if o.symbol.isEmpty then
      let base ← reg o.reg
      let index ← if o.index = .none then pure 0 else reg o.index
      return base.toUInt64 + 8 * index.toUInt64 + o.value.toUInt64
    else
      let base ← ofExcept (img.symbolAddress o.symbol)
      return base + o.value.toUInt64
  | .symbol => ofExcept (img.symbolAddress o.symbol)
  | .register | .immediate => trap img (.noAddress o)

def read (img : Image) (o : Operand) : Exec Word := do
  match o.kind with
  | .register => reg o.reg
  | .immediate => return o.value
  | .memory => load img (← addressOf img o)
  | .symbol => return (← ofExcept (img.symbolAddress o.symbol)).toInt64

def write (img : Image) (o : Operand) (v : Word) : Exec Unit := do
  match o.kind with
  | .register => setReg o.reg v
  | .memory => store img (← addressOf img o) v
  | .immediate | .symbol => trap img (.notWritable o)

/-- Combines a destination with a source. The source is read first. -/
def combine (img : Image) (f : Word → Word → Word) (dst src : Operand) : Exec Unit := do
  let right ← read img src
  let left ← read img dst
  write img dst (f left right)

/-- The sign of a word, spread over a whole word. -/
def signWord (v : Word) : Word := if v < 0 then -1 else 0

/-- Divides `rdx:rax`, which must hold a sign-extended word, and truncates toward zero. -/
def divide (img : Image) (o : Operand) : Exec Unit := do
  let divisor ← read img o
  let dividend ← reg .rax
  let high ← reg .rdx
  if divisor = 0 then trap img .divisionByZero
  else if high ≠ signWord dividend then trap img .dividendTooWide
  else if dividend = Int64.minValue ∧ divisor = -1 then trap img .divisionOverflow
  else
    setReg .rax (dividend / divisor)
    setReg .rdx (dividend % divisor)

def conditionHolds (m : Mnemonic) (lhs rhs : Word) : Bool :=
  match m with
  | .jz | .je => lhs == rhs
  | .jne => lhs != rhs
  | .jg => lhs > rhs
  | .jl => lhs < rhs
  | .jge => lhs ≥ rhs
  | .jle => lhs ≤ rhs
  | _ => false

def jump (img : Image) (label : String) : Exec Unit := do
  let s ← get
  match img.units[s.unit]?.bind (·.labels.lookup label) with
  | some k => set { s with ip := k }
  | none => trap img (.unknownLabel label)

/-- A return address holds the unit in its upper and the position in its lower half. -/
def returnAddress (unit ip : Nat) : Word :=
  (UInt64.ofNat unit <<< 32 ||| UInt64.ofNat ip).toInt64

/-- The return address below the first activation. Returning to it ends the call. -/
def returnSentinel : Word := -1

def call (img : Image) (symbol : String) : Exec Unit := do
  match img.functions.lookup symbol with
  | none => trap img (.externalCall symbol)
  | some unit =>
    let s ← get
    push img (returnAddress s.unit s.ip)
    modify fun s => { s with unit := unit, ip := 0 }

/-- Whether the call as a whole is over. -/
def ret (img : Image) : Exec Bool := do
  let target ← pop img
  if target = returnSentinel then return true
  else
    let encoded := target.toUInt64
    let unit := (encoded >>> 32).toNat
    if img.units.size ≤ unit then trap img (.corruptedReturn target)
    else
      modify fun s => { s with unit := unit, ip := (encoded &&& 0xffffffff).toNat }
      return false

/-- Runs an action on the operand of an instruction that takes one. -/
def unary (img : Image) (i : Instruction) (action : Operand → Exec Unit) : Exec Unit :=
  match i.operands with
  | [o] => action o
  | _ => trap img (.operandCount i.mnemonic 1)

/-- Runs an action on the operands of an instruction that takes two. -/
def binary (img : Image) (i : Instruction) (action : Operand → Operand → Exec Unit) : Exec Unit :=
  match i.operands with
  | [a, b] => action a b
  | _ => trap img (.operandCount i.mnemonic 2)

def exchange (img : Image) (a b : Operand) : Exec Unit := do
  let x ← read img a
  let y ← read img b
  write img a y
  write img b x

def compareWords (img : Image) (a b : Operand) : Exec Unit := do
  let x ← read img a
  modify fun s => { s with lhs := x }
  let y ← read img b
  modify fun s => { s with rhs := y }

def testWords (img : Image) (a b : Operand) : Exec Unit := do
  let x ← read img a
  let y ← read img b
  modify fun s => { s with lhs := x &&& y, rhs := 0 }

/-- Executes an instruction the instruction pointer is already past. The answer says whether the
call as a whole is over. -/
def instruction (img : Image) (i : Instruction) : Exec Bool := do
  match i.mnemonic with
  | .none => return false
  | .mov => binary img i (fun dst src => do write img dst (← read img src)); return false
  | .lea => binary img i (fun dst src => do write img dst (← addressOf img src).toInt64); return false
  | .xchg => binary img i (exchange img); return false
  | .push => unary img i (fun o => do push img (← read img o)); return false
  | .pop => unary img i (fun o => do write img o (← pop img)); return false
  | .add => binary img i (combine img (· + ·)); return false
  | .sub => binary img i (combine img (· - ·)); return false
  | .imul => binary img i (combine img (· * ·)); return false
  | .cqo => setReg .rdx (signWord (← reg .rax)); return false
  | .idiv => unary img i (divide img); return false
  | .cmp => binary img i (compareWords img); return false
  | .test => binary img i (testWords img); return false
  | .jmp => unary img i (fun o => jump img o.symbol); return false
  | .jz | .je | .jne | .jg | .jl | .jge | .jle =>
    unary img i fun o => do
      let s ← get
      if conditionHolds i.mnemonic s.lhs s.rhs then jump img o.symbol
    return false
  | .call => unary img i (fun o => call img o.symbol); return false
  | .ret => ret img

/-- Fetches and executes the next instruction. The step counts even if it goes over the limit. -/
def step (img : Image) : Exec Bool := do
  let s ← get
  match img.units[s.unit]?.bind (·.code[s.ip]?) with
  | none => trap img .pastEnd
  | some i =>
    if img.limits.maxSteps < s.steps + 1 then
      set { s with steps := s.steps + 1 }
      trap img (.stepLimit img.limits.maxSteps)
    else
      set { s with steps := s.steps + 1, ip := s.ip + 1 }
      instruction img i

/-- Runs until the call is over, with `budget` steps left before the limit. Without budget the next
step traps. -/
def run (img : Image) : Nat → Exec Unit
  | 0 => do let _ ← step img
  | budget + 1 => do
    if ← step img then return () else run img budget

def pushArgs (img : Image) : List Word → Exec Unit
  | [] => return ()
  | v :: rest => do
    push img v
    pushArgs img rest

/-- Calls a function with its arguments pushed left to right, and answers `rax`. Memory and the
compared words are as the previous call left them. -/
def callFunction (img : Image) (name : String) (args : List Word) : Exec Word := do
  match img.functions.lookup name with
  | none => throw (.unknownFunction name)
  | some unit =>
    modify fun s => { s with regs := { rsp := Image.stackTop.toInt64 } }
    pushArgs img args
    push img returnSentinel
    modify fun s => { s with unit := unit, ip := 0 }
    run img (img.limits.maxSteps - (← get).steps)
    reg .rax

end Exec

end Arbor
