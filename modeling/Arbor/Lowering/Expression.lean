import Arbor.Lowering.Basic

/-!
Lowering of expressions. The code of an expression leaves its value in `rax`, restores the stack
pointer, and may use `rbx`, `rcx` and `rdx` freely. The left operand of a binary construct waits in
`rbx`, and on the stack while a compound right operand is evaluated. The elements of a literal
wait on the stack and are written to the region only when all of them are known, so a call among
them that reaches the same literal again cannot spoil it.
-/

namespace Arbor

namespace Emit

def rax : Operand := .ofReg .rax
def rbx : Operand := .ofReg .rbx
def rcx : Operand := .ofReg .rcx
def rdx : Operand := .ofReg .rdx
def rbp : Operand := .ofReg .rbp
def rsp : Operand := .ofReg .rsp

def mov (line : UInt32) (dst src : Operand) : Instruction := .make .mov [dst, src] line
def push (line : UInt32) (o : Operand) : Instruction := .make .push [o] line
def pop (line : UInt32) (o : Operand) : Instruction := .make .pop [o] line
def lea (line : UInt32) (dst : Operand) (symbol : String) : Instruction :=
  .make .lea [dst, .sym symbol] line
def jump (line : UInt32) (m : Mnemonic) (label : String) : Instruction := .make m [.sym label] line

/-- The left operand moves to `rbx`, which a compound right operand would overwrite. -/
def rightOperand (line : UInt32) (leaf : Bool) (right : Code) : Code :=
  mov line rbx rax ::
    (if leaf then right else push line rbx :: (right ++ [pop line rbx]))

/-- Left operand in `rbx`, right operand in `rax`, result in `rax`. -/
def applyOperator (line : UInt32) : BinaryOperator → Code
  | .add => [.make .add [rax, rbx] line]
  | .sub => [.make .xchg [rax, rbx] line, .make .sub [rax, rbx] line]
  | .mult => [.make .imul [rax, rbx] line]
  | .div => [.make .xchg [rax, rbx] line, .make .cqo [] line, .make .idiv [rbx] line]
  | .mod =>
    [.make .xchg [rax, rbx] line, .make .cqo [] line, .make .idiv [rbx] line, mov line rax rdx]

def jumpFor : CompareOperator → Mnemonic
  | .greater => .jg
  | .less => .jl
  | .equal => .je
  | .notEqual => .jne
  | .lessEqual => .jle
  | .greaterEqual => .jge

/-- Compares `rbx` with `rax` and leaves 1 or 0 in `rax`. -/
def applyCompare (line : UInt32) (op : CompareOperator) (id : Nat) : Code :=
  [.make .cmp [rbx, rax] line,
    jump line (jumpFor op) (numbered "true" id),
    jump line .jmp (numbered "false" id),
    .labelled (numbered "true" id) line,
    mov line rax (.imm 1),
    jump line .jmp (numbered "end" id),
    .labelled (numbered "false" id) line,
    mov line rax (.imm 0),
    .labelled (numbered "end" id) line]

/-- Calls a function whose `count` arguments have been pushed, and drops them. -/
def callPushed (line : UInt32) (callee : String) (count : Nat) : Code :=
  .make .call [.sym callee] line ::
    (if count = 0 then [] else [.make .add [rsp, .imm (8 * Int64.ofNat count)] line])

/-- Pops the words `n, n - 1, …, 1` of a region, the last one pushed first. -/
def popWords (line : UInt32) (region : String) : Nat → Code
  | 0 => []
  | n + 1 =>
    pop line rax :: mov line (.global region (8 * Int64.ofNat (n + 1))) rax :: popWords line region n

/-- Writes the length word and the staged words of a literal, and leaves its address in `rax`. -/
def fillRegion (line : UInt32) (region : String) (count staged : Nat) : Code :=
  mov line rax (.imm (Int64.ofNat count)) :: mov line (.global region 0) rax ::
    (popWords line region staged ++ [lea line rax region])

/-- Element `i` of a region follows its length word. -/
def loadElement (line : UInt32) : Code := [mov line rax (.element .rbx .rax 8)]

end Emit

namespace Lower

open Emit

def constant (env : LoweringEnv) (line : UInt32) : Constant → Lower Code
  | .int v => return [mov line rax (.imm v)]
  | .bool b => return [mov line rax (.imm (if b then 1 else 0))]
  | .none => return [mov line rax (.imm 0)]
  | .string bytes => do
    let symbol := numbered "str" (← drawLabel env)
    addRegion (.string symbol bytes)
    return [lea line rax symbol]

def name (line : UInt32) (id : String) : Lower Code := do
  match ← resolve id with
  | .builtin v => return [mov line rax (.imm v)]
  | .slot storage => return [mov line rax storage]
  | .global storage => return [mov line rax storage]

/-- Two operands in their fields: the left one ends in `rbx`, the right one in `rax`. -/
def operands (line : UInt32) (leftField rightField : String) (leaf : Bool)
    (left right : Lower Code) : Lower Code := do
  let l ← within (.field leftField) left
  let r ← within (.field rightField) right
  return l ++ rightOperand line leaf r

/-- A known function takes its declared number of arguments; any other callee is external. -/
def checkCallee (env : LoweringEnv) (line : UInt32) (callee : String) (count : Nat) : Lower Unit :=
  match env.arity? callee with
  | some expected =>
    if expected = count then pure () else fail (.arityMismatch callee expected count line)
  | none =>
    if isReservedSymbol callee then fail (.reservedCallee callee line) else addExtern callee

/-- Evaluates the items of a list field from position `index` on, pushing each value. -/
def pushEach (line : UInt32) (field : String) (index : Nat) : List (Lower Code) → Lower Code
  | [] => return []
  | item :: rest => do
    let head ← within (.item field index) item
    let tail ← pushEach line field (index + 1) rest
    return head ++ push line rax :: tail

/-- Evaluates keys and values in turn, pushing each. -/
def pushPairs (line : UInt32) (index : Nat) :
    List (Lower Code) → List (Lower Code) → Lower Code
  | key :: keys, value :: values => do
    let k ← within (.item "keys" index) key
    let v ← within (.item "values" index) value
    let tail ← pushPairs line (index + 1) keys values
    return k ++ push line rax :: (v ++ push line rax :: tail)
  | _, _ => return []

def newRegion (env : LoweringEnv) (word : String) (quadwords : Nat) : Lower String := do
  let symbol := numbered word (← drawLabel env)
  addRegion (.reserve symbol quadwords)
  return symbol

mutual

def expression (env : LoweringEnv) (depth : Nat) : Tree → Lower Code
  | .absent => fail .absentExpression
  | .constant line c => nested depth (constant env line c)
  | .name line id => nested depth (name line id)
  | .binary line op left right => nested depth do
    let code ← operands line "left" "right" right.isLeaf
      (expression env (depth + 1) left) (expression env (depth + 1) right)
    return code ++ applyOperator line op
  | .compare line op left right => nested depth do
    let code ← operands line "left" "right" right.isLeaf
      (expression env (depth + 1) left) (expression env (depth + 1) right)
    let id ← drawLabel env
    return code ++ applyCompare line op id
  | .call line callee args => nested depth do
    checkCallee env line callee args.length
    let pushed ← pushEach line "args" 0 (expressions env (depth + 1) args)
    return pushed ++ callPushed line callee args.length
  | .list line elements => nested depth do
    let region ← newRegion env "list" (elements.length + 1)
    let pushed ← pushEach line "elts" 0 (expressions env (depth + 1) elements)
    return pushed ++ fillRegion line region elements.length elements.length
  | .dict line keys values => nested depth do
    if keys.length ≠ values.length then
      fail (.dictLengths keys.length values.length line)
    else
      let region ← newRegion env "dict" (1 + 2 * keys.length)
      let pushed ← pushPairs line 0 (expressions env (depth + 1) keys)
        (expressions env (depth + 1) values)
      return pushed ++ fillRegion line region keys.length (2 * keys.length)
  | .subscript line value index => nested depth do
    let code ← operands line "value" "index" index.isLeaf
      (expression env (depth + 1) value) (expression env (depth + 1) index)
    return code ++ loadElement line
  | t@(.attribute ..) => nested depth (unsupported t .attributeAccess)
  | t => nested depth (unsupported t .statementAsExpression)

/-- The lowering of each tree of a list, to be run in an order of the caller's choice. -/
def expressions (env : LoweringEnv) (depth : Nat) : List Tree → List (Lower Code)
  | [] => []
  | t :: rest => expression env depth t :: expressions env depth rest

end

end Lower

end Arbor
