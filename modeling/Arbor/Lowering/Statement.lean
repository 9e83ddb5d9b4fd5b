import Arbor.Lowering.Expression

/-!
Lowering of statements. Name targets of an assignment join the local names before its value is
lowered, so `x = x + 1` reads the local `x`.
-/

namespace Arbor

namespace Emit

/-- Stores the word in `rax` to element `rcx` of the region in `rbx`. -/
def storeElement (line : UInt32) : Instruction := mov line (.element .rbx .rcx 8) rax

def epilogue (line : UInt32) : Code := [mov line rsp rbp, pop line rbp, .make .ret [] line]

/-- Goes to the label when `rax` is zero. -/
def branchIfZero (line : UInt32) (label : String) : Code :=
  [.make .test [rax, rax] line, jump line .jz label]

def conditional (line : UInt32) (id : Nat) (test body orelse : Code) : Code :=
  test ++ branchIfZero line (numbered "else" id) ++ body ++
    jump line .jmp (numbered "end" id) :: .labelled (numbered "else" id) line ::
      (orelse ++ [.labelled (numbered "end" id) line])

def loop (line : UInt32) (id : Nat) (test body : Code) : Code :=
  .labelled (numbered "loop" id) line ::
    (test ++ branchIfZero line (numbered "end" id) ++ body ++
      [jump line .jmp (numbered "loop" id), .labelled (numbered "end" id) line])

end Emit

namespace Lower

open Emit

/-- A name target becomes local; targets of other kinds declare nothing. -/
def declareTarget : Tree → Lower Unit
  | .name line id =>
    if (builtinConstant? id).isSome then fail (.builtinTarget id line) else declareLocal id
  | _ => pure ()

def declareTargets : List Tree → Lower Unit
  | [] => pure ()
  | t :: rest => do
    declareTarget t
    declareTargets rest

/-- Stores `rax` to a target and keeps its value. -/
def store (env : LoweringEnv) (depth : Nat) : Tree → Lower Code
  | .absent => fail .absentTarget
  | .name line id => return [mov line (← slot id) rax]
  | .subscript line value index => do
    let code ← operands line "value" "index" index.isLeaf
      (expression env depth value) (expression env depth index)
    return push line rax :: (code ++ [mov line rcx rax, pop line rax, storeElement line])
  | t@(.attribute ..) => unsupported t .attributeTarget
  | t => unsupported t .notATarget

def storeEach (env : LoweringEnv) (depth index : Nat) : List Tree → Lower Code
  | [] => return []
  | t :: rest => do
    let head ← within (.item "targets" index) (store env depth t)
    let tail ← storeEach env depth (index + 1) rest
    return head ++ tail

def assign (env : LoweringEnv) (depth : Nat) (line : UInt32) (targets : List Tree) (value : Tree) :
    Lower Code := do
  if targets.isEmpty then
    fail (.noTargets line)
  else
    declareTargets targets
    let code ← within (.field "value") (expression env depth value)
    let stores ← storeEach env depth 0 targets
    return code ++ stores

/-- The container and index of an element target are evaluated once and wait on the stack. -/
def augAssign (env : LoweringEnv) (depth : Nat) (line : UInt32) (target : Tree)
    (op : BinaryOperator) (value : Tree) : Lower Code :=
  match target with
  | .subscript _ base index => do
    let place ← within (.field "target")
      (operands line "value" "index" index.isLeaf
        (expression env depth base) (expression env depth index))
    let right ← within (.field "value") (expression env depth value)
    return place ++ push line rbx :: push line rax ::
      (loadElement line ++ rightOperand line value.isLeaf right ++ applyOperator line op ++
        [pop line rcx, pop line rbx, storeElement line])
  | target => do
    declareTarget target
    let code ← operands line "left" "right" value.isLeaf
      (expression env depth target) (expression env depth value)
    let stored ← within (.field "target") (store env depth target)
    return code ++ applyOperator line op ++ stored

/-- Runs the statements of a list field from position `index` on. -/
def block (field : String) (index : Nat) : List (Lower Code) → Lower Code
  | [] => return []
  | item :: rest => do
    let head ← within (.item field index) item
    let tail ← block field (index + 1) rest
    return head ++ tail

mutual

def statement (env : LoweringEnv) (depth : Nat) : Tree → Lower Code
  | .absent => fail .absentStatement
  | .assign line targets value => nested depth (assign env (depth + 1) line targets value)
  | .augAssign line target op value =>
    nested depth (augAssign env (depth + 1) line target op value)
  | .ret line .absent => nested depth do
    return mov line rax (.imm 0) :: epilogue line
  | .ret line value => nested depth do
    let code ← within (.field "value") (expression env (depth + 1) value)
    return code ++ epilogue line
  | .expr _ value => nested depth (within (.field "value") (expression env (depth + 1) value))
  | .ifElse line test body orelse => nested depth do
    let id ← drawLabel env
    let test ← within (.field "test") (expression env (depth + 1) test)
    let body ← block "body" 0 (statements env (depth + 1) body)
    let orelse ← block "orelse" 0 (statements env (depth + 1) orelse)
    return conditional line id test body orelse
  | .whileLoop line test body => nested depth do
    let id ← drawLabel env
    let test ← within (.field "test") (expression env (depth + 1) test)
    let body ← block "body" 0 (statements env (depth + 1) body)
    return loop line id test body
  | t@(.functionDef ..) => nested depth (unsupported t .nestedFunction)
  | t => nested depth (expression env (depth + 1) t)

/-- The lowering of each statement of a list, to be run in order. -/
def statements (env : LoweringEnv) (depth : Nat) : List Tree → List (Lower Code)
  | [] => []
  | t :: rest => statement env depth t :: statements env depth rest

end

end Lower

end Arbor
