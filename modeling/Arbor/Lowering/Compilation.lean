import Arbor.Lowering.Function

/-!
Compilation of a source: all functions are declared first, so calls may go forward, and then each
is lowered with the label numbers that follow those drawn before. The context outlives a failed
compilation with everything declared, drawn and promoted up to the failure.

With more than one job the functions are lowered independently, so every one of them is lowered
even if an earlier one fails, and the earliest failure is reported.
-/

namespace Arbor

structure Context where
  nextLabel : Nat := 0
  globals : Names := []
  functions : List (String × Nat) := []
deriving DecidableEq, Repr, Inhabited

namespace Context

def drawLabel (ctx : Context) : Nat × Context :=
  (ctx.nextLabel, { ctx with nextLabel := ctx.nextLabel + 1 })

def freshLabel (ctx : Context) (word : String) : String × Context :=
  (numbered word ctx.nextLabel, { ctx with nextLabel := ctx.nextLabel + 1 })

def isGlobal (ctx : Context) (name : String) : Bool := ctx.globals.contains name

def promote (ctx : Context) (name : String) : Context :=
  { ctx with globals := ctx.globals.add name }

def arity? (ctx : Context) (name : String) : Option Nat := ctx.functions.lookup name

def isFunction (ctx : Context) (name : String) : Bool := (ctx.arity? name).isSome

def declareFunction (ctx : Context) (name : String) (arity : Nat) : Context :=
  if ctx.isFunction name then ctx
  else { ctx with functions := ctx.functions ++ [(name, arity)] }

/-- What a name means in a scope. A name that is neither built in nor local becomes a global. -/
def resolve (ctx : Context) (scope : Scope) (name : String) : Resolution × Context :=
  match scope.resolve name with
  | .global storage => (.global storage, ctx.promote name)
  | r => (r, ctx)

/-- Functions lowered next draw the numbers from the counter on. -/
def env (ctx : Context) : LoweringEnv :=
  { arity? := ctx.arity?, label := fun k => ctx.nextLabel + k }

def absorb (ctx : Context) (f : LoweredFunction) : Context :=
  { ctx with
    nextLabel := ctx.nextLabel + f.drawn
    globals := ctx.globals.addAll f.promoted }

end Context

abbrev Compile := EStateM CompileError Context

namespace Compile

def declare (fn : FunctionDef) : Compile Unit := do
  let ctx ← get
  if isReservedSymbol fn.name then throw (.reservedFunction fn.name fn.line)
  else if ctx.isFunction fn.name then throw (.duplicateFunction fn.name fn.line)
  else set (ctx.declareFunction fn.name fn.params.length)

def declareAll : Source → Compile (List FunctionDef)
  | [] => return []
  | none :: _ => throw .absentFunction
  | some fn :: rest => do
    declare fn
    return fn :: (← declareAll rest)

/-- Lowers one function, declared or not. The outcome is returned, never thrown. -/
def attempt (fn : FunctionDef) : Compile (Except CompileError CompiledUnit) :=
  modifyGet fun ctx =>
    let lowered := ctx.env.lower fn
    (lowered.result, ctx.absorb lowered)

def function (fn : FunctionDef) : Compile CompiledUnit := do
  match ← attempt fn with
  | .ok unit => return unit
  | .error e => throw e

/-- Stops at the first function that fails. -/
def inTurn : List FunctionDef → Compile (List CompiledUnit)
  | [] => return []
  | fn :: rest => do
    let unit ← function fn
    return unit :: (← inTurn rest)

def attemptAll : List FunctionDef → Compile (List (Except CompileError CompiledUnit))
  | [] => return []
  | fn :: rest => do
    let outcome ← attempt fn
    return outcome :: (← attemptAll rest)

/-- All units, or the earliest error. -/
def collect : List (Except CompileError CompiledUnit) → Except CompileError (List CompiledUnit)
  | [] => .ok []
  | .error e :: _ => .error e
  | .ok unit :: rest =>
    match collect rest with
    | .ok units => .ok (unit :: units)
    | .error e => .error e

/-- Lowers every function before looking at the outcomes. -/
def independently (fns : List FunctionDef) : Compile (List CompiledUnit) := do
  match collect (← attemptAll fns) with
  | .ok units => return units
  | .error e => throw e

def source (s : Source) (jobs : Nat) : Compile Program := do
  let fns ← declareAll s
  let units ← if jobs ≤ 1 ∨ fns.length ≤ 1 then inTurn fns else independently fns
  return { units := units, globals := (← get).globals }

end Compile

/-- Compiles with a fresh context. -/
def Source.compile (s : Source) (jobs : Nat) : Except CompileError Program :=
  match Compile.source s jobs {} with
  | .ok program _ => .ok program
  | .error e _ => .error e

end Arbor
