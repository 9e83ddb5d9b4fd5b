import Arbor.Lowering.Error
import Arbor.Syntax.Tree

/-!
The setting in which one function is lowered. What a function shares with the rest of its
compilation is the arity of the known functions and a supply of label numbers: the `k`-th number it
draws is `label k`. All else is private, so lowering is a function of the tree and the supply.

Each construct is lowered to the code it stands for, returned as a value. The state holds what is
collected beside the code, and it is kept when lowering fails, because numbers drawn and globals
met before the failure count for the compilation.
-/

namespace Arbor

structure LoweringEnv where
  arity? : String → Option Nat
  label : Nat → Nat

structure LoweringState where
  drawn : Nat := 0
  promoted : Names := []
  scope : Scope
  data : List DataRegion := []
  externs : Names := []

abbrev Lower := EStateM NodeError LoweringState

namespace Lower

def fail {α : Type} (cause : LoweringCause) : Lower α := throw { cause := cause }

def unsupported {α : Type} (t : Tree) (reason : UnsupportedReason) : Lower α :=
  fail (.unsupported t.kindText reason t.line)

/-- Runs an action on the child at a segment: its errors are located there. -/
def within {α : Type} (segment : Segment) (action : Lower α) : Lower α := fun s =>
  match action s with
  | .ok a s => .ok a s
  | .error e s => .error (e.under segment) s

/-- How many statements and expressions may be open inside each other. -/
def maxDepth : Nat := 256

/-- Opens one more node, with `depth` already open. -/
def nested {α : Type} (depth : Nat) (action : Lower α) : Lower α :=
  if depth < maxDepth then action else fail .tooDeep

def drawLabel (env : LoweringEnv) : Lower Nat :=
  modifyGet fun s => (env.label s.drawn, { s with drawn := s.drawn + 1 })

def addRegion (region : DataRegion) : Lower Unit :=
  modify fun s => { s with data := s.data ++ [region] }

def addExtern (name : String) : Lower Unit :=
  modify fun s => { s with externs := s.externs.add name }

def declareLocal (name : String) : Lower Unit :=
  modify fun s => { s with scope := s.scope.declareLocal name }

def slot (name : String) : Lower Operand := do
  match (← get).scope.slot name with
  | .ok o => return o
  | .error e => fail (.scope e)

/-- What a name means here. A name that is neither built in nor local becomes a global. -/
def resolve (name : String) : Lower Resolution := do
  let s ← get
  let r := s.scope.resolve name
  match r with
  | .global _ => set { s with promoted := s.promoted.add name }
  | .builtin _ | .slot _ => pure ()
  return r

end Lower

end Arbor
