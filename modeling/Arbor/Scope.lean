import Arbor.Names
import Arbor.Symbol

/-!
The local names of one function and where they live in its frame. Arguments are pushed left to
right before the return address and the saved frame base, so the last parameter is at `rbp+16` and
the first is farthest; other locals take `rbp-8`, `rbp-16` and so on in the order they are declared.
-/

namespace Arbor

structure Scope where
  owner : String
  /-- Local names with their displacements, in order of declaration. -/
  slots : List (String × Word) := []
  frameSlots : Nat := 0
deriving DecidableEq, Repr

inductive ScopeError where
  | duplicateParameter (name owner : String)
  | notLocal (name owner : String)
deriving DecidableEq, Repr

def ScopeError.message : ScopeError → String
  | .duplicateParameter name owner => "Duplicate parameter '" ++ name ++ "' in function " ++ owner
  | .notLocal name owner => "'" ++ name ++ "' is not local to " ++ owner

/-- What a name means inside a function. -/
inductive Resolution where
  | builtin (value : Word)
  | slot (storage : Operand)
  | global (storage : Operand)
deriving DecidableEq, Repr

namespace Scope

def displacement? (s : Scope) (name : String) : Option Word := s.slots.lookup name

def contains (s : Scope) (name : String) : Bool := (s.displacement? name).isSome

def slot (s : Scope) (name : String) : Except ScopeError Operand :=
  match s.displacement? name with
  | some d => .ok (.frameSlot d)
  | none => .error (.notLocal name s.owner)

def locals (s : Scope) : List String := s.slots.map (·.1)

def paramDisplacement (index count : Nat) : Word :=
  16 + 8 * (Int64.ofNat count - 1 - Int64.ofNat index)

def localDisplacement (n : Nat) : Word := -8 * Int64.ofNat n

def declareParam (s : Scope) (name : String) (index count : Nat) : Except ScopeError Scope :=
  if s.contains name then .error (.duplicateParameter name s.owner)
  else .ok { s with slots := s.slots ++ [(name, paramDisplacement index count)] }

/-- Parameters from position `index` on, of `count` in all. -/
def declareParams (s : Scope) (index count : Nat) : List String → Except ScopeError Scope
  | [] => .ok s
  | name :: rest =>
    match s.declareParam name index count with
    | .ok s => s.declareParams (index + 1) count rest
    | .error e => .error e

/-- A name that is already local keeps its slot. -/
def declareLocal (s : Scope) (name : String) : Scope :=
  if s.contains name then s
  else
    { s with
      slots := s.slots ++ [(name, localDisplacement (s.frameSlots + 1))]
      frameSlots := s.frameSlots + 1 }

/-- Built-in constants come first, then locals; every other name is a global. -/
def resolve (s : Scope) (name : String) : Resolution :=
  match builtinConstant? name with
  | some v => .builtin v
  | none =>
    match s.displacement? name with
    | some d => .slot (.frameSlot d)
    | none => .global (.global (globalSymbol name) 0)

end Scope

end Arbor
