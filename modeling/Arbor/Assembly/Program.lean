import Arbor.Assembly.Instruction

/-!
What lowering produces: one unit per function, each with its code, the static regions its literals
occupy and the external functions it calls, and the names of all globals in ascending order.
-/

namespace Arbor

abbrev Bytes := List UInt8

/-- Static storage: `reserve` holds zeroed quadwords, `string` holds bytes and a zero after them. -/
inductive DataRegion where
  | reserve (symbol : String) (quadwords : Nat)
  | string (symbol : String) (bytes : Bytes)
deriving DecidableEq, Repr

def DataRegion.symbol : DataRegion → String
  | .reserve s _ => s
  | .string s _ => s

/-- `locals` counts the identifiers of the frame, parameters included; `slots` counts the quadwords
reserved below the frame base. -/
structure CompiledUnit where
  name : String := ""
  params : Nat := 0
  locals : Nat := 0
  slots : Nat := 0
  code : Code := []
  data : List DataRegion := []
  externs : List String := []
deriving DecidableEq, Repr, Inhabited

structure Program where
  units : List CompiledUnit := []
  globals : List String := []
deriving DecidableEq, Repr, Inhabited

def Program.findUnit? (p : Program) (name : String) : Option CompiledUnit :=
  p.units.find? (·.name == name)

end Arbor
