import Arbor.Json.Parser

/-!
Build settings and the file they are read from. A field the file leaves out keeps its value, and a
file with any fault changes nothing.
-/

namespace Arbor

/-- Without commands the standard toolchain is used. -/
structure Settings where
  deadStore : Bool := true
  peephole : Bool := true
  commands : List String := []
  jobs : Nat := 1
  entry : Option String := none
deriving DecidableEq, Repr

inductive SettingsFault where
  | invalidJson
  | notAnObject
  | sectionNotObject (name : String)
  | flagNotBoolean (name : String)
  | badCommands
  | badJobs
  | badEntry
deriving DecidableEq, Repr

def SettingsFault.message : SettingsFault → String
  | .invalidJson => "invalid JSON: <parser>"
  | .notAnObject => "configuration must be a JSON object"
  | .sectionNotObject name => name ++ " must be an object"
  | .flagNotBoolean name => "optimize." ++ name ++ " must be a boolean"
  | .badCommands => "toolchain.commands must be a non-empty array of strings"
  | .badJobs => "jobs must be a positive integer"
  | .badEntry => "entry must be a function name"

namespace Settings

abbrev Read := Except SettingsFault

def flag (part : Json) (name : String) (current : Bool) : Read Bool :=
  match part.get? name with
  | none => .ok current
  | some (.bool b) => .ok b
  | some _ => .error (.flagNotBoolean name)

def readOptimize (doc : Json) (s : Settings) : Read Settings :=
  match doc.get? "optimize" with
  | none => .ok s
  | some part@(.object _) => do
    let deadStore ← flag part "dead-store" s.deadStore
    let peephole ← flag part "peephole" s.peephole
    return { s with deadStore := deadStore, peephole := peephole }
  | some _ => .error (.sectionNotObject "optimize")

def commandTexts : List Json → Read (List String)
  | [] => .ok []
  | .string c :: rest => do return c :: (← commandTexts rest)
  | _ :: _ => .error .badCommands

def readToolchain (doc : Json) (s : Settings) : Read Settings :=
  match doc.get? "toolchain" with
  | none => .ok s
  | some part@(.object _) =>
    match part.get? "commands" with
    | none => .ok s
    | some (.array (first :: rest)) => do
      return { s with commands := ← commandTexts (first :: rest) }
    | some _ => .error .badCommands
  | some _ => .error (.sectionNotObject "toolchain")

def readJobs (doc : Json) (s : Settings) : Read Settings :=
  match doc.get? "jobs" with
  | none => .ok s
  | some v =>
    match v.integer? with
    | some n => if n < 1 then .error .badJobs else .ok { s with jobs := n.toInt.toNat }
    | none => .error .badJobs

def readEntry (doc : Json) (s : Settings) : Read Settings :=
  match doc.get? "entry" with
  | none => .ok s
  | some .null => .ok { s with entry := none }
  | some (.string name) =>
    if name.isEmpty then .error .badEntry else .ok { s with entry := some name }
  | some _ => .error .badEntry

def read (doc : Json) (s : Settings) : Read Settings := do
  match doc with
  | .object _ =>
    let s ← readOptimize doc s
    let s ← readToolchain doc s
    let s ← readJobs doc s
    readEntry doc s
  | _ => .error .notAnObject

def parse (text : String) (s : Settings) : Read Settings :=
  match Json.parse? text with
  | some doc => read doc s
  | none => .error .invalidJson

end Settings

end Arbor
