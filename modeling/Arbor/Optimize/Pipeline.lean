import Arbor.Assembly.Program
import Arbor.Optimize.DeadStore
import Arbor.Optimize.Peephole

/-!
Passes and the pipeline that runs them. A pass works on the code of one unit. The pipeline is an
ordered list of passes, each of which can be switched off by name, and it remembers how many
instructions each pass removed in the last run over a whole program.
-/

namespace Arbor

inductive Pass where
  | deadStore | peephole
deriving DecidableEq, Repr, Inhabited

namespace Pass

def name : Pass → String
  | .deadStore => "dead-store"
  | .peephole => "peephole"

def all : List Pass := [.deadStore, .peephole]

def ofName? (name : String) : Option Pass := all.find? (·.name == name)

def run : Pass → Code → Code
  | .deadStore => Code.removeDeadStores
  | .peephole => Code.peephole

end Pass

structure PipelineStage where
  pass : Pass
  enabled : Bool := true
deriving DecidableEq, Repr

structure PassStats where
  pass : Pass
  removed : Nat := 0
deriving DecidableEq, Repr

structure Pipeline where
  stages : List PipelineStage := []
  stats : List PassStats := []
deriving DecidableEq, Repr

namespace PipelineStage

def run (stage : PipelineStage) (code : Code) : Code :=
  if stage.enabled then stage.pass.run code else code

/-- Switches the first stage of the given name. -/
def switchFirst (name : String) (on : Bool) : List PipelineStage → List PipelineStage
  | [] => []
  | s :: rest =>
    if s.pass.name = name then { s with enabled := on } :: rest else s :: switchFirst name on rest

/-- The code after all stages, and how many instructions each stage removed. -/
def runAll : List PipelineStage → Code → Code × List Nat
  | [], code => (code, [])
  | s :: rest, code =>
    let next := s.run code
    let (final, removed) := runAll rest next
    (final, (code.length - next.length) :: removed)

end PipelineStage

namespace Pipeline

def standard : Pipeline := { stages := [{ pass := .deadStore }, { pass := .peephole }] }

def add (p : Pipeline) (pass : Pass) : Pipeline := { p with stages := p.stages ++ [{ pass := pass }] }

def names (p : Pipeline) : List String := p.stages.map (·.pass.name)

def hasPass (p : Pipeline) (name : String) : Bool := p.names.contains name

/-- A name no pass has changes nothing. -/
def setEnabled (p : Pipeline) (name : String) (on : Bool) : Pipeline :=
  { p with stages := PipelineStage.switchFirst name on p.stages }

def isEnabled (p : Pipeline) (name : String) : Bool :=
  match p.stages.find? (·.pass.name == name) with
  | some s => s.enabled
  | none => false

def runUnit (p : Pipeline) (unit : CompiledUnit) : CompiledUnit :=
  { unit with code := (PipelineStage.runAll p.stages unit.code).1 }

/-- How many instructions each stage removes from the units together. -/
def removedFrom (p : Pipeline) (units : List CompiledUnit) : List Nat :=
  units.foldl
    (fun total unit => List.zipWith (· + ·) total (PipelineStage.runAll p.stages unit.code).2)
    (p.stages.map fun _ => 0)

/-- The optimized program, and the pipeline with the counts of this run. -/
def run (p : Pipeline) (program : Program) : Program × Pipeline :=
  let stats := List.zipWith (fun s n => { pass := s.pass, removed := n }) p.stages
    (p.removedFrom program.units)
  ({ program with units := program.units.map p.runUnit }, { p with stats := stats })

end Pipeline

end Arbor
