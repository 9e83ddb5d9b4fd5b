import Arbor.CommandLine.Argument
import Arbor.Settings

/-!
Options of the commands, in any order among the positional arguments. A lone dash and a dash with
digits are positional, so negative numbers can be passed on.
-/

namespace Arbor

structure Options where
  positional : List String := []
  output : String := ""
  config : String := ""
  allOff : Bool := false
  noDeadStore : Bool := false
  noPeephole : Bool := false
  jobs : Option Nat := none
  entry : Option String := none
  verbose : Bool := false
deriving DecidableEq, Repr

inductive OptionError where
  | badJobs (value : String)
  | unknown (arg : String)
deriving DecidableEq, Repr

def OptionError.message : OptionError → String
  | .badJobs value => "--jobs expects a positive integer, got '" ++ value ++ "'"
  | .unknown arg => "Unknown option '" ++ arg ++ "'"

namespace Options

/-- At most four digits, not all zero. -/
def jobs? (value : String) : Option Nat :=
  let cs := value.toList
  if cs.isEmpty || 4 < cs.length || !cs.all Argument.isDigit then none
  else
    let n := Argument.digitsValue cs
    if n = 0 then none else some n

def isFlag (arg : String) : Bool :=
  match arg.toList with
  | '-' :: rest => !rest.all Argument.isDigit
  | _ => false

/-- An argument that takes no value. -/
def single (o : Options) (arg : String) : Except OptionError Options :=
  if arg = "-O0" then .ok { o with allOff := true }
  else if arg = "--no-dead-store" then .ok { o with noDeadStore := true }
  else if arg = "--no-peephole" then .ok { o with noPeephole := true }
  else if arg = "--verbose" then .ok { o with verbose := true }
  else if isFlag arg then .error (.unknown arg)
  else .ok { o with positional := o.positional ++ [arg] }

/-- An argument followed by another, which is its value if it takes one. -/
def withValue? (o : Options) (arg value : String) : Option (Except OptionError Options) :=
  if arg = "-o" ∨ arg = "--output" then some (.ok { o with output := value })
  else if arg = "-C" ∨ arg = "--config" then some (.ok { o with config := value })
  else if arg = "-j" ∨ arg = "--jobs" then
    match jobs? value with
    | some n => some (.ok { o with jobs := some n })
    | none => some (.error (.badJobs value))
  else if arg = "--entry" then some (.ok { o with entry := some value })
  else none

def parseFrom (o : Options) : List String → Except OptionError Options
  | [] => .ok o
  | [arg] => o.single arg
  | arg :: value :: rest =>
    match o.withValue? arg value with
    | some (.ok o) => o.parseFrom rest
    | some (.error e) => .error e
    | none =>
      match o.single arg with
      | .ok o => o.parseFrom (value :: rest)
      | .error e => .error e

def parse (args : List String) : Except OptionError Options := parseFrom {} args

/-- The command line wins over the settings file. -/
def override (o : Options) (s : Settings) : Settings :=
  { s with
    deadStore := s.deadStore && !o.allOff && !o.noDeadStore
    peephole := s.peephole && !o.allOff && !o.noPeephole
    jobs := o.jobs.getD s.jobs
    entry := o.entry.or s.entry }

end Options

end Arbor
