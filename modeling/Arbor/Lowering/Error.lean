import Arbor.Assembly.Reservation
import Arbor.Scope
import Arbor.Syntax.Unsupported

/-!
Why a source is refused. An error inside a function is a cause and the path from the function to
the node at fault; `NodeError.under` extends the path by one segment on the way up.
-/

namespace Arbor

inductive LoweringCause where
  | absentStatement
  | absentExpression
  | absentTarget
  | tooDeep
  | noTargets (line : UInt32)
  | builtinTarget (name : String) (line : UInt32)
  | arityMismatch (callee : String) (expected actual : Nat) (line : UInt32)
  | reservedCallee (callee : String) (line : UInt32)
  | dictLengths (keys values : Nat) (line : UInt32)
  | unsupported (kind : String) (reason : UnsupportedReason) (line : UInt32)
  | scope (error : ScopeError)
deriving DecidableEq, Repr

structure NodeError where
  path : Path := []
  cause : LoweringCause
deriving DecidableEq, Repr

def NodeError.under (segment : Segment) (e : NodeError) : NodeError :=
  { e with path := segment :: e.path }

inductive CompileError where
  | absentFunction
  | reservedFunction (name : String) (line : UInt32)
  | duplicateFunction (name : String) (line : UInt32)
  | scope (error : ScopeError)
  | reservation (error : ReservationError)
  | node (function : String) (error : NodeError)
deriving DecidableEq, Repr

namespace CompileError

/-- The line an error reports, 0 when it reports none. -/
def line : CompileError → UInt32
  | .absentFunction => 0
  | .reservedFunction _ l => l
  | .duplicateFunction _ l => l
  | .scope _ => 0
  | .reservation _ => 0
  | .node _ e =>
    match e.cause with
    | .absentStatement | .absentExpression | .absentTarget | .tooDeep | .scope _ => 0
    | .noTargets l => l
    | .builtinTarget _ l => l
    | .arityMismatch _ _ _ l => l
    | .reservedCallee _ l => l
    | .dictLengths _ _ l => l
    | .unsupported _ _ l => l

/-- The error as an unsupported construct, if it is one. -/
def unsupported? : CompileError → Option Unsupported
  | .node function ⟨path, .unsupported kind reason line⟩ =>
    some { kind := kind, path := .field function :: path, reason := reason, line := line }
  | _ => none

def causeText (place : String) : LoweringCause → String
  | .absentStatement => "Null statement at " ++ place
  | .absentExpression => "Null expression at " ++ place
  | .absentTarget => "Null assignment target at " ++ place
  | .tooDeep => "Maximum recursion depth exceeded at " ++ place
  | .noTargets _ => "Assignment without target at " ++ place
  | .builtinTarget name _ =>
    "Cannot assign to built-in constant '" ++ name ++ "' at " ++ place
  | .arityMismatch callee expected actual _ =>
    "Function '" ++ callee ++ "' expects " ++ toString expected ++ " arguments, got " ++
      toString actual ++ " at " ++ place
  | .reservedCallee callee _ =>
    "Call to '" ++ callee ++ "' clashes with generated symbols at " ++ place
  | .dictLengths keys values _ =>
    "Dict literal with " ++ toString keys ++ " keys and " ++ toString values ++ " values at " ++
      place
  | .unsupported kind reason _ => unsupportedText kind place reason.text
  | .scope e => e.message

def message (e : CompileError) : String :=
  let text := match e with
    | .absentFunction => "Null function in module"
    | .reservedFunction name _ => "Function name '" ++ name ++ "' clashes with generated symbols"
    | .duplicateFunction name _ => "Duplicate function '" ++ name ++ "'"
    | .scope e => e.message
    | .reservation e => e.message
    | .node function e => causeText (Path.text (.field function :: e.path)) e.cause
  withLine text e.line

end CompileError

end Arbor
