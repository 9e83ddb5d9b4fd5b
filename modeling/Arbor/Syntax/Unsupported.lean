import Arbor.Path

/-!
Constructs that a tree may hold but that have no meaning here, reported with their place.
-/

namespace Arbor

/-- A message about a known line ends with it. -/
def withLine (message : String) (line : UInt32) : String :=
  if line > 0 then message ++ " (line " ++ toString line.toNat ++ ")" else message

def unsupportedText (kind path detail : String) : String :=
  "Unsupported construct " ++ kind ++ " at " ++ path ++
    (if detail.isEmpty then "" else ": " ++ detail)

inductive UnsupportedReason where
  | nestedFunction
  | statementAsExpression
  | attributeAccess
  | attributeTarget
  | notATarget
  | topLevelStatement
  | unknownKind
  | operator (name : String)
  | indirectCall
  | floatConstant
  | constantType (name : String)
deriving DecidableEq, Repr

def UnsupportedReason.text : UnsupportedReason → String
  | .nestedFunction => "nested function definitions are not supported"
  | .statementAsExpression => "statement used as an expression"
  | .attributeAccess => "attribute access has no object model"
  | .attributeTarget => "attribute assignment has no object model"
  | .notATarget => "not an assignment target"
  | .topLevelStatement => "top-level statements must be function definitions"
  | .unknownKind => "unknown node kind"
  | .operator name => "operator " ++ name
  | .indirectCall => "only direct calls by name are supported"
  | .floatConstant => "float constants are not supported"
  | .constantType name => "constant of type " ++ name

structure Unsupported where
  kind : String
  path : Path := []
  reason : UnsupportedReason
  line : UInt32 := 0
deriving DecidableEq, Repr

def Unsupported.message (u : Unsupported) : String :=
  withLine (unsupportedText u.kind u.path.text u.reason.text) u.line

end Arbor
