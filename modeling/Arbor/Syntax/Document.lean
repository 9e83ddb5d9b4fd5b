import Arbor.Json.Parser
import Arbor.Syntax.Tree
import Arbor.Syntax.Unsupported

/-!
Syntax trees from documents. A document is an object whose `body` lists functions, and a node is
an object with its `kind`, an optional `line`, and the fields of its kind. Reading stops at the
first offence and reports the path to the value at fault.
-/

namespace Arbor

inductive FormatFault where
  | invalidJson
  | notAnObject
  | noBody
  | nodeNotObject
  | noKind
  | badLine
  | missingField (name : String)
  | fieldNotString (name : String)
  | fieldNotArray (name : String)
  | badParameter
  | dictLengths
  | integerRange
deriving DecidableEq, Repr

def FormatFault.text : FormatFault → String
  | .invalidJson => "Invalid JSON: <parser>"
  | .notAnObject => "Document must be an object"
  | .noBody => "Document needs a 'body' array"
  | .nodeNotObject => "Node must be an object"
  | .noKind => "Node needs a string 'kind'"
  | .badLine => "'line' must be a non-negative integer"
  | .missingField name => "Missing field '" ++ name ++ "'"
  | .fieldNotString name => "Field '" ++ name ++ "' must be a string"
  | .fieldNotArray name => "Field '" ++ name ++ "' must be an array"
  | .badParameter => "Parameter must be a name"
  | .dictLengths => "Dict needs as many values as keys"
  | .integerRange => "Integer constant out of range"

inductive ReadError where
  | format (path : Path) (fault : FormatFault)
  | unsupported (error : Unsupported)
deriving DecidableEq, Repr

namespace ReadError

def under (segment : Segment) : ReadError → ReadError
  | .format path fault => .format (segment :: path) fault
  | .unsupported e => .unsupported { e with path := segment :: e.path }

def message : ReadError → String
  | .format path fault =>
    if path.isEmpty then fault.text else fault.text ++ " at " ++ path.text
  | .unsupported e => e.message

end ReadError

namespace Document

abbrev Read := Except ReadError

def malformed {α : Type} (fault : FormatFault) : Read α := .error (.format [] fault)

def unsupported {α : Type} (kind : String) (reason : UnsupportedReason) (line : UInt32) : Read α :=
  .error (.unsupported { kind := kind, reason := reason, line := line })

def within {α : Type} (segment : Segment) : Read α → Read α
  | .ok a => .ok a
  | .error e => .error (e.under segment)

def kindOf (j : Json) : Read String :=
  match j with
  | .object _ =>
    match j.get? "kind" with
    | some (.string kind) => .ok kind
    | _ => malformed .noKind
  | _ => malformed .nodeNotObject

/-- Lines are kept modulo the width of a line number. -/
def lineOf (j : Json) : Read UInt32 :=
  match j.get? "line" with
  | none | some .null => .ok 0
  | some v =>
    match v.integer? with
    | some n => if n < 0 then malformed .badLine else .ok n.toUInt64.toUInt32
    | none => malformed .badLine

def stringField (j : Json) (name : String) : Read String :=
  match j.get? name with
  | none => malformed (.missingField name)
  | some (.string s) => .ok s
  | some _ => malformed (.fieldNotString name)

/-- The child in a required field. -/
def child (j : Json) (name : String)
    (read : (v : Json) → sizeOf v < sizeOf j → Read Tree) : Read Tree :=
  match h : j.get? name with
  | none => malformed (.missingField name)
  | some v => within (.field name) (read v (Json.get?_sizeOf h))

/-- The child in a field that may be missing or null. -/
def optionalChild (j : Json) (name : String)
    (read : (v : Json) → sizeOf v < sizeOf j → Read Tree) : Read Tree :=
  match j.get? name with
  | none | some .null => .ok .absent
  | some _ => child j name read

/-- The items of a list field from position `index` on. -/
def items (name : String) (index : Nat) :
    (js : List Json) → ((v : Json) → v ∈ js → Read Tree) → Read (List Tree)
  | [], _ => .ok []
  | v :: rest, read => do
    let head ← within (.item name index) (read v List.mem_cons_self)
    let tail ← items name (index + 1) rest fun w hw => read w (List.mem_cons_of_mem v hw)
    return head :: tail

/-- The children in a list field. A list that may be left out is then empty. -/
def children (j : Json) (name : String) (optional : Bool)
    (read : (v : Json) → sizeOf v < sizeOf j → Read Tree) : Read (List Tree) :=
  match h : j.get? name with
  | none | some .null => if optional then .ok [] else malformed (.missingField name)
  | some (.array js) =>
    items name 0 js fun v hv =>
      read v (Nat.lt_trans (Json.mem_array_sizeOf hv) (Json.get?_sizeOf h))
  | some _ => malformed (.fieldNotArray name)

/-- A parameter is a name, alone or as the `arg` of an object. -/
def paramOf (j : Json) : Read String :=
  match j with
  | .string name => .ok name
  | _ =>
    match j.get? "arg" with
    | some (.string name) => .ok name
    | _ => malformed .badParameter

def paramsFrom (index : Nat) : List Json → Read (List String)
  | [] => .ok []
  | j :: rest => do
    let head ← within (.item "args" index) (paramOf j)
    let tail ← paramsFrom (index + 1) rest
    return head :: tail

def paramsOf (j : Json) : Read (List String) :=
  match j.get? "args" with
  | none => malformed (.missingField "args")
  | some (.array js) => paramsFrom 0 js
  | some _ => malformed (.fieldNotArray "args")

def functionOf (j : Json) (read : (v : Json) → sizeOf v < sizeOf j → Read Tree) :
    Read FunctionDef := do
  let line ← lineOf j
  let name ← stringField j "name"
  let params ← paramsOf j
  let body ← children j "body" false read
  return { name := name, params := params, body := body, line := line }

def binaryOperatorOf (j : Json) : Read BinaryOperator := do
  let name ← stringField j "op"
  match BinaryOperator.ofName? name with
  | some op => return op
  | none => unsupported (← kindOf j) (.operator name) (← lineOf j)

def compareOperatorOf (j : Json) (line : UInt32) : Read CompareOperator := do
  let name ← stringField j "op"
  match CompareOperator.ofName? name with
  | some op => return op
  | none => unsupported Kind.compare.text (.operator name) line

/-- The callee is a name, alone or as a name node. -/
def calleeOf (j : Json) : Read String :=
  match j.get? "func" with
  | none => malformed (.missingField "func")
  | some (.string name) => .ok name
  | some func => within (.field "func") do
    let kind ← kindOf func
    if kind = Kind.name.text then stringField func "id"
    else unsupported kind .indirectCall (← lineOf func)

def constantOf (value : Json) (line : UInt32) : Read Constant :=
  match value with
  | .bool b => .ok (.bool b)
  | .float _ => unsupported Kind.constant.text .floatConstant line
  | .unsigned n => if n < 0x8000000000000000 then .ok (.int n.toInt64) else malformed .integerRange
  | .signed n => .ok (.int n)
  | .null => .ok .none
  | .string s => .ok (.string s.toUTF8.toList)
  | .array _ => unsupported Kind.constant.text (.constantType "array") line
  | .object _ => unsupported Kind.constant.text (.constantType "object") line

def node (j : Json) : Read Tree := do
  let text ← kindOf j
  match Kind.ofText? text with
  | none => unsupported text .unknownKind (← lineOf j)
  | some .functionDef =>
    let fn ← functionOf j fun v _ => node v
    return .functionDef fn.line fn.name fn.params fn.body
  | some .assign =>
    let line ← lineOf j
    let targets ← children j "targets" false fun v _ => node v
    let value ← child j "value" fun v _ => node v
    return .assign line targets value
  | some .augAssign =>
    let line ← lineOf j
    let target ← child j "target" fun v _ => node v
    let op ← binaryOperatorOf j
    let value ← child j "value" fun v _ => node v
    return .augAssign line target op value
  | some .ret =>
    let line ← lineOf j
    let value ← optionalChild j "value" fun v _ => node v
    return .ret line value
  | some .expr =>
    let line ← lineOf j
    let value ← child j "value" fun v _ => node v
    return .expr line value
  | some .ifElse =>
    let line ← lineOf j
    let test ← child j "test" fun v _ => node v
    let body ← children j "body" false fun v _ => node v
    let orelse ← children j "orelse" true fun v _ => node v
    return .ifElse line test body orelse
  | some .whileLoop =>
    let line ← lineOf j
    let test ← child j "test" fun v _ => node v
    let body ← children j "body" false fun v _ => node v
    return .whileLoop line test body
  | some .binary =>
    let line ← lineOf j
    let op ← binaryOperatorOf j
    let left ← child j "left" fun v _ => node v
    let right ← child j "right" fun v _ => node v
    return .binary line op left right
  | some .compare =>
    let line ← lineOf j
    let op ← compareOperatorOf j line
    let left ← child j "left" fun v _ => node v
    let right ← child j "right" fun v _ => node v
    return .compare line op left right
  | some .call =>
    let line ← lineOf j
    let callee ← calleeOf j
    let args ← children j "args" true fun v _ => node v
    return .call line callee args
  | some .list =>
    let line ← lineOf j
    let elements ← children j "elts" false fun v _ => node v
    return .list line elements
  | some .dict =>
    let line ← lineOf j
    let keys ← children j "keys" false fun v _ => node v
    let values ← children j "values" false fun v _ => node v
    if keys.length = values.length then return .dict line keys values
    else malformed .dictLengths
  | some .subscript =>
    let line ← lineOf j
    let value ← child j "value" fun v _ => node v
    let index ← child j "index" fun v _ => node v
    return .subscript line value index
  | some .attribute =>
    let line ← lineOf j
    let value ← child j "value" fun v _ => node v
    let attr ← stringField j "attr"
    return .attribute line value attr
  | some .name =>
    let line ← lineOf j
    let id ← stringField j "id"
    return .name line id
  | some .constant =>
    match j.get? "value" with
    | none => malformed (.missingField "value")
    | some value =>
      let line ← lineOf j
      return .constant line (← constantOf value line)
termination_by sizeOf j

def topLevel (j : Json) : Read FunctionDef := do
  let kind ← kindOf j
  if kind = Kind.functionDef.text then functionOf j fun v _ => node v
  else unsupported kind .topLevelStatement (← lineOf j)

def functionsFrom (index : Nat) : List Json → Read Source
  | [] => .ok []
  | j :: rest => do
    let head ← within (.item "body" index) (topLevel j)
    let tail ← functionsFrom (index + 1) rest
    return some head :: tail

def read (document : Json) : Read Source :=
  match document with
  | .object _ =>
    match document.get? "body" with
    | some (.array js) => functionsFrom 0 js
    | _ => malformed .noBody
  | _ => malformed .notAnObject

def parse (text : String) : Read Source :=
  match Json.parse? text with
  | some document => read document
  | none => malformed .invalidJson

end Document

end Arbor
