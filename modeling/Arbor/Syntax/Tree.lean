import Arbor.Assembly.Program

/-!
Syntax trees. Any kind of node may stand in any position, and a child may be `absent`; lowering
decides what it accepts where. Every node carries the source line it starts on, 0 when unknown.
-/

namespace Arbor

inductive BinaryOperator where
  | add | sub | mult | div | mod
deriving DecidableEq, Repr, Inhabited

namespace BinaryOperator

def name : BinaryOperator → String
  | .add => "Add"
  | .sub => "Sub"
  | .mult => "Mult"
  | .div => "Div"
  | .mod => "Mod"

def all : List BinaryOperator := [.add, .sub, .mult, .div, .mod]

def ofName? (name : String) : Option BinaryOperator := all.find? (·.name == name)

end BinaryOperator

inductive CompareOperator where
  | greater | less | equal | notEqual | lessEqual | greaterEqual
deriving DecidableEq, Repr, Inhabited

namespace CompareOperator

def name : CompareOperator → String
  | .greater => "Gt"
  | .less => "Lt"
  | .equal => "Eq"
  | .notEqual => "NotEq"
  | .lessEqual => "LtE"
  | .greaterEqual => "GtE"

def all : List CompareOperator := [.greater, .less, .equal, .notEqual, .lessEqual, .greaterEqual]

def ofName? (name : String) : Option CompareOperator := all.find? (·.name == name)

end CompareOperator

inductive Constant where
  | int (value : Word)
  | bool (value : Bool)
  | none
  | string (bytes : Bytes)
deriving DecidableEq, Repr

inductive Kind where
  | functionDef | assign | augAssign | ret | expr | ifElse | whileLoop
  | binary | compare | call | list | dict | subscript | attribute | name | constant
deriving DecidableEq, Repr, Inhabited

namespace Kind

def text : Kind → String
  | .functionDef => "FunctionDef"
  | .assign => "Assign"
  | .augAssign => "AugAssign"
  | .ret => "Return"
  | .expr => "Expr"
  | .ifElse => "If"
  | .whileLoop => "While"
  | .binary => "BinOp"
  | .compare => "Compare"
  | .call => "Call"
  | .list => "List"
  | .dict => "Dict"
  | .subscript => "Subscript"
  | .attribute => "Attribute"
  | .name => "Name"
  | .constant => "Constant"

def all : List Kind :=
  [.functionDef, .assign, .augAssign, .ret, .expr, .ifElse, .whileLoop, .binary, .compare, .call,
    .list, .dict, .subscript, .attribute, .name, .constant]

def ofText? (text : String) : Option Kind := all.find? (·.text == text)

end Kind

/-- A `ret` with an absent value returns 0. -/
inductive Tree where
  | absent
  | functionDef (line : UInt32) (name : String) (params : List String) (body : List Tree)
  | assign (line : UInt32) (targets : List Tree) (value : Tree)
  | augAssign (line : UInt32) (target : Tree) (op : BinaryOperator) (value : Tree)
  | ret (line : UInt32) (value : Tree)
  | expr (line : UInt32) (value : Tree)
  | ifElse (line : UInt32) (test : Tree) (body orelse : List Tree)
  | whileLoop (line : UInt32) (test : Tree) (body : List Tree)
  | binary (line : UInt32) (op : BinaryOperator) (left right : Tree)
  | compare (line : UInt32) (op : CompareOperator) (left right : Tree)
  | call (line : UInt32) (callee : String) (args : List Tree)
  | list (line : UInt32) (elements : List Tree)
  | dict (line : UInt32) (keys values : List Tree)
  | subscript (line : UInt32) (value index : Tree)
  | attribute (line : UInt32) (value : Tree) (attr : String)
  | name (line : UInt32) (id : String)
  | constant (line : UInt32) (value : Constant)
deriving Repr, Inhabited

namespace Tree

def kind? : Tree → Option Kind
  | .absent => .none
  | .functionDef .. => some .functionDef
  | .assign .. => some .assign
  | .augAssign .. => some .augAssign
  | .ret .. => some .ret
  | .expr .. => some .expr
  | .ifElse .. => some .ifElse
  | .whileLoop .. => some .whileLoop
  | .binary .. => some .binary
  | .compare .. => some .compare
  | .call .. => some .call
  | .list .. => some .list
  | .dict .. => some .dict
  | .subscript .. => some .subscript
  | .attribute .. => some .attribute
  | .name .. => some .name
  | .constant .. => some .constant

def kindText (t : Tree) : String :=
  match t.kind? with
  | .none => ""
  | some k => k.text

def line : Tree → UInt32
  | .absent => 0
  | .functionDef l .. => l
  | .assign l .. => l
  | .augAssign l .. => l
  | .ret l .. => l
  | .expr l .. => l
  | .ifElse l .. => l
  | .whileLoop l .. => l
  | .binary l .. => l
  | .compare l .. => l
  | .call l .. => l
  | .list l .. => l
  | .dict l .. => l
  | .subscript l .. => l
  | .attribute l .. => l
  | .name l .. => l
  | .constant l .. => l

/-- Constants and names need no scratch register to be evaluated. -/
def isLeaf : Tree → Bool
  | .constant .. | .name .. => true
  | _ => false

end Tree

structure FunctionDef where
  name : String
  params : List String := []
  body : List Tree := []
  line : UInt32 := 0
deriving Repr, Inhabited

/-- The top-level functions in order; an entry may be missing. -/
abbrev Source := List (Option FunctionDef)

end Arbor
