import Arbor.Assembly.Operand

/-!
Symbols of the generated code. A global named `x` lives at `g_x`; labels and data regions are a
word and a number joined by an underscore. Names that could meet one of these are reserved.
-/

namespace Arbor

def globalSymbol (name : String) : String := "g_" ++ name

def numbered (word : String) (id : Nat) : String := word ++ "_" ++ toString id

/-- The words that precede a number in generated labels and region symbols. -/
def numberedWords : List String :=
  ["else", "end", "loop", "true", "false", "list", "dict", "str"]

/-- A word, an underscore and at least one digit, with nothing but digits after the underscore. -/
def isNumbered (word : String) (name : List Char) : Bool :=
  let start := word.toList ++ ['_']
  start.isPrefixOf name && name.length > start.length &&
    (name.drop start.length).all (fun c => '0' ≤ c && c ≤ '9')

def isReservedSymbol (name : String) : Bool :=
  name == "_start" || ['g', '_'].isPrefixOf name.toList ||
    numberedWords.any (fun word => isNumbered word name.toList)

/-- The value of a built-in constant. -/
def builtinConstant? (name : String) : Option Word :=
  if name = "True" then some 1
  else if name = "False" then some 0
  else if name = "None" then some 0
  else none

end Arbor
