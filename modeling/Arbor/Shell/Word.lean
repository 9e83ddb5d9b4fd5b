/-!
Words of the shell and how they are quoted. Single quotes take everything literally up to the next
single quote. Outside quotes a backslash makes the next character literal, inside double quotes only
before the characters that would otherwise be special. Adjacent pieces join into one word.
-/

namespace Arbor.Shell

/-- Writes a text so that the shell reads it back as one word. -/
def quoteChars : List Char → List Char
  | [] => []
  | '\'' :: rest => ['\'', '\\', '\'', '\''] ++ quoteChars rest
  | c :: rest => c :: quoteChars rest

def quote (text : String) : String := String.ofList ('\'' :: (quoteChars text.toList ++ ['\'']))

inductive Quoting where
  | plain | single | double
deriving DecidableEq, Repr

/-- A piece of a word: a character, or a parameter to be replaced by its value. -/
inductive Piece where
  | char (c : Char) (quoted : Bool)
  | param (name : Char) (quoted : Bool)
deriving DecidableEq, Repr

/-- The characters that end a word outside quotes. -/
def endsWord (c : Char) : Bool :=
  c = ' ' || c = '\t' || c = '\n' || c = ';' || c = '&' || c = '|' || c = '<' || c = '>' ||
    c = '(' || c = ')'

/-- Parameters are named by one character: a digit, the process number, the last status, or the
number of arguments. -/
def isParam (c : Char) : Bool := c = '$' || c = '?' || c = '#' || ('0' ≤ c && c ≤ '9')

/-- What a backslash inside double quotes protects. -/
def escapableInDouble (c : Char) : Bool := c = '$' || c = '"' || c = '\\' || c = Char.ofNat 96

structure WordRead where
  pieces : List Piece
  /-- Whether any part was quoted, so that an empty word still counts. -/
  quoted : Bool
  rest : List Char
deriving DecidableEq, Repr

namespace WordRead

def cons (p : Piece) (w : WordRead) : WordRead := { w with pieces := p :: w.pieces }

def markQuoted (w : WordRead) : WordRead := { w with quoted := true }

end WordRead

/-- Reads a word up to the character that ends it; nothing if a quote is left open. -/
def readWord : Quoting → List Char → Option WordRead
  | .plain, [] => some { pieces := [], quoted := false, rest := [] }
  | _, [] => none
  | .plain, '\\' :: c :: rest =>
    if c = '\n' then readWord .plain rest
    else (readWord .plain rest).map fun w => (w.cons (.char c true)).markQuoted
  | .plain, '$' :: c :: rest =>
    if isParam c then (readWord .plain rest).map (·.cons (.param c false))
    else (readWord .plain (c :: rest)).map (·.cons (.char '$' false))
  | .plain, '\'' :: rest => (readWord .single rest).map (·.markQuoted)
  | .plain, '"' :: rest => (readWord .double rest).map (·.markQuoted)
  | .plain, c :: rest =>
    if endsWord c then some { pieces := [], quoted := false, rest := c :: rest }
    else (readWord .plain rest).map (·.cons (.char c false))
  | .single, '\'' :: rest => readWord .plain rest
  | .single, c :: rest => (readWord .single rest).map (·.cons (.char c true))
  | .double, '"' :: rest => readWord .plain rest
  | .double, '\\' :: c :: rest =>
    if c = '\n' then readWord .double rest
    else if escapableInDouble c then (readWord .double rest).map (·.cons (.char c true))
    else (readWord .double (c :: rest)).map (·.cons (.char '\\' true))
  | .double, '$' :: c :: rest =>
    if isParam c then (readWord .double rest).map (·.cons (.param c true))
    else (readWord .double (c :: rest)).map (·.cons (.char '$' true))
  | .double, c :: rest => (readWord .double rest).map (·.cons (.char c true))

structure Word where
  pieces : List Piece
  quoted : Bool
deriving DecidableEq, Repr

namespace Word

/-- The text of a word without quotes and parameters, as reserved words must be written. -/
def plainText? (w : Word) : Option String :=
  if w.quoted then none
  else
    (w.pieces.mapM fun (p : Piece) =>
      match p with
      | .char c _ => some c
      | .param .. => none).map String.ofList

/-- The fields a word expands to. Unquoted parameter values split at blanks; a word with no quoted
part may vanish. -/
def fields (value : Char → String) (w : Word) : List String :=
  let isSpace (c : Char) : Bool := c = ' ' || c = '\t' || c = '\n'
  let step : List String × Option String → Piece → List String × Option String
    | (done, open_), .char c _ => (done, some ((open_.getD "").push c))
    | (done, open_), .param name true => (done, some (open_.getD "" ++ value name))
    | (done, open_), .param name false =>
      (value name).toList.foldl
        (fun (done, open_) c =>
          if isSpace c then
            match open_ with
            | some field => (done ++ [field], none)
            | none => (done, none)
          else (done, some ((open_.getD "").push c)))
        (done, open_)
  let start : Option String := if w.quoted then some "" else none
  match w.pieces.foldl step ([], start) with
  | (done, some field) => done ++ [field]
  | (done, none) => done

end Word

end Arbor.Shell
