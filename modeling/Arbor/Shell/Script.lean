import Arbor.Shell.Word

/-!
Scripts: simple commands with redirections, joined by pipes, `&&`, `||`, `;` and newlines, and
grouped by parentheses or braces.
-/

namespace Arbor.Shell

inductive RedirectMode where
  | input | output | append | duplicate
deriving DecidableEq, Repr

structure Redirect where
  channel : Nat
  mode : RedirectMode
  target : Word
deriving DecidableEq, Repr

inductive Script where
  | nothing
  | simple (words : List Word) (redirects : List Redirect)
  | subshell (body : Script) (redirects : List Redirect)
  | group (body : Script) (redirects : List Redirect)
  | pipe (first second : Script)
  | both (first second : Script)
  | either (first second : Script)
  | sequence (first second : Script)
  | negated (body : Script)
deriving Repr

inductive Token where
  | word (w : Word)
  | channel (n : Nat)
  | operator (text : String)
deriving DecidableEq, Repr

inductive SyntaxFault where
  | openQuote
  | unexpected (text : String)
  | unexpectedEnd
deriving DecidableEq, Repr

def SyntaxFault.message : SyntaxFault → String
  | .openQuote => "Syntax error: Unterminated quoted string"
  | .unexpected text => "Syntax error: " ++ text ++ " unexpected"
  | .unexpectedEnd => "Syntax error: end of file unexpected"

/-- Operators, longer ones before those they start with. -/
def operators : List String :=
  ["&&", "||", ">>", ">&", "<&", ";;", "&", "|", ";", "<", ">", "(", ")", "\n"]

def readOperator? (cs : List Char) : Option (String × List Char) :=
  (operators.find? fun op => op.toList.isPrefixOf cs).map fun op => (op, cs.drop op.length)

/-- A number directly before a redirection names the channel it is about. -/
def isChannel (w : WordRead) : Option Nat :=
  match w.quoted, w.pieces, w.rest with
  | false, [.char c _], '<' :: _ | false, [.char c _], '>' :: _ =>
    if '0' ≤ c && c ≤ '9' then some (c.toNat - '0'.toNat) else none
  | _, _, _ => none

/-- The tokens of a text, of which there are at most `fuel`. -/
def tokens : Nat → List Char → Except SyntaxFault (List Token)
  | 0, _ => .ok []
  | fuel + 1, cs =>
    match cs.dropWhile fun c => c = ' ' || c = '\t' with
    | [] => .ok []
    | '#' :: rest => tokens fuel (rest.dropWhile (· ≠ '\n'))
    | '\\' :: '\n' :: rest => tokens fuel rest
    | cs =>
      match readOperator? cs with
      | some (op, rest) => do return .operator op :: (← tokens fuel rest)
      | none =>
        match readWord .plain cs with
        | none => .error .openQuote
        | some w =>
          let token : Token := match isChannel w with
            | some n => .channel n
            | none => .word { pieces := w.pieces, quoted := w.quoted }
          do return token :: (← tokens fuel w.rest)

abbrev Parse := Except SyntaxFault

def redirectMode? : String → Option (RedirectMode × Nat)
  | "<" => some (.input, 0)
  | ">" => some (.output, 1)
  | ">>" => some (.append, 1)
  | ">&" => some (.duplicate, 1)
  | "<&" => some (.duplicate, 0)
  | _ => none

def tokenText : Token → String
  | .word w => (w.plainText?.map fun text => "\"" ++ text ++ "\"").getD "word"
  | .channel n => toString n
  | .operator "\n" => "newline"
  | .operator text => "\"" ++ text ++ "\""

def unexpected {α : Type} : List Token → Parse α
  | [] => .error .unexpectedEnd
  | t :: _ => .error (.unexpected (tokenText t))

/-- A redirection at the start of the tokens, if there is one. -/
def redirect? (ts : List Token) : Parse (Option Redirect × List Token) :=
  let build (channel : Option Nat) (op : String) (rest : List Token) : Parse (Option Redirect × List Token) :=
    match redirectMode? op, rest with
    | some (mode, standard), .word w :: rest =>
      .ok (some { channel := channel.getD standard, mode := mode, target := w }, rest)
    | some _, rest => unexpected rest
    | none, _ => .ok (none, ts)
  match ts with
  | .channel n :: .operator op :: rest => build (some n) op rest
  | .operator op :: rest => build none op rest
  | _ => .ok (none, ts)

/-- Redirections after a group. -/
def redirects : Nat → List Token → Parse (List Redirect × List Token)
  | 0, ts => .ok ([], ts)
  | fuel + 1, ts => do
    match ← redirect? ts with
    | (some r, ts) =>
      let (rs, ts) ← redirects fuel ts
      return (r :: rs, ts)
    | (none, ts) => return ([], ts)

/-- The words and redirections of a simple command. -/
def simpleParts : Nat → List Token → Parse ((List Word × List Redirect) × List Token)
  | 0, ts => .ok (([], []), ts)
  | fuel + 1, ts => do
    match ← redirect? ts with
    | (some r, ts) =>
      let ((ws, rs), ts) ← simpleParts fuel ts
      return ((ws, r :: rs), ts)
    | (none, .word w :: ts) =>
      let ((ws, rs), ts) ← simpleParts fuel ts
      return ((w :: ws, rs), ts)
    | (none, ts) => return (([], []), ts)

def skipNewlines (ts : List Token) : List Token := ts.dropWhile (· == .operator "\n")

def isReserved (text : String) : Token → Bool
  | .word w => w.plainText? == some text
  | _ => false

/-- Whether a list of commands ends here. -/
def endsList : List Token → Bool
  | [] => true
  | t :: _ => t == .operator ")" || isReserved "\x7d" t

mutual

def command : Nat → List Token → Parse (Script × List Token)
  | 0, ts => unexpected ts
  | fuel + 1, ts =>
    match ts with
    | [] => .error .unexpectedEnd
    | t :: rest =>
      if t == .operator "(" then do
        let (body, ts) ← scriptList fuel rest
        match ts with
        | .operator ")" :: ts =>
          let (rs, ts) ← redirects fuel ts
          return (.subshell body rs, ts)
        | ts => unexpected ts
      else if isReserved "\x7b" t then do
        let (body, ts) ← scriptList fuel rest
        match ts with
        | t :: ts =>
          if isReserved "\x7d" t then
            let (rs, ts) ← redirects fuel ts
            return (.group body rs, ts)
          else unexpected (t :: ts)
        | [] => .error .unexpectedEnd
      else do
        let ((ws, rs), after) ← simpleParts fuel (t :: rest)
        if ws.isEmpty && rs.isEmpty then unexpected after
        else return (.simple ws rs, after)

def pipeline : Nat → List Token → Parse (Script × List Token)
  | 0, ts => unexpected ts
  | fuel + 1, ts => do
    match ts with
    | t :: rest =>
      if isReserved "!" t then
        let (body, ts) ← pipeline fuel rest
        return (.negated body, ts)
      else
        let (first, ts) ← command fuel (t :: rest)
        match ts with
        | .operator "|" :: ts =>
          let (second, ts) ← pipeline fuel (skipNewlines ts)
          return (.pipe first second, ts)
        | ts => return (first, ts)
    | [] => .error .unexpectedEnd

/-- The pipelines that follow `first` under `&&` and `||`, which bind to the left. -/
def andOr : Nat → Script → List Token → Parse (Script × List Token)
  | 0, _, ts => unexpected ts
  | fuel + 1, first, ts =>
    match ts with
    | .operator "&&" :: ts => do
      let (second, ts) ← pipeline fuel (skipNewlines ts)
      andOr fuel (.both first second) ts
    | .operator "||" :: ts => do
      let (second, ts) ← pipeline fuel (skipNewlines ts)
      andOr fuel (.either first second) ts
    | ts => .ok (first, ts)

/-- Commands up to the end of the script or of the group they stand in. -/
def scriptList : Nat → List Token → Parse (Script × List Token)
  | 0, ts => unexpected ts
  | fuel + 1, ts => do
    let ts := skipNewlines ts
    if endsList ts then return (.nothing, ts)
    else
      let (head, ts) ← pipeline fuel ts
      let (first, ts) ← andOr fuel head ts
      match ts with
      | .operator ";" :: ts | .operator "\n" :: ts =>
        let (rest, ts) ← scriptList fuel ts
        return (.sequence first rest, ts)
      | ts => return (first, ts)

end

def parse (text : String) : Except SyntaxFault Script := do
  let cs := text.toList
  let ts ← tokens (cs.length + 1) cs
  let (script, rest) ← scriptList (4 * ts.length + 4) ts
  match rest with
  | [] => return script
  | t :: _ => .error (.unexpected (tokenText t))

end Arbor.Shell
