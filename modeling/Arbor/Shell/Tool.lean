import Arbor.FileStore

/-!
The programs a script can call. A tool gets its arguments, what it can read from its input and the
files, and answers what it writes to its two channels, its status and the files afterwards.
-/

namespace Arbor.Shell

structure ToolResult where
  files : FileStore
  out : Bytes := []
  err : String := ""
  status : Nat := 0

namespace Tool

def isOctal (c : Char) : Bool := '0' ≤ c && c ≤ '7'

def octalValue (cs : List Char) : Nat := cs.foldl (fun n c => 8 * n + (c.toNat - '0'.toNat)) 0

/-- The byte of a one-letter escape. -/
def escapeByte? : Char → Option UInt8
  | 'a' => some 7
  | 'b' => some 8
  | 'f' => some 12
  | 'n' => some 10
  | 'r' => some 13
  | 't' => some 9
  | 'v' => some 11
  | '\\' => some 92
  | _ => none

def charBytes (c : Char) : Bytes := bytesOfText (String.singleton c)

/-- Replaces backslash escapes; `\c` ends the text. In an echoed text an octal number starts with
a zero that does not count. The answer says whether the text was ended. -/
def unescape (echoed : Bool) : Nat → List Char → Bytes × Bool
  | 0, _ => ([], false)
  | _ + 1, [] => ([], false)
  | fuel + 1, '\\' :: c :: rest =>
    let more (bytes : Bytes) (rest : List Char) : Bytes × Bool :=
      let (tail, ended) := unescape echoed fuel rest
      (bytes ++ tail, ended)
    if c = 'c' then ([], true)
    else if echoed && c = '0' then
      let digits := (rest.take 3).takeWhile isOctal
      more [UInt8.ofNat (octalValue digits)] (rest.drop digits.length)
    else if !echoed && isOctal c then
      let digits := c :: (rest.take 2).takeWhile isOctal
      more [UInt8.ofNat (octalValue digits)] (rest.drop (digits.length - 1))
    else
      match escapeByte? c with
      | some b => more [b] rest
      | none => more (92 :: charBytes c) rest
  | fuel + 1, c :: rest =>
    let (tail, ended) := unescape echoed fuel rest
    (charBytes c ++ tail, ended)

def unescapeText (echoed : Bool) (text : String) : Bytes × Bool :=
  let cs := text.toList
  unescape echoed (cs.length + 1) cs

def echo (args : List String) (files : FileStore) : ToolResult :=
  let (newline, args) := match args with
    | "-n" :: rest => (false, rest)
    | args => (true, args)
  let (bytes, ended) := unescapeText true (" ".intercalate args)
  { files := files, out := if newline && !ended then bytes ++ [10] else bytes }

/-- How a directive pads its text. -/
structure Padding where
  left : Bool
  zero : Bool
  width : Nat

/-- The padding at the start of a directive, and the rest. -/
def readPadding (cs : List Char) : Padding × List Char :=
  let flags := cs.takeWhile fun c => c = '-' || c = '0'
  let rest := cs.drop flags.length
  let digits := rest.takeWhile Char.isDigit
  ({ left := flags.contains '-'
     zero := flags.contains '0'
     width := (String.ofList digits).toNat?.getD 0 },
    rest.drop digits.length)

def Padding.apply (p : Padding) (numeric : Bool) (text : String) : Bytes :=
  let bytes := bytesOfText text
  let missing := p.width - bytes.length
  if p.left then bytes ++ List.replicate missing 32
  else if p.zero && numeric then
    match bytes with
    | 45 :: digits => 45 :: (List.replicate missing 48 ++ digits)
    | digits => List.replicate missing 48 ++ digits
  else List.replicate missing 32 ++ bytes

/-- The text of an argument under a directive other than `%` and `b`, and whether it is a number. -/
def directive? (d : Char) (arg : String) : Option (Bool × String) :=
  let n := arg.toInt?.getD 0
  if d = 's' then some (false, arg)
  else if d = 'c' then some (false, String.ofList (arg.toList.take 1))
  else if d = 'd' || d = 'i' || d = 'u' then some (true, toString n)
  else if d = 'x' then some (true, String.ofList (Nat.toDigits 16 n.toNat))
  else if d = 'o' then some (true, String.ofList (Nat.toDigits 8 n.toNat))
  else none

/-- One pass over a format; `%` directives take arguments in turn. -/
def formatOnce : Nat → List Char → List String → Bytes × List String
  | 0, _, args => ([], args)
  | _ + 1, [], args => ([], args)
  | fuel + 1, '%' :: rest, args =>
    let arg := args.head?.getD ""
    let (padding, after) := readPadding rest
    let more (bytes : Bytes) (rest : List Char) (args : List String) : Bytes × List String :=
      let (tail, left) := formatOnce fuel rest args
      (bytes ++ tail, left)
    match after with
    | '%' :: rest => more [37] rest args
    | 'b' :: rest => more (unescapeText true arg).1 rest args.tail
    | d :: rest =>
      match directive? d arg with
      | some (numeric, text) => more (padding.apply numeric text) rest args.tail
      | none => more [37] (d :: rest) args
    | [] => ([37], args)
  | fuel + 1, '\\' :: rest, args =>
    let octal := (rest.take 3).takeWhile isOctal
    let width := if octal.isEmpty then min 1 rest.length else octal.length
    let bytes := (unescapeText false (String.ofList ('\\' :: rest.take width))).1
    let (tail, left) := formatOnce fuel (rest.drop width) args
    (bytes ++ tail, left)
  | fuel + 1, c :: rest, args =>
    let (tail, left) := formatOnce fuel rest args
    (charBytes c ++ tail, left)

/-- The format is used again while a pass takes arguments and some are left. -/
def formatAll (format : List Char) : Nat → List String → Bytes
  | 0, _ => []
  | fuel + 1, args =>
    let (bytes, left) := formatOnce (format.length + 1) format args
    if left.isEmpty || left.length = args.length then bytes
    else bytes ++ formatAll format fuel left

def printf (args : List String) (files : FileStore) : ToolResult :=
  match args with
  | [] => { files := files, err := "sh: 1: printf: usage: printf format [arg ...]\n", status := 2 }
  | format :: rest => { files := files, out := formatAll format.toList (rest.length + 1) rest }

/-- The contents of the named files, `-` standing for the input, with a complaint for each that
cannot be read. -/
def readInputs (complaint : String → String) (names : List String) (input : Bytes)
    (files : FileStore) : List Bytes × String :=
  let names := if names.isEmpty then ["-"] else names
  names.foldl
    (fun (found, err) name =>
      if name = "-" then (found ++ [input], err)
      else
        match files.read? name with
        | some contents => (found ++ [contents], err)
        | none =>
          let reason :=
            if files.fileExists name then "Is a directory" else "No such file or directory"
          (found, err ++ complaint name ++ ": " ++ reason ++ "\n"))
    ([], "")

def cat (args : List String) (input : Bytes) (files : FileStore) : ToolResult :=
  let (found, err) := readInputs ("cat: " ++ ·) args input files
  { files := files, out := found.flatten, err := err, status := if err.isEmpty then 0 else 1 }

def copyOne (source target : String) (files : FileStore) : ToolResult :=
  match files.read? source with
  | none =>
    if files.fileExists source then
      { files := files, err := "cp: -r not specified; omitting directory '" ++ source ++ "'\n", status := 1 }
    else
      { files := files, err := "cp: cannot stat '" ++ source ++ "': No such file or directory\n", status := 1 }
  | some contents =>
    let target :=
      if files.isDirectory (FileStore.components target) then
        target ++ "/" ++ ((FileStore.components source).getLast?.getD "")
      else target
    if FileStore.components source = FileStore.components target then
      { files := files
        err := "cp: '" ++ source ++ "' and '" ++ target ++ "' are the same file\n"
        status := 1 }
    else
      match files.write? target contents with
      | some files => { files := files }
      | none =>
        { files := files
          err := "cp: cannot create regular file '" ++ target ++ "': No such file or directory\n"
          status := 1 }

def cp (args : List String) (files : FileStore) : ToolResult :=
  match args.filter fun a => !a.startsWith "-" with
  | [] =>
    { files := files
      err := "cp: missing file operand\nTry 'cp --help' for more information.\n"
      status := 1 }
  | [only] =>
    { files := files
      err := "cp: missing destination file operand after '" ++ only ++
        "'\nTry 'cp --help' for more information.\n"
      status := 1 }
  | first :: rest =>
    let target := (first :: rest).getLast?.getD ""
    (first :: rest).dropLast.foldl
      (fun acc source =>
        let r := copyOne source target acc.files
        { files := r.files, err := acc.err ++ r.err, status := max acc.status r.status })
      { files := files }

def mkdir (args : List String) (files : FileStore) : ToolResult :=
  let parents := args.contains "-p"
  (args.filter fun a => !a.startsWith "-").foldl
    (fun acc path =>
      let complain (reason : String) : ToolResult :=
        { acc with
          err := acc.err ++ "mkdir: cannot create directory '" ++ path ++ "': " ++ reason ++ "\n"
          status := 1 }
      if parents then
        { acc with files := acc.files.makeDirectories (FileStore.components path) }
      else
        match acc.files.makeDirectory? path with
        | some files => { acc with files := files }
        | none =>
          complain (if acc.files.fileExists path then "File exists" else "No such file or directory"))
    { files := files }

def testNumber (text : String) : Except String Int :=
  match text.toInt? with
  | some n => .ok n
  | none => .error ("Illegal number: " ++ text)

/-- The truth of a test expression, or what is wrong with it. -/
def testValue (files : FileStore) : List String → Except String Bool
  | [] => .ok false
  | ["-e", p] => .ok (files.fileExists p)
  | ["-f", p] => .ok (files.read? p).isSome
  | ["-r", p] | ["-w", p] => .ok (files.fileExists p)
  | ["-d", p] => .ok (files.fileExists p && files.isDirectory (FileStore.components p))
  | ["-s", p] => .ok (((files.read? p).map fun b => !b.isEmpty).getD (files.fileExists p))
  | ["-z", s] => .ok s.isEmpty
  | ["-n", s] => .ok (!s.isEmpty)
  | [s] => .ok (!s.isEmpty)
  | [a, "=", b] => .ok (a == b)
  | [a, "!=", b] => .ok (a != b)
  | [a, op, b] => do
    let x ← testNumber a
    let y ← testNumber b
    match op with
    | "-eq" => .ok (x == y)
    | "-ne" => .ok (x != y)
    | "-lt" => .ok (decide (x < y))
    | "-le" => .ok (decide (x ≤ y))
    | "-gt" => .ok (decide (x > y))
    | "-ge" => .ok (decide (x ≥ y))
    | _ => .error (op ++ ": unexpected operator")
  | arg :: _ => .error (arg ++ ": unexpected operator")

def test (args : List String) (files : FileStore) : ToolResult :=
  let value := match args with
    | "!" :: rest => (testValue files rest).map (!·)
    | args => testValue files args
  match value with
  | .ok true => { files := files }
  | .ok false => { files := files, status := 1 }
  | .error e => { files := files, err := "sh: 1: test: " ++ e ++ "\n", status := 2 }

/-- The first `n` lines, with their line ends. -/
def firstLines : Nat → Bytes → Bytes
  | _, [] => []
  | 0, _ => []
  | n + 1, b :: rest => b :: firstLines (if b = 10 then n else n + 1) rest

def head (args : List String) (input : Bytes) (files : FileStore) : ToolResult :=
  let count (text : String) : Nat := text.toNat?.getD 0
  let (take, names) : (Bytes → Bytes) × List String := match args with
    | "-n" :: n :: rest => (firstLines (count n), rest)
    | "-c" :: n :: rest => (List.take (count n), rest)
    | arg :: rest =>
      if arg.startsWith "-n" then (firstLines (count ((arg.drop 2).toString)), rest)
      else if arg.startsWith "-c" then (List.take (count ((arg.drop 2).toString)), rest)
      else if arg.startsWith "-" && arg.length > 1 then (firstLines (count ((arg.drop 1).toString)), rest)
      else (firstLines 10, arg :: rest)
    | [] => (firstLines 10, [])
  let (found, err) := readInputs (fun name => "head: cannot open '" ++ name ++ "' for reading") names input files
  { files := files, out := (found.map take).flatten, err := err, status := if err.isEmpty then 0 else 1 }

/-- The bytes of a set, with escapes and ranges. -/
def trSet (text : String) : Bytes :=
  let rec ranges : Bytes → Bytes
    | a :: 45 :: b :: rest =>
      if a ≤ b then
        (List.range (b.toNat - a.toNat + 1)).map (fun k => a + UInt8.ofNat k) ++ ranges rest
      else a :: ranges (45 :: b :: rest)
    | b :: rest => b :: ranges rest
    | [] => []
  ranges (unescapeText false text).1

def tr (args : List String) (input : Bytes) (files : FileStore) : ToolResult :=
  match args with
  | ["-d", set] =>
    let drop := trSet set
    { files := files, out := input.filter fun b => !drop.contains b }
  | [source, target] =>
    let source := trSet source
    let target := trSet target
    let last := target.getLast?.getD 0
    let change (b : UInt8) : UInt8 :=
      match source.idxOf? b with
      | some k => target.getD k last
      | none => b
    { files := files, out := input.map change }
  | _ => { files := files, err := "tr: missing operand\n", status := 1 }

/-- The tool of a name, if there is one. -/
def find? (name : String) : Option (List String → Bytes → FileStore → ToolResult) :=
  match name with
  | "echo" => some fun args _ files => echo args files
  | "printf" => some fun args _ files => printf args files
  | "cat" => some cat
  | "cp" => some fun args _ files => cp args files
  | "mkdir" => some fun args _ files => mkdir args files
  | "test" => some fun args _ files => test args files
  | "[" => some fun args _ files => test args.dropLast files
  | "head" => some head
  | "tr" => some tr
  | "true" | ":" => some fun _ _ files => { files := files }
  | "false" => some fun _ _ files => { files := files, status := 1 }
  | _ => none

end Tool

end Arbor.Shell
