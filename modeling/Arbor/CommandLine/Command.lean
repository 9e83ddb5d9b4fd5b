import Arbor.Assembly.Listing
import Arbor.CommandLine.Options
import Arbor.Lowering.Compilation
import Arbor.Machine.Inspect
import Arbor.Optimize.Pipeline
import Arbor.Syntax.Document
import Arbor.Terminated
import Arbor.Toolchain

/-!
The commands: `emit` writes a listing, `build` also assembles and links it, and `run` simulates one
call. A command is a function of its arguments and the files, and answers what it prints, its exit
status and the files it leaves.
-/

namespace Arbor

def version : String := "0.3.0"

structure Outcome where
  exit : Nat := 0
  stdout : String := ""
  stderr : String := ""
  files : FileStore

namespace Command

def usage : String :=
  "\nasmlower - syntax tree to x86-64 lowering v" ++ version ++ "\n" ++
"
Usage: asmlower <command> [options]

Commands:
  emit <tree.json>            Write the NASM listing
      -o, --output <path>     Output file [default: stdout]

  build <tree.json>           Emit, assemble and link
      -o, --output <path>     Binary path (required)

  run <tree.json> <function> [args...]
                              Lower and simulate one function call

  version                     Show version information
  help                        Show this help message

Options (emit, build, run):
  -C, --config <file>         Build configuration [default: ./asmlower.json if present]
  -O0                         Disable all optimization passes
  --no-dead-store             Disable dead-store elimination
  --no-peephole               Disable the peephole pass
  -j, --jobs <n>              Lower functions on n worker threads
  --entry <name>              Function called by the _start stub [build default: main]
  --verbose                   Print per-pass statistics

Examples:
  asmlower emit factorial.json -o factorial.asm
  asmlower build factorial.json -o factorial --entry main
  asmlower run factorial.json factorial 5
"

def versionText : String :=
  "asmlower version " ++ version ++ "\nx86-64 NASM lowering engine\n"

def defaultConfig : String := "asmlower.json"

def defaultEntry : String := "main"

def failure (files : FileStore) (stderr message : String) : Outcome :=
  { exit := 1, stderr := stderr ++ "Error: " ++ message ++ "\n", files := files }

/-- Reports the error that stopped a command, under a heading. -/
def stopped (files : FileStore) (stderr heading message : String) : Outcome :=
  failure files stderr (heading ++ terminated message)

inductive SettingsError where
  | cannotOpen (path : String)
  | faulty (path : String) (fault : SettingsFault)
deriving DecidableEq, Repr

def SettingsError.message : SettingsError → String
  | .cannotOpen path => "cannot open: " ++ path
  | .faulty path fault => path ++ ": " ++ fault.message

def loadSettings (files : FileStore) (path : String) : Except SettingsError Settings :=
  match files.read? path with
  | none => .error (.cannotOpen path)
  | some contents =>
    match Settings.parse (textOfBytes contents) {} with
    | .ok s => .ok s
    | .error e => .error (.faulty path e)

/-- The named settings file, else the default one if it is there, else no file. -/
def settings (files : FileStore) (o : Options) : Except SettingsError Settings :=
  let loaded :=
    if !o.config.isEmpty then loadSettings files o.config
    else if files.fileExists defaultConfig then loadSettings files defaultConfig
    else .ok {}
  match loaded with
  | .ok s => .ok (o.override s)
  | .error e => .error e

def pipeline (s : Settings) : Pipeline :=
  (Pipeline.standard.setEnabled Pass.deadStore.name s.deadStore).setEnabled Pass.peephole.name
    s.peephole

def report (program : Program) (p : Pipeline) : String :=
  let row (s : PassStats) : String :=
    "  " ++ s.pass.name ++ (if p.isEnabled s.pass.name then "" else " (disabled)") ++ ": removed " ++
      toString s.removed ++ " instruction(s)\n"
  "Lowered " ++ toString program.units.length ++ " function(s), " ++
    toString program.globals.length ++ " global(s)\n" ++ String.join (p.stats.map row)

inductive LowerError where
  | cannotOpen (path : String)
  | read (error : ReadError)
  | compile (error : CompileError)
deriving DecidableEq, Repr

def LowerError.message : LowerError → String
  | .cannotOpen path => "Cannot open tree file: " ++ path
  | .read e => e.message
  | .compile e => e.message

/-- The optimized program of a tree file, and the report on it. -/
def lower (files : FileStore) (path : String) (s : Settings) :
    Except LowerError (Program × String) :=
  match files.read? path with
  | none => .error (.cannotOpen path)
  | some contents =>
    match Document.parse (textOfBytes contents) with
    | .error e => .error (.read e)
    | .ok source =>
      match source.compile s.jobs with
      | .error e => .error (.compile e)
      | .ok program =>
        let (optimized, p) := (pipeline s).run program
        .ok (optimized, report optimized p)

/-- The report when it is asked for. -/
def spoken (o : Options) (text : String) : String := if o.verbose then text else ""

/-- Parses options and settings for a command that accepts certain options only. -/
def prepared (args : List String) (files : FileStore) (accepts : Options → Bool) (complaint : String)
    (act : Options → Settings → Outcome) : Outcome :=
  match Options.parse args with
  | .error e => failure files "" e.message
  | .ok o =>
    if accepts o then
      match settings files o with
      | .ok s => act o s
      | .error e => failure files "" ("Failed to load configuration: " ++ e.message)
    else failure files "" complaint

def emit (args : List String) (files : FileStore) : Outcome :=
  prepared args files (fun o => o.positional.length = 1)
    "Missing tree file\nUsage: asmlower emit <tree.json> [options]"
    fun o s =>
      match lower files (o.positional.getD 0 "") s with
      | .error e => stopped files "" "" e.message
      | .ok (program, text) =>
        let stderr := spoken o text
        match program.listing s.entry with
        | .error e => stopped files stderr "" e.message
        | .ok listing =>
          if o.output.isEmpty then { stdout := listing, stderr := stderr, files := files }
          else
            match files.write? o.output (bytesOfText listing) with
            | none => failure files stderr ("Cannot open output file: " ++ o.output)
            | some files =>
              { stdout := "Emit complete: " ++ o.output ++ "\n", stderr := stderr, files := files }

/-- Copies the binary to its place, whose directories are made if they are missing. -/
def install (files : FileStore) (path : String) (binary : Bytes) : FileStore :=
  let files := files.makeDirectories (FileStore.components path).dropLast
  (files.write? path binary).getD files

def build (scratch : Toolchain.Scratch) (args : List String) (files : FileStore) : Outcome :=
  prepared args files (fun o => o.positional.length = 1 && !o.output.isEmpty)
    "Missing tree file or output path\nUsage: asmlower build <tree.json> -o <binary> [options]"
    fun o s =>
      let entry := s.entry.getD defaultEntry
      match lower files (o.positional.getD 0 "") s with
      | .error e => stopped files "" "Build failed: " e.message
      | .ok (program, text) =>
        let stderr := spoken o text
        match program.listing (some entry) with
        | .error e => stopped files stderr "Build failed: " e.message
        | .ok listing =>
          let commands := if s.commands.isEmpty then Toolchain.standardCommands else s.commands
          let built := Toolchain.build commands scratch listing files
          let stderr := stderr ++ textOfBytes built.stderr
          match built.result with
          | .error e => stopped built.files stderr "Build failed: " e.message
          | .ok binary =>
            { stdout := "Build complete: " ++ o.output ++ "\n"
              stderr := stderr
              files := install built.files o.output binary }

def words? : List String → Option (List Word)
  | [] => some []
  | arg :: rest => do
    let w ← Argument.word? arg
    return w :: (← words? rest)

/-- Calls a function of a tree file with some words on a new machine. -/
def simulate (files : FileStore) (o : Options) (s : Settings) (tree function : String)
    (words : List Word) : Outcome :=
  match lower files tree s with
  | .error e => stopped files "" "Execution failed: " e.message
  | .ok (program, text) =>
    let stderr := spoken o text
    match Machine.load program {} with
    | .error e => stopped files stderr "Execution failed: " e.message
    | .ok machine =>
      match machine.call function words with
      | (.error e, _) => stopped files stderr "Execution failed: " e.message
      | (.ok v, machine) =>
        { stdout := "Result: " ++ toString v.toInt ++ "\n"
          stderr := stderr ++
            spoken o ("Executed " ++ toString machine.state.steps ++ " instruction(s)\n")
          files := files }

def run (args : List String) (files : FileStore) : Outcome :=
  prepared args files (fun o => 2 ≤ o.positional.length)
    "Missing tree file or function name\nUsage: asmlower run <tree.json> <function> [args...]"
    fun o s =>
      match words? (o.positional.drop 2) with
      | none => failure files "" "Execution failed: stoll"
      | some words =>
        simulate files o s (o.positional.getD 0 "") (o.positional.getD 1 "") words

/-- The command line as a whole. -/
def dispatch (scratch : Toolchain.Scratch) (args : List String) (files : FileStore) : Outcome :=
  match args with
  | [] => { exit := 1, stderr := usage, files := files }
  | name :: args =>
    if name = "emit" then emit args files
    else if name = "build" then build scratch args files
    else if name = "run" then run args files
    else if name = "version" ∨ name = "-v" ∨ name = "--version" then
      { stdout := versionText, files := files }
    else if name = "help" ∨ name = "-h" ∨ name = "--help" then { stderr := usage, files := files }
    else { exit := 1, stderr := "Error: Unknown command '" ++ name ++ "'\n" ++ usage, files := files }

end Command

end Arbor
