import Arbor.Shell.Run
import Arbor.Terminated

/-!
External toolchains. A build writes the listing into a scratch directory, runs command templates over
it, and takes the binary they leave there. The directory is removed whatever happens.
-/

namespace Arbor

structure ToolchainFailure where
  command : String
  exitCode : Int
  diagnostics : String
deriving DecidableEq, Repr

def ToolchainFailure.message (f : ToolchainFailure) : String :=
  "Toolchain command failed (exit " ++ toString f.exitCode ++ "): " ++ f.command ++
    (if f.diagnostics.isEmpty then "" else "\n" ++ f.diagnostics)

inductive ToolchainError where
  | noCommands
  | failed (failure : ToolchainFailure)
deriving DecidableEq, Repr

def ToolchainError.message : ToolchainError → String
  | .noCommands => "Toolchain needs at least one command"
  | .failed f => f.message

namespace Toolchain

def inputPlaceholder : String := "\x7binput\x7d"
def objectPlaceholder : String := "\x7bobject\x7d"
def outputPlaceholder : String := "\x7boutput\x7d"

def standardCommands : List String :=
  ["nasm -f elf64 " ++ inputPlaceholder ++ " -o " ++ objectPlaceholder,
    "ld " ++ objectPlaceholder ++ " -o " ++ outputPlaceholder]

/-- Replaces the occurrences of a pattern from left to right. The first `skip` items belong to an
occurrence already replaced. -/
def replaceFrom {α : Type} [BEq α] (pattern replacement : List α) : Nat → List α → List α
  | _, [] => []
  | skip + 1, _ :: rest => replaceFrom pattern replacement skip rest
  | 0, c :: rest =>
    if pattern.isPrefixOf (c :: rest) then
      replacement ++ replaceFrom pattern replacement (pattern.length - 1) rest
    else c :: replaceFrom pattern replacement 0 rest

def replaceAll (pattern replacement text : String) : String :=
  String.ofList (replaceFrom pattern.toList replacement.toList 0 text.toList)

/-- Puts the quoted paths in place of the placeholders, one placeholder after another. -/
def expand (template input object output : String) : String :=
  replaceAll outputPlaceholder (Shell.quote output)
    (replaceAll objectPlaceholder (Shell.quote object)
      (replaceAll inputPlaceholder (Shell.quote input) template))

/-- The files of a scratch directory. -/
structure Scratch where
  directory : String

namespace Scratch

def input (s : Scratch) : String := s.directory ++ "/program.asm"
def object (s : Scratch) : String := s.directory ++ "/program.o"
def output (s : Scratch) : String := s.directory ++ "/program"

def expand (s : Scratch) (template : String) : String :=
  Toolchain.expand template s.input s.object s.output

end Scratch

/-- `stderr` is what commands wrote past the diagnostics of the build. -/
structure BuildResult where
  result : Except ToolchainError Bytes
  files : FileStore
  stderr : Bytes := []

/-- Runs commands until one fails. What its last part writes to standard error joins its output. -/
def runCommands (scratch : Scratch) (files : FileStore) (stderr : Bytes) :
    List String → Except ToolchainFailure Unit × FileStore × Bytes
  | [] => (.ok (), files, stderr)
  | template :: rest =>
    let command := scratch.expand template
    let done := Shell.execute (terminated (command ++ " 2>&1")) files
    if done.status = 0 then runCommands scratch done.files (stderr ++ done.err) rest
    else
      (.error { command := command, exitCode := done.status, diagnostics := textOfBytes done.out },
        done.files, stderr ++ done.err)

def build (commands : List String) (scratch : Scratch) (listing : String) (files : FileStore) :
    BuildResult :=
  match commands.getLast? with
  | none => { result := .error .noCommands, files := files }
  | some last =>
    let prepared := files.makeDirectories (FileStore.components scratch.directory)
    let prepared := (prepared.write? scratch.input (bytesOfText listing)).getD prepared
    let (outcome, after, stderr) := runCommands scratch prepared [] commands
    let result := match outcome with
      | .error f => .error (.failed f)
      | .ok () =>
        if after.fileExists scratch.output then .ok ((after.read? scratch.output).getD [])
        else
          .error (.failed { command := last, exitCode := 0, diagnostics := "no binary was produced" })
    { result := result, files := after.removeTree scratch.directory, stderr := stderr }

end Toolchain

end Arbor
