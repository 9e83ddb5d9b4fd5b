import Arbor.CommandLine.Command

/-!
The executable. It reads the files that its arguments may mean, runs the command on them, prints
what the command answers and writes the files it changed.
-/

namespace Arbor

/-- A file's contents, if it can be read. -/
def readFile? (path : String) : IO (Option Bytes) := do
  try return some (← IO.FS.readBinFile path).toList
  catch _ => return none

/-- The files named by some path, as far as they can be read. -/
def readFiles (paths : List String) : IO FileStore := do
  let mut found := []
  for path in paths do
    match ← readFile? path with
    | some contents => found := found ++ [(path, contents)]
    | none => pure ()
  return FileStore.ofFiles found

/-- Directories that exist on disk take part as far as an output path needs them. -/
def knownDirectories (paths : List String) (files : FileStore) : IO FileStore := do
  let mut files := files
  for path in paths do
    let dir := (FileStore.components path).dropLast
    if !dir.isEmpty then
      try
        let _ ← IO.FS.realPath (FileStore.pathText dir)
        files := files.makeDirectories dir
      catch _ => pure ()
  return files

def writeFiles (files : List (String × Bytes)) : IO Unit := do
  for (path, contents) in files do
    let dir := (FileStore.components path).dropLast
    if !dir.isEmpty then IO.FS.createDirAll (FileStore.pathText dir)
    IO.FS.writeBinFile path (ByteArray.mk contents.toArray)

end Arbor

def main (args : List String) : IO UInt32 := do
  let paths := Arbor.Command.defaultConfig :: args
  let files ← Arbor.knownDirectories paths (← Arbor.readFiles paths)
  let outcome := Arbor.Command.dispatch { directory := "/tmp/asmlower" } args files
  IO.print outcome.stdout
  IO.eprint outcome.stderr
  Arbor.writeFiles (outcome.files.changedSince files)
  return UInt32.ofNat outcome.exit
