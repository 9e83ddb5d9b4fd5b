import Arbor.Assembly.Program
import Arbor.Names

/-!
A small file system held as a value. Paths are split at slashes and taken from the working
directory; `.` and empty components say nothing, and `..` drops the component before it.
-/

namespace Arbor

inductive FileEntry where
  | file (contents : Bytes)
  | directory
deriving DecidableEq, Repr

/-- Entries by the components of their path. The working directory itself is not listed. -/
structure FileStore where
  entries : List (List String × FileEntry) := []
deriving Repr

namespace FileStore

/-- The components of a path. An absolute path starts with the component `/`. -/
def components (path : String) : List String :=
  let parts := path.splitOn "/"
  let start := if parts.head? = some "" ∧ 1 < parts.length then ["/"] else []
  parts.foldl
    (fun acc part =>
      if part = "" ∨ part = "." then acc
      else if part = ".." then acc.dropLast
      else acc ++ [part])
    start

def lookup (fs : FileStore) (path : List String) : Option FileEntry :=
  (fs.entries.find? (·.1 == path)).map (·.2)

def isDirectory (fs : FileStore) (path : List String) : Bool :=
  path.isEmpty || path == ["/"] || fs.lookup path == some .directory ||
    fs.entries.any fun (p, _) => path.length < p.length && path.isPrefixOf p

/-- Follows the parts of a path from a place. Only a directory can be passed through. -/
def follow (fs : FileStore) (place : List String) : List String → Option (List String)
  | [] => some place
  | part :: rest =>
    if !fs.isDirectory place then none
    else if part = "" ∨ part = "." then fs.follow place rest
    else if part = ".." then fs.follow place.dropLast rest
    else fs.follow (place ++ [part]) rest

/-- The place a path leads to. Nothing need be there, but all before it is. -/
def resolve? (fs : FileStore) (path : String) : Option (List String) :=
  if path.isEmpty then none
  else if path.startsWith "/" then fs.follow ["/"] (path.splitOn "/")
  else fs.follow [] (path.splitOn "/")

def read? (fs : FileStore) (path : String) : Option Bytes :=
  match fs.resolve? path with
  | some place =>
    match fs.lookup place with
    | some (.file contents) => some contents
    | _ => none
  | none => none

def fileExists (fs : FileStore) (path : String) : Bool :=
  match fs.resolve? path with
  | some place => (fs.lookup place).isSome || fs.isDirectory place
  | none => false

def put (fs : FileStore) (path : List String) (entry : FileEntry) : FileStore :=
  if fs.entries.any (·.1 == path) then
    { entries := fs.entries.map fun (p, e) => if p == path then (p, entry) else (p, e) }
  else { entries := fs.entries ++ [(path, entry)] }

/-- Creates or replaces a file. Its directory must be there. -/
def write? (fs : FileStore) (path : String) (contents : Bytes) : Option FileStore :=
  match fs.resolve? path with
  | some place => if fs.isDirectory place then none else some (fs.put place (.file contents))
  | none => none

def append? (fs : FileStore) (path : String) (contents : Bytes) : Option FileStore :=
  fs.write? path ((fs.read? path).getD [] ++ contents)

def makeDirectory? (fs : FileStore) (path : String) : Option FileStore :=
  let parts := components path
  if fs.fileExists path || !fs.isDirectory parts.dropLast then none
  else some (fs.put parts .directory)

/-- Creates the directories of a path that are missing. -/
def makeDirectories (fs : FileStore) (parts : List String) : FileStore :=
  (List.range parts.length).foldl
    (fun fs n =>
      let dir := parts.take (n + 1)
      if fs.isDirectory dir then fs else fs.put dir .directory)
    fs

def removeTree (fs : FileStore) (path : String) : FileStore :=
  let parts := components path
  { entries := fs.entries.filter fun (p, _) => !parts.isPrefixOf p }

def pathText (parts : List String) : String :=
  match parts with
  | "/" :: rest => "/" ++ "/".intercalate rest
  | parts => "/".intercalate parts

/-- All files by path, in ascending order. -/
def files (fs : FileStore) : List (String × Bytes) :=
  (fs.entries.filterMap fun (p, e) =>
    match e with
    | .file contents => some (pathText p, contents)
    | .directory => none).mergeSort fun a b => a.1 ≤ b.1

def ofFiles (files : List (String × Bytes)) : FileStore :=
  files.foldl (fun fs (path, contents) => fs.put (components path) (.file contents)) {}

/-- The files that are not in an earlier store, or differ from what it held. -/
def changedSince (fs before : FileStore) : List (String × Bytes) :=
  fs.files.filter fun (path, contents) => before.read? path != some contents

end FileStore

/-- Bytes as text. Bytes that encode no text are read one by one. -/
def textOfBytes (bytes : Bytes) : String :=
  match String.fromUTF8? (ByteArray.mk bytes.toArray) with
  | some text => text
  | none => String.ofList (bytes.map fun b => Char.ofNat b.toNat)

def bytesOfText (text : String) : Bytes := text.toUTF8.toList

end Arbor
