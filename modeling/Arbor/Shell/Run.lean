import Arbor.Shell.Script
import Arbor.Shell.Tool

/-!
Running scripts. Output goes to numbered buffers: 0 is the standard output of the outermost shell,
1 its standard error, and every pipe adds one. A script ends by running out, by `exit`, or by a
signal the shell sends itself.
-/

namespace Arbor.Shell

inductive Sink where
  | buffer (id : Nat)
  | file (path : String)
deriving DecidableEq, Repr

/-- What a command inherits from the commands around it. -/
structure Setting where
  out : Sink := .buffer 0
  err : Sink := .buffer 1
  input : Bytes := []
  /-- How many shells are running this one. -/
  level : Nat := 0
  name : String := "sh"
  args : List String := []

structure RunState where
  files : FileStore
  buffers : List Bytes := [[], []]
  status : Nat := 0

/-- How a command hands over to the next. -/
inductive Ending where
  | running
  | exited
  | killed (signal : Nat)
deriving DecidableEq, Repr

def RunState.emit (s : RunState) (sink : Sink) (bytes : Bytes) : RunState :=
  match sink with
  | .buffer id => { s with buffers := s.buffers.modify id (· ++ bytes) }
  | .file path => { s with files := (s.files.append? path bytes).getD s.files }

def RunState.complain (s : RunState) (setting : Setting) (message : String) : RunState :=
  s.emit setting.err (bytesOfText ("sh: 1: " ++ message ++ "\n"))

/-- Process numbers are made up: each shell has one of its own. -/
def processNumber (level : Nat) : String := toString (level + 2)

def paramValue (setting : Setting) (s : RunState) (name : Char) : String :=
  if name = '$' then processNumber setting.level
  else if name = '?' then toString s.status
  else if name = '#' then toString setting.args.length
  else if name = '0' then setting.name
  else setting.args.getD (name.toNat - '1'.toNat) ""

def expandWords (setting : Setting) (s : RunState) (words : List Word) : List String :=
  words.flatMap (Word.fields (paramValue setting s))

/-- Applies redirections from left to right; a channel may be pointed at what another one is by
then. The message says which redirection failed. -/
def redirectAll (setting : Setting) (s : RunState) :
    List Redirect → Except (String × RunState) (Setting × RunState)
  | [] => .ok (setting, s)
  | r :: rest =>
    let target := " ".intercalate (r.target.fields (paramValue setting s))
    let point (sink : Sink) : Setting :=
      if r.channel = 1 then { setting with out := sink }
      else if r.channel = 2 then { setting with err := sink }
      else setting
    match r.mode with
    | .input =>
      match s.files.read? target with
      | some contents => redirectAll { setting with input := contents } s rest
      | none => .error ("cannot open " ++ target ++ ": No such file", s)
    | .output =>
      if target = "/dev/null" then redirectAll (point (.buffer s.buffers.length)) s rest
      else
        match s.files.write? target [] with
        | some files => redirectAll (point (.file target)) { s with files := files } rest
        | none => .error ("cannot create " ++ target ++ ": Directory nonexistent", s)
    | .append =>
      if target = "/dev/null" then redirectAll (point (.buffer s.buffers.length)) s rest
      else
        match s.files.append? target [] with
        | some files => redirectAll (point (.file target)) { s with files := files } rest
        | none => .error ("cannot create " ++ target ++ ": Directory nonexistent", s)
    | .duplicate =>
      match target with
      | "1" => redirectAll (point setting.out) s rest
      | "2" => redirectAll (point setting.err) s rest
      | _ => .error (target ++ ": Bad file descriptor", s)

def signals : List (String × Nat) :=
  [("HUP", 1), ("INT", 2), ("QUIT", 3), ("ILL", 4), ("TRAP", 5), ("ABRT", 6), ("BUS", 7), ("FPE", 8),
    ("KILL", 9), ("USR1", 10), ("SEGV", 11), ("USR2", 12), ("PIPE", 13), ("ALRM", 14), ("TERM", 15)]

def signalNumber? (text : String) : Option Nat :=
  match text.toNat? with
  | some n => some n
  | none =>
    signals.lookup (if text.startsWith "SIG" then (text.drop 3).toString else text)

/-- The signal and the process a `kill` names. -/
def killRequest : List String → Option (Nat × String)
  | ["-s", name, pid] => (signalNumber? name).map fun n => (n, pid)
  | [arg, pid] =>
    if arg.startsWith "-" then (signalNumber? (arg.drop 1).toString).map fun n => (n, pid) else none
  | [pid] => some (15, pid)
  | _ => none

/-- What a shell says of a shell it started that was ended by a signal. -/
def signalText (signal : Nat) : String :=
  match signal with
  | 1 => "Hangup\n"
  | 3 => "Quit\n"
  | 4 => "Illegal instruction\n"
  | 5 => "Trace/breakpoint trap\n"
  | 6 => "Aborted\n"
  | 7 => "Bus error\n"
  | 8 => "Floating point exception\n"
  | 9 => "Killed\n"
  | 10 => "User defined signal 1\n"
  | 11 => "Segmentation fault\n"
  | 12 => "User defined signal 2\n"
  | 14 => "Alarm clock\n"
  | 15 => "Terminated\n"
  | _ => ""

def endingText : Ending → String
  | .killed signal => signalText signal
  | .running | .exited => ""

/-- The number a shell exits with. -/
def exitStatus (s : RunState) : Ending → Nat
  | .killed n => 128 + n
  | .running | .exited => s.status

mutual

/-- Runs a script. The fuel bounds how deep scripts and shells may be nested. -/
def run : Nat → Setting → Script → RunState → RunState × Ending
  | 0, _, _, s => ({ s with status := 2 }, .exited)
  | fuel + 1, setting, script, s =>
    match script with
    | .nothing => (s, .running)
    | .simple words rs =>
      match redirectAll setting s rs with
      | .error (message, s) => ({ s.complain setting message with status := 2 }, .running)
      | .ok (inner, s) =>
        match expandWords setting s words with
        | [] => ({ s with status := 0 }, .running)
        | name :: args => runNamed fuel inner name args s
    | .subshell body rs =>
      match redirectAll setting s rs with
      | .error (message, s) => ({ s.complain setting message with status := 2 }, .running)
      | .ok (inner, s) =>
        match run fuel inner body s with
        | (s, .killed n) => (s, .killed n)
        | (s, _) => (s, .running)
    | .group body rs =>
      match redirectAll setting s rs with
      | .error (message, s) => ({ s.complain setting message with status := 2 }, .running)
      | .ok (inner, s) => run fuel inner body s
    | .pipe first second =>
      let id := s.buffers.length
      match run fuel { setting with out := .buffer id } first
          { s with buffers := s.buffers ++ [[]] } with
      | (s, .killed n) => (s, .killed n)
      | (s, _) =>
        match run fuel { setting with input := s.buffers.getD id [] } second s with
        | (s, .killed n) => (s, .killed n)
        | (s, _) => (s, .running)
    | .both first second =>
      match run fuel setting first s with
      | (s, .running) => if s.status = 0 then run fuel setting second s else (s, .running)
      | ended => ended
    | .either first second =>
      match run fuel setting first s with
      | (s, .running) => if s.status = 0 then (s, .running) else run fuel setting second s
      | ended => ended
    | .sequence first second =>
      match run fuel setting first s with
      | (s, .running) => run fuel setting second s
      | ended => ended
    | .negated body =>
      match run fuel setting body s with
      | (s, .running) => ({ s with status := if s.status = 0 then 1 else 0 }, .running)
      | ended => ended

/-- Runs a command by name: those that concern the shell itself first, then the tools. -/
def runNamed : Nat → Setting → String → List String → RunState → RunState × Ending
  | 0, _, _, _, s => ({ s with status := 2 }, .exited)
  | fuel + 1, setting, name, args, s =>
    match name with
    | "exit" =>
      match args with
      | [] => (s, .exited)
      | n :: _ =>
        match n.toNat? with
        | some n => ({ s with status := n % 256 }, .exited)
        | none => ({ s.complain setting ("exit: Illegal number: " ++ n) with status := 2 }, .exited)
    | "kill" =>
      match killRequest args with
      | some (signal, pid) =>
        if pid = processNumber setting.level then
          if signal = 0 then ({ s with status := 0 }, .running) else (s, .killed signal)
        else ({ s.complain setting "kill: No such process" with status := 1 }, .running)
      | none => ({ s.complain setting "kill: Usage: kill [-s sigspec | -signum] pid" with status := 2 }, .running)
    | "sh" =>
      match args with
      | "-c" :: text :: more =>
        let inner : Setting :=
          { setting with level := setting.level + 1, name := more.head?.getD "sh", args := more.tail }
        match parse text with
        | .error e => ({ s.complain inner e.message with status := 2 }, .running)
        | .ok script =>
          let (s, ending) := run fuel inner script { s with status := 0 }
          let s := s.emit setting.err (bytesOfText (endingText ending))
          ({ s with status := exitStatus s ending }, .running)
      | _ => ({ s with status := 0 }, .running)
    | _ =>
      match Tool.find? name with
      | none => ({ s.complain setting (name ++ ": not found") with status := 127 }, .running)
      | some tool =>
        let r := tool args setting.input s.files
        let s := { s with files := r.files, status := r.status }
        let s := s.emit setting.out r.out
        (s.emit setting.err (bytesOfText r.err), .running)

end

structure Completed where
  files : FileStore
  status : Nat
  out : Bytes
  err : Bytes

/-- Runs the text of a script in a shell of its own. -/
def execute (text : String) (files : FileStore) : Completed :=
  match parse text with
  | .error e =>
    { files := files, status := 2, out := [], err := bytesOfText ("sh: 1: " ++ e.message ++ "\n") }
  | .ok script =>
    let (s, ending) := run (4 * text.length + 64) {} script { files := files }
    { files := s.files
      status := exitStatus s ending
      out := s.buffers.getD 0 []
      err := s.buffers.getD 1 [] }

end Arbor.Shell
