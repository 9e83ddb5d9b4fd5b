import Arbor.Assembly.ByteList
import Arbor.Names
import Arbor.Symbol

/-!
The assembler listing of a program. Functions are exported, called functions that no unit defines
are imported, strings go to the data section, and globals and literals to the zeroed section. With
an entry function the listing starts the process itself: it calls the function and exits with its
result.
-/

namespace Arbor

structure EntryError where
  entry : String
deriving DecidableEq, Repr

def EntryError.message (e : EntryError) : String :=
  "Entry function '" ++ e.entry ++ "' is not defined"

namespace Program

def defines (p : Program) (name : String) : Bool := p.units.any (·.name == name)

/-- External functions that no unit defines, in ascending order. -/
def imports (p : Program) : Names :=
  Names.ofList ((p.units.flatMap (·.externs)).filter fun name => !p.defines name)

def regions (p : Program) : List DataRegion := p.units.flatMap (·.data)

def startStub (entry : String) : List String :=
  ["", "_start:", "    call " ++ entry, "    mov rdi, rax", "    mov rax, 60", "    syscall"]

def stringLine? : DataRegion → Option String
  | .string symbol bytes => some (symbol ++ ": db " ++ quoteBytes bytes)
  | .reserve .. => none

def reserveLine? : DataRegion → Option String
  | .reserve symbol quadwords => some (symbol ++ ": resq " ++ toString quadwords)
  | .string .. => none

def listingLines (p : Program) (entry : Option String) : List String :=
  let strings := p.regions.filterMap stringLine?
  ["bits 64", "default rel", "", "section .text"] ++
    p.units.map (fun unit => "global " ++ unit.name) ++
    (if entry.isSome then ["global _start"] else []) ++
    p.imports.map ("extern " ++ ·) ++
    (match entry with
      | some name => startStub name
      | none => []) ++
    p.units.flatMap (fun unit => "" :: unit.code.map Instruction.text) ++
    (if strings.isEmpty then [] else "" :: "section .data" :: strings) ++
    ["", "section .bss", "alignb 8"] ++
    p.globals.map (fun name => globalSymbol name ++ ": resq 1") ++
    p.regions.filterMap reserveLine?

def listing (p : Program) (entry : Option String) : Except EntryError String :=
  let text := String.join ((p.listingLines entry).map (· ++ "\n"))
  match entry with
  | some name => if p.defines name then .ok text else .error ⟨name⟩
  | none => .ok text

end Program

end Arbor
