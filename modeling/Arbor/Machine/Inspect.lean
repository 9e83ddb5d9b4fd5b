import Arbor.Machine.Execute

/-!
A machine in use: a loaded program with a state, the calls made on it, and what can be read off it
between calls.
-/

namespace Arbor

structure Machine where
  image : Image
  state : MachineState

namespace Machine

def fresh (img : Image) : Machine := { image := img, state := { memory := img.initial } }

def load (p : Program) (limits : Limits) : Except Fault Machine :=
  match Image.load p limits with
  | .ok img => .ok (fresh img)
  | .error e => .error e

def call (m : Machine) (name : String) (args : List Word) : Except Fault Word × Machine :=
  match Exec.callFunction m.image name args m.state with
  | .ok v s => (.ok v, { m with state := s })
  | .error e s => (.error e, { m with state := s })

/-- Restores memory, registers, compared words and step count. The place in the code stays. -/
def reset (m : Machine) : Machine :=
  { m with
    state := { memory := m.image.initial, unit := m.state.unit, ip := m.state.ip } }

def hasSymbol (m : Machine) (symbol : String) : Bool := (m.image.layout.find? symbol).isSome

def symbolAddress (m : Machine) (symbol : String) : Except Fault Address :=
  m.image.symbolAddress symbol

def readWord (m : Machine) (a : Address) : Except Fault Word := m.image.load? m.state a

def readGlobal (m : Machine) (name : String) : Except Fault Word := do
  m.readWord (← m.symbolAddress (globalSymbol name))

/-- At most `n` bytes from an address on, up to the first zero byte. -/
def readBytes (m : Machine) (a : Address) : Nat → Except Fault Bytes
  | 0 => .ok []
  | n + 1 =>
    match m.readWord (a - a % 8) with
    | .error e => .error e
    | .ok word =>
      let b := Memory.byteIn word a
      if b = 0 then .ok []
      else
        match m.readBytes (a + 1) n with
        | .ok rest => .ok (b :: rest)
        | .error e => .error e

/-- The bytes up to the first zero byte. The bound is the size of the address space. -/
def readString (m : Machine) (a : Address) : Except Fault Bytes := m.readBytes a 0x10000000000000000

/-- `n` words from an address on. -/
def readWords (m : Machine) (a : Address) : Nat → Except Fault (List Word)
  | 0 => .ok []
  | n + 1 =>
    match m.readWord a with
    | .error e => .error e
    | .ok w =>
      match m.readWords (a + 8) n with
      | .ok rest => .ok (w :: rest)
      | .error e => .error e

/-- The elements of the list at an address, which starts with its length. -/
def readList (m : Machine) (a : Address) : Except Fault (List Word) :=
  match m.readWord a with
  | .error e => .error e
  | .ok count =>
    if count < 0 then .error (.negativeLength a) else m.readWords (a + 8) count.toInt.toNat

def readPlacements (m : Machine) : List Placement → Except Fault (List (String × List Word))
  | [] => .ok []
  | p :: rest =>
    match m.readWords p.address p.words with
    | .error e => .error e
    | .ok words =>
      match m.readPlacements rest with
      | .ok tail => .ok ((p.symbol, words) :: tail)
      | .error e => .error e

/-- Every word of the data area by symbol, in ascending order of the symbols. -/
def snapshot (m : Machine) : Except Fault (List (String × List Word)) :=
  m.readPlacements m.image.layout.bySymbol

end Machine

end Arbor
