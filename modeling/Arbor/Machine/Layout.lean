import Arbor.Machine.Fault
import Arbor.Machine.Memory
import Arbor.Symbol

/-!
The data area. Globals come first, then the regions of each unit, one after another from
`Layout.base` in the order the program lists them. A region without words still takes one.
-/

namespace Arbor

structure Placement where
  symbol : String
  address : Address
  words : Nat
deriving DecidableEq, Repr

structure Layout where
  placements : List Placement := []
  dataEnd : Address
deriving DecidableEq, Repr

def DataRegion.words : DataRegion → Nat
  | .reserve _ quadwords => quadwords
  | .string _ bytes => bytes.length / 8 + 1

namespace Layout

/-- The lowest data address. -/
def base : Address := 0x1000

def empty : Layout := { dataEnd := base }

def find? (l : Layout) (symbol : String) : Option Placement :=
  l.placements.find? (·.symbol == symbol)

def place (l : Layout) (symbol : String) (words : Nat) : Except Fault Layout :=
  if (l.find? symbol).isSome then .error (.duplicateSymbol symbol)
  else .ok {
    placements := l.placements ++ [{ symbol := symbol, address := l.dataEnd, words := words }]
    dataEnd := l.dataEnd + 8 * UInt64.ofNat (if words = 0 then 1 else words) }

def placeAll (l : Layout) : List (String × Nat) → Except Fault Layout
  | [] => .ok l
  | (symbol, words) :: rest =>
    match l.place symbol words with
    | .ok l => l.placeAll rest
    | .error e => .error e

/-- Every symbol that takes space, with its number of words. -/
def requests (p : Program) : List (String × Nat) :=
  p.globals.map (fun name => (globalSymbol name, 1)) ++
    p.units.flatMap fun unit => unit.data.map fun region => (region.symbol, region.words)

def ofProgram (p : Program) : Except Fault Layout := empty.placeAll (requests p)

def insertBySymbol (p : Placement) : List Placement → List Placement
  | [] => [p]
  | q :: rest => if p.symbol < q.symbol then p :: q :: rest else q :: insertBySymbol p rest

/-- The placements in ascending order of their symbols. -/
def bySymbol (l : Layout) : List Placement := l.placements.foldr insertBySymbol []

/-- Memory before anything has run: strings in place, all other words zero. -/
def initialMemory (l : Layout) (p : Program) : Memory :=
  (p.units.flatMap (·.data)).foldl
    (fun m region =>
      match region, l.find? region.symbol with
      | .string _ bytes, some placement => m.putBytes placement.address 0 bytes
      | _, _ => m)
    {}

end Layout

end Arbor
