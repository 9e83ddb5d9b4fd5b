import Std.Data.TreeMap
import Arbor.Assembly.Program

/-!
Memory as a total map from addresses to words, zero where nothing was written.
-/

namespace Arbor

structure Memory where
  words : Std.TreeMap Address Word := {}

namespace Memory

def read (m : Memory) (a : Address) : Word := m.words.getD a 0

def write (m : Memory) (a : Address) (v : Word) : Memory := { words := m.words.insert a v }

@[simp] theorem read_empty (a : Address) : read {} a = 0 := by simp [read]

@[simp] theorem read_write_self (m : Memory) (a : Address) (v : Word) :
    (m.write a v).read a = v := by simp [read, write]

theorem read_write (m : Memory) (a b : Address) (v : Word) :
    (m.write a v).read b = if a = b then v else m.read b := by
  simp [read, write, Std.TreeMap.getD_insert]

/-- Adds the bits of a byte at place `i` of the string that starts at an address. Bytes are packed
into words with the first byte lowest. -/
def putByte (m : Memory) (address : Address) (i : Nat) (b : UInt8) : Memory :=
  let a := address + UInt64.ofNat (i / 8 * 8)
  m.write a (m.read a ||| (b.toUInt64 <<< UInt64.ofNat (8 * (i % 8))).toInt64)

/-- Packs bytes from place `i` on. -/
def putBytes (m : Memory) (address : Address) (i : Nat) : Bytes → Memory
  | [] => m
  | b :: rest => (m.putByte address i b).putBytes address (i + 1) rest

/-- The byte at an address that need not be aligned. -/
def byteIn (word : Word) (address : Address) : UInt8 :=
  (word.toUInt64 >>> (8 * (address &&& 7))).toUInt8

end Memory

end Arbor
