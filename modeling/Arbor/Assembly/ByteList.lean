import Arbor.Assembly.Program

/-!
Byte strings as an assembler reads them after `db`: items separated by a comma and a blank, each a
run of printable characters in double quotes, taken literally, or the decimal value of one byte.
-/

namespace Arbor

inductive ByteItem where
  | quoted (bytes : Bytes)
  | value (byte : UInt8)
deriving DecidableEq, Repr

namespace ByteItem

/-- Printable ASCII other than the double quote, which would end the run. -/
def isQuotable (b : UInt8) : Bool := 0x20 ≤ b && b < 0x7f && b != 0x22

/-- Joins neighbouring quotable bytes into runs that are as long as possible. -/
def ofBytes : Bytes → List ByteItem
  | [] => []
  | b :: rest =>
    if isQuotable b then
      match ofBytes rest with
      | .quoted run :: items => .quoted (b :: run) :: items
      | items => .quoted [b] :: items
    else .value b :: ofBytes rest

def text : ByteItem → String
  | .quoted bytes => "\"" ++ String.ofList (bytes.map fun b => Char.ofNat b.toNat) ++ "\""
  | .value b => toString b.toNat

end ByteItem

/-- The bytes and a terminating zero. -/
def quoteBytes (bytes : Bytes) : String :=
  ", ".intercalate ((ByteItem.ofBytes bytes ++ [ByteItem.value 0]).map ByteItem.text)

end Arbor
