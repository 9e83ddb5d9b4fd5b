/-!
Paths into a tree or a document: the fields and positions passed on the way down from the root.
-/

namespace Arbor

/-- `item` is a position in a field that holds a list. -/
inductive Segment where
  | field (name : String)
  | item (name : String) (index : Nat)
deriving DecidableEq, Repr

def Segment.text : Segment → String
  | .field name => name
  | .item name index => name ++ "[" ++ toString index ++ "]"

abbrev Path := List Segment

/-- Segments are joined by dots. Nothing is put before the first segment with a text. -/
def Path.text (path : Path) : String :=
  path.foldl (fun out s => if out.isEmpty then s.text else out ++ "." ++ s.text) ""

end Arbor
