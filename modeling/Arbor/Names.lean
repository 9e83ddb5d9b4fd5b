/-!
Sets of names, kept in ascending order without repetition. The order of strings is that of their
code points, which is also the order of their encoded bytes.
-/

namespace Arbor

abbrev Names := List String

namespace Names

def add (name : String) : Names → Names
  | [] => [name]
  | x :: xs =>
    if name < x then name :: x :: xs
    else if name = x then x :: xs
    else x :: add name xs

def addAll (names : List String) (set : Names) : Names :=
  names.foldl (fun set name => add name set) set

def ofList (names : List String) : Names := addAll names []

end Names

end Arbor
