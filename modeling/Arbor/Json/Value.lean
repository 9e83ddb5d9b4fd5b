/-!
JSON values as documents use them. Integers that fit are kept apart by sign: a non-negative one is
`unsigned`, one written with a minus sign is `signed`. Every other number is a `float`, of which
only the spelling is kept.
-/

namespace Arbor

inductive Json where
  | null
  | bool (value : Bool)
  | unsigned (value : UInt64)
  | signed (value : Int64)
  | float (text : String)
  | string (value : String)
  | array (items : List Json)
  | object (members : List (String × Json))
deriving Repr, Inhabited

namespace Json

/-- The value of the last member with a key. -/
def lookupLast (key : String) : List (String × Json) → Option Json
  | [] => none
  | (k, v) :: rest =>
    match lookupLast key rest with
    | some w => some w
    | none => if k = key then some v else none

/-- The member of an object with a key; nothing for other values. -/
def get? (j : Json) (key : String) : Option Json :=
  match j with
  | .object members => lookupLast key members
  | _ => none

theorem lookupLast_sizeOf {key : String} {members : List (String × Json)} {v : Json}
    (h : lookupLast key members = some v) : sizeOf v < sizeOf members := by
  induction members with
  | nil => simp [lookupLast] at h
  | cons m rest ih =>
    obtain ⟨k, w⟩ := m
    simp only [lookupLast] at h
    split at h
    · next found =>
      have := ih (found.trans h)
      simp only [List.cons.sizeOf_spec]
      omega
    · split at h
      · obtain rfl := Option.some.inj h
        simp only [List.cons.sizeOf_spec, Prod.mk.sizeOf_spec]
        omega
      · exact nomatch h

theorem get?_sizeOf {j : Json} {key : String} {v : Json} (h : j.get? key = some v) :
    sizeOf v < sizeOf j := by
  cases j with
  | object members =>
    have := lookupLast_sizeOf (show lookupLast key members = some v from h)
    simp only [object.sizeOf_spec]
    omega
  | _ => exact nomatch h

theorem mem_array_sizeOf {items : List Json} {v : Json} (h : v ∈ items) :
    sizeOf v < sizeOf (Json.array items) := by
  have := List.sizeOf_lt_of_mem h
  simp only [array.sizeOf_spec]
  omega

/-- A number written without fraction and exponent, as a signed word. Values from `2 ^ 63` on wrap. -/
def integer? : Json → Option Int64
  | .unsigned n => some n.toInt64
  | .signed n => some n
  | _ => none

end Json

end Arbor
