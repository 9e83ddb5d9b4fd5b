import Mathlib.Tactic
import Arbor.Proofs.DocumentRoundTrip

/-!
Where the errors of reading point. The format says of each kind of node what its fields
have to be, without a word about what is below them. The path of an error leads through
the members and items of the document to a value, and that value breaks the format by
itself: by what it is, or by one of its own members.
-/

namespace Arbor

namespace Json

/-- One step down: a member of an object, or an item of an array that is one. -/
def step? (j : Json) : Segment → Option Json
  | .field key => j.get? key
  | .item key index =>
    match j.get? key with
    | some (.array js) => js[index]?
    | _ => none

/-- The value that a path leads to. -/
def follow? (j : Json) : Path → Option Json
  | [] => some j
  | segment :: rest => (j.step? segment).bind fun v => v.follow? rest

/-- The array in the member has the values from the position on. -/
def HasItems (j : Json) (key : String) (index : Nat) (js : List Json) : Prop :=
  ∀ k, j.step? (.item key (index + k)) = js[k]?

theorem HasItems.of_get? {j : Json} {key : String} {js : List Json}
    (h : j.get? key = some (.array js)) : j.HasItems key 0 js := by
  intro k
  rw [step?, h, Nat.zero_add]

theorem HasItems.tail {j v : Json} {key : String} {index : Nat} {rest : List Json}
    (h : j.HasItems key index (v :: rest)) : j.HasItems key (index + 1) rest := by
  intro k
  rw [Nat.add_right_comm, Nat.add_assoc, h, List.getElem?_cons_succ]

/-- The kind of a node, if it is known. -/
def kind? (j : Json) : Option Kind :=
  match j.get? "kind" with
  | some (.string text) => Kind.ofText? text
  | _ => none

end Json

/-- What a value of a document stands for. -/
inductive Role where
  | document | topLevel | node | callee | parameter
deriving DecidableEq, Repr

namespace Role

/-- Callees and parameters may be less than nodes. -/
def below (role : Role) (j : Json) (segment : Segment) : Role :=
  if role = .document then .topLevel
  else
    match segment with
    | .field key => if j.kind? = some .call ∧ key = "func" then .callee else .node
    | .item key _ => if j.kind? = some .functionDef ∧ key = "args" then .parameter else .node

def isNode : Role → Bool
  | .topLevel | .node | .callee => true
  | .document | .parameter => false

/-- The kinds of nodes that may stand in a role. -/
def allows : Role → Kind → Bool
  | .topLevel, kind => kind == .functionDef
  | .callee, kind => kind == .name
  | _, _ => true

end Role

/-- The role of the value that a path leads to. -/
def Json.roleAt (j : Json) (role : Role) : Path → Role
  | [] => role
  | segment :: rest =>
    match j.step? segment with
    | some v => v.roleAt (role.below j segment) rest
    | none => role

/-- What a field of a node may hold. -/
inductive FieldShape where
  | present | list | optionalList | text | binaryOperator | compareOperator | scalar
deriving DecidableEq, Repr

namespace FieldShape

/-- Whether a member, or the lack of one, has the shape. -/
def fits : FieldShape → Option Json → Bool
  | .present, some _ => true
  | .list, some (.array _) => true
  | .optionalList, none => true
  | .optionalList, some .null => true
  | .optionalList, some (.array _) => true
  | .text, some (.string _) => true
  | .binaryOperator, some (.string name) => (BinaryOperator.ofName? name).isSome
  | .compareOperator, some (.string name) => (CompareOperator.ofName? name).isSome
  | .scalar, some .null => true
  | .scalar, some (.bool _) => true
  | .scalar, some (.string _) => true
  | .scalar, some (.signed _) => true
  | .scalar, some (.unsigned n) => n < 0x8000000000000000
  | _, _ => false

def isText : FieldShape → Bool
  | .text | .binaryOperator | .compareOperator => true
  | _ => false

theorem fits_eq_false_of_isText {shape : FieldShape} (hshape : shape.isText) {v : Option Json}
    (h : ∀ text, v ≠ some (.string text)) : shape.fits v = false := by
  cases v with
  | none => cases shape <;> cases hshape <;> rfl
  | some v =>
      cases v with
      | string text => exact absurd rfl (h text)
      | _ => cases shape <;> cases hshape <;> rfl

end FieldShape

/-- The fields that the format asks of a kind. -/
def Kind.format : Kind → List (String × FieldShape)
  | .functionDef => [("name", .text), ("args", .list), ("body", .list)]
  | .assign => [("targets", .list), ("value", .present)]
  | .augAssign => [("target", .present), ("op", .binaryOperator), ("value", .present)]
  | .ret => []
  | .expr => [("value", .present)]
  | .ifElse => [("test", .present), ("body", .list), ("orelse", .optionalList)]
  | .whileLoop => [("test", .present), ("body", .list)]
  | .binary => [("op", .binaryOperator), ("left", .present), ("right", .present)]
  | .compare => [("op", .compareOperator), ("left", .present), ("right", .present)]
  | .call => [("func", .present), ("args", .optionalList)]
  | .list => [("elts", .list)]
  | .dict => [("keys", .list), ("values", .list)]
  | .subscript => [("value", .present), ("index", .present)]
  | .attribute => [("value", .present), ("attr", .text)]
  | .name => [("id", .text)]
  | .constant => [("value", .scalar)]

theorem Kind.text_of_ofText? {text : String} {kind : Kind} (h : ofText? text = some kind) :
    kind.text = text := by
  simpa using List.find?_some h

namespace Json

/-- A line may be left out. One that is given is a non-negative integer of 63 bits. -/
def lineFits (j : Json) : Bool :=
  match j.get? "line" with
  | none => true
  | some .null => true
  | some (.unsigned n) => n < 0x8000000000000000
  | some (.signed n) => 0 ≤ n
  | some _ => false

/-- The value breaks the format by itself, not by what is below its members. -/
inductive Offends (j : Json) : Role → Prop where
  | notObject {role : Role} (hrole : role.isNode) (h : ∀ members, j ≠ .object members) :
      Offends j role
  | noKind {role : Role} (hrole : role.isNode) (h : ∀ text, j.get? "kind" ≠ some (.string text)) :
      Offends j role
  | unknownKind {role : Role} (hrole : role.isNode) {text : String}
      (hkind : j.get? "kind" = some (.string text)) (h : Kind.ofText? text = none) :
      Offends j role
  | kind {role : Role} {kind : Kind} (hkind : j.kind? = some kind)
      (h : role.allows kind = false) : Offends j role
  | line {role : Role} (hrole : role.isNode) (h : j.lineFits = false) : Offends j role
  | field {role : Role} (hrole : role.isNode) {kind : Kind} (hkind : j.kind? = some kind)
      {key : String} {shape : FieldShape} (hfield : (key, shape) ∈ kind.format)
      (h : shape.fits (j.get? key) = false) : Offends j role
  | counts {role : Role} (hrole : role.isNode) (hkind : j.kind? = some .dict)
      {keys values : List Json} (hkeys : j.get? "keys" = some (.array keys))
      (hvalues : j.get? "values" = some (.array values)) (h : keys.length ≠ values.length) :
      Offends j role
  | parameter (hname : ∀ name, j ≠ .string name)
      (harg : ∀ name, j.get? "arg" ≠ some (.string name)) : Offends j .parameter

/-- A node of a kind that its role does not allow, known or not. -/
theorem Offends.of_kind {j : Json} {role : Role} (hrole : role.isNode) {text : String}
    (htext : j.get? "kind" = some (.string text))
    (h : ∀ kind, Kind.ofText? text = some kind → role.allows kind = false) : j.Offends role := by
  cases hof : Kind.ofText? text with
  | none => exact .unknownKind hrole htext hof
  | some kind => exact .kind (by rw [kind?, htext]; exact hof) (h kind hof)

end Json

def ReadError.path : ReadError → Path
  | .format path _ => path
  | .unsupported e => e.path

@[simp] theorem ReadError.path_under (e : ReadError) (segment : Segment) :
    (e.under segment).path = segment :: e.path := by
  cases e <;> rfl

namespace Document

/-- An error of the action points at a value below that breaks the format. -/
def Blames {α : Type} (j : Json) (role : Role) (x : Read α) : Prop :=
  ∀ e, x = .error e → ∃ v, j.follow? e.path = some v ∧ v.Offends (j.roleAt role e.path)

namespace Blames

variable {j : Json} {role : Role} {α β : Type}

theorem ok (a : α) : Blames j role (.ok a) := by
  intro e h
  cases h

theorem pure (a : α) : Blames j role (Pure.pure a : Read α) := ok a

theorem bind {x : Read α} {f : α → Read β} (hx : Blames j role x)
    (hf : ∀ a, x = .ok a → Blames j role (f a)) : Blames j role (x >>= f) := by
  intro e h
  cases x with
  | ok a => exact hf a rfl e h
  | error e' =>
      cases h
      exact hx e rfl

theorem malformed (h : j.Offends role) (fault : FormatFault) :
    Blames j role (malformed fault : Read α) := by
  intro e he
  cases he
  exact ⟨j, rfl, h⟩

theorem unsupported (h : j.Offends role) (kind : String) (reason : UnsupportedReason)
    (line : UInt32) : Blames j role (unsupported kind reason line : Read α) := by
  intro e he
  cases he
  exact ⟨j, rfl, h⟩

theorem within {segment : Segment} {v : Json} {x : Read α} (hstep : j.step? segment = some v)
    (hx : Blames v (role.below j segment) x) : Blames j role (within segment x) := by
  intro e he
  cases x with
  | ok a => cases he
  | error e' =>
      cases he
      obtain ⟨w, hw, hoffends⟩ := hx e' rfl
      rw [ReadError.path_under]
      refine ⟨w, ?_, ?_⟩
      · rw [Json.follow?, hstep]
        exact hw
      · rw [Json.roleAt, hstep]
        exact hoffends

end Blames

variable {j : Json} {role : Role}

theorem kindOf_blames (hrole : role.isNode) : Blames j role (kindOf j) := by
  unfold kindOf
  split
  · split
    · exact .ok _
    · next hkind => exact .malformed (.noKind hrole fun text h => hkind text h) _
  · next hobject => exact .malformed (.notObject hrole fun members h => hobject members h) _

theorem kindOf_eq_ok {text : String} (h : kindOf j = .ok text) :
    j.get? "kind" = some (.string text) := by
  unfold kindOf at h
  split at h
  · split at h
    · next hkind =>
        cases h
        exact hkind
    · cases h
  · cases h

theorem stringField_eq_ok {key text : String} (h : stringField j key = .ok text) :
    j.get? key = some (.string text) := by
  unfold stringField at h
  split at h
  · cases h
  · next hstring =>
      cases h
      exact hstring
  · cases h

theorem lineOf_blames (hrole : role.isNode) : Blames j role (lineOf j) := by
  unfold lineOf
  split
  · exact .ok _
  · exact .ok _
  · next v hnull hline =>
      have hline' : j.lineFits = false → ∀ fault, Blames j role (malformed fault : Read UInt32) :=
        fun h fault => .malformed (.line hrole h) fault
      unfold Json.lineFits at hline'
      rw [hline] at hline'
      cases v with
      | null => exact absurd rfl hnull
      | unsigned n =>
          simp only [Json.integer?]
          split
          · next hneg =>
              exact hline' (by simpa [UInt64.not_lt] using (toInt64_neg_iff n).mp hneg) _
          · exact .ok _
      | signed n =>
          simp only [Json.integer?]
          split
          · next hneg => exact hline' (by simpa [Int64.not_le] using hneg) _
          · exact .ok _
      | bool | float | string | array | object => exact hline' rfl _

theorem child_blames {key : String} {read : (v : Json) → sizeOf v < sizeOf j → Read Tree}
    (hmissing : j.get? key = none → j.Offends role) (hbelow : role.below j (.field key) = .node)
    (hread : ∀ v h, Blames v .node (read v h)) : Blames j role (child j key read) := by
  unfold child
  split
  · next hnone => exact .malformed (hmissing hnone) _
  · next v hv => exact .within hv (hbelow ▸ hread v _)

theorem optionalChild_blames {key : String} {read : (v : Json) → sizeOf v < sizeOf j → Read Tree}
    (hbelow : role.below j (.field key) = .node) (hread : ∀ v h, Blames v .node (read v h)) :
    Blames j role (optionalChild j key read) := by
  unfold optionalChild
  split
  · exact .ok _
  · exact .ok _
  · next hsome =>
      refine child_blames (fun hnone => ?_) hbelow hread
      rw [hnone] at hsome
      cases hsome

/-- Items are read one after another, each at its position. -/
theorem items_blames {key : String} {js : List Json} {index : Nat}
    {read : (v : Json) → v ∈ js → Read Tree} (hitems : j.HasItems key index js)
    (hbelow : ∀ i, role.below j (.item key i) = .node)
    (hread : ∀ v h, Blames v .node (read v h)) : Blames j role (items key index js read) := by
  induction js generalizing index with
  | nil => exact .ok _
  | cons v rest ih =>
      rw [items]
      refine (Blames.within (hitems 0) (hbelow index ▸ hread v _)).bind fun _ _ => ?_
      exact (ih hitems.tail fun w hw => hread w _).bind fun _ _ => .pure _

section Fields

variable {kind : Kind} (hrole : role.isNode) (hkind : j.kind? = some kind) {key : String}

include hrole hkind

theorem stringField_blames {shape : FieldShape} (hshape : shape.isText)
    (hfield : (key, shape) ∈ kind.format) : Blames j role (stringField j key) := by
  have hoffends := fun h =>
    Json.Offends.field hrole hkind hfield (shape.fits_eq_false_of_isText hshape h)
  unfold stringField
  split
  · next hnone => exact .malformed (hoffends (by simp [hnone])) _
  · exact .ok _
  · next v hstring hv =>
      refine .malformed (hoffends fun text h => ?_) _
      rw [hv] at h
      exact hstring text (Option.some.inj h)

theorem textField_blames (hfield : (key, .text) ∈ kind.format) :
    Blames j role (stringField j key) := stringField_blames hrole hkind rfl hfield

theorem children_blames {optional : Bool} {read : (v : Json) → sizeOf v < sizeOf j → Read Tree}
    (hfield : (key, if optional then .optionalList else .list) ∈ kind.format)
    (hbelow : ∀ i, role.below j (.item key i) = .node)
    (hread : ∀ v h, Blames v .node (read v h)) :
    Blames j role (children j key optional read) := by
  have hoffends := fun h => Json.Offends.field hrole hkind hfield h
  unfold children
  split
  · next hnone =>
      split
      · exact .ok _
      · next hrequired =>
          exact .malformed (hoffends (by simp [hrequired, hnone, FieldShape.fits])) _
  · next hnull =>
      split
      · exact .ok _
      · next hrequired =>
          exact .malformed (hoffends (by simp [hrequired, hnull, FieldShape.fits])) _
  · next js hjs => exact items_blames (.of_get? hjs) hbelow fun v _ => hread v _
  · next v hnull harray hv =>
      refine .malformed (hoffends ?_) _
      rw [hv]
      cases v with
      | null => exact absurd rfl hnull
      | array js => exact absurd rfl (harray js)
      | _ => cases optional <;> rfl

theorem binaryOperatorOf_blames (hfield : ("op", .binaryOperator) ∈ kind.format) :
    Blames j role (binaryOperatorOf j) := by
  have hoffends := fun h => Json.Offends.field hrole hkind hfield h
  unfold binaryOperatorOf
  refine (stringField_blames hrole hkind rfl hfield).bind fun name hname => ?_
  split
  · exact .pure _
  · next hunknown =>
      refine (kindOf_blames hrole).bind fun _ _ => (lineOf_blames hrole).bind fun _ _ => ?_
      refine .unsupported (hoffends ?_) _ _ _
      simp [stringField_eq_ok hname, FieldShape.fits, hunknown]

theorem compareOperatorOf_blames (hfield : ("op", .compareOperator) ∈ kind.format)
    (line : UInt32) : Blames j role (compareOperatorOf j line) := by
  have hoffends := fun h => Json.Offends.field hrole hkind hfield h
  unfold compareOperatorOf
  refine (stringField_blames hrole hkind rfl hfield).bind fun name hname => ?_
  split
  · exact .pure _
  · next hunknown =>
      refine .unsupported (hoffends ?_) _ _ _
      simp [stringField_eq_ok hname, FieldShape.fits, hunknown]

theorem constantOf_blames {value : Json} (hfield : (key, .scalar) ∈ kind.format)
    (hvalue : j.get? key = some value) (line : UInt32) :
    Blames j role (constantOf value line) := by
  have hoffends := fun h => Json.Offends.field hrole hkind hfield h
  rw [hvalue] at hoffends
  cases value with
  | null | bool | signed | string => exact .ok _
  | unsigned n =>
      rw [constantOf]
      split
      · exact .ok _
      · next hlarge => exact .malformed (hoffends (by simpa [FieldShape.fits] using hlarge)) _
  | float | array | object => exact .unsupported (hoffends rfl) _ _ _

end Fields

/-- A parameter is judged as a whole. -/
theorem paramOf_blames : Blames j .parameter (paramOf j) := by
  unfold paramOf
  split
  · exact .ok _
  · next hname =>
      split
      · exact .ok _
      · next harg =>
          exact .malformed (.parameter (fun name h => hname name h) fun name h => harg name h) _

theorem paramsFrom_blames {js : List Json} {index : Nat} (hitems : j.HasItems "args" index js)
    (hbelow : ∀ i, role.below j (.item "args" i) = .parameter) :
    Blames j role (paramsFrom index js) := by
  induction js generalizing index with
  | nil => exact .ok _
  | cons v rest ih =>
      rw [paramsFrom]
      refine (Blames.within (hitems 0) (hbelow index ▸ paramOf_blames)).bind fun _ _ => ?_
      exact (ih hitems.tail).bind fun _ _ => .pure _

theorem paramsOf_blames (hrole : role.isNode) (hkind : j.kind? = some .functionDef)
    (hbelow : ∀ i, role.below j (.item "args" i) = .parameter) : Blames j role (paramsOf j) := by
  have hfield : ("args", .list) ∈ Kind.functionDef.format := by simp [Kind.format]
  have hoffends := fun h => Json.Offends.field hrole hkind hfield h
  unfold paramsOf
  split
  · next hnone => exact .malformed (hoffends (by rw [hnone]; rfl)) _
  · next js hjs => exact paramsFrom_blames (.of_get? hjs) hbelow
  · next v harray hv =>
      refine .malformed (hoffends ?_) _
      rw [hv]
      cases v with
      | array js => exact absurd rfl (harray js)
      | _ => rfl

theorem functionOf_blames (hrole : role = .topLevel ∨ role = .node)
    (hkind : j.kind? = some .functionDef)
    {read : (v : Json) → sizeOf v < sizeOf j → Read Tree}
    (hread : ∀ v h, Blames v .node (read v h)) : Blames j role (functionOf j read) := by
  have hnode : role.isNode := by rcases hrole with rfl | rfl <;> rfl
  have hargs : ∀ i, role.below j (.item "args" i) = .parameter := by
    rcases hrole with rfl | rfl <;> simp [Role.below, hkind]
  have hbody : ∀ i, role.below j (.item "body" i) = .node := by
    rcases hrole with rfl | rfl <;> simp [Role.below, hkind]
  refine (lineOf_blames hnode).bind fun line _ => ?_
  refine (textField_blames hnode hkind (by simp [Kind.format])).bind fun name _ => ?_
  refine (paramsOf_blames hnode hkind hargs).bind fun params _ => ?_
  exact (children_blames hnode hkind (by simp [Kind.format]) hbody hread).bind
    fun body _ => .pure _

theorem calleeOf_blames (hkind : j.kind? = some .call) : Blames j .node (calleeOf j) := by
  have hfield : ("func", .present) ∈ Kind.call.format := by simp [Kind.format]
  have hbelow : Role.below .node j (.field "func") = .callee := by simp [Role.below, hkind]
  unfold calleeOf
  split
  · next hnone => exact .malformed (.field rfl hkind hfield (by rw [hnone]; rfl)) _
  · exact .ok _
  · next func _ hfunc =>
      refine .within hfunc (hbelow ▸ (kindOf_blames rfl).bind fun text htext => ?_)
      have htext' := kindOf_eq_ok htext
      split
      · next hname =>
          have hkind' : func.kind? = some .name := by
            rw [Json.kind?, htext', hname]
            rfl
          exact textField_blames rfl hkind' (by simp [Kind.format])
      · next hname =>
          refine (lineOf_blames rfl).bind fun line _ => .unsupported ?_ _ _ _
          refine .of_kind rfl htext' fun kind hof => beq_false_of_ne ?_
          rintro rfl
          exact hname (Kind.text_of_ofText? hof).symm

theorem exists_of_bind_eq_ok {α β : Type} {x : Read α} {f : α → Read β} {b : β}
    (h : x >>= f = .ok b) : ∃ a, x = .ok a ∧ f a = .ok b := by
  cases x with
  | error e => cases h
  | ok a => exact ⟨a, rfl, h⟩

/-- How many trees a list gives. -/
theorem items_length {key : String} {js : List Json} {index : Nat} {ts : List Tree}
    {read : (v : Json) → v ∈ js → Read Tree} (h : items key index js read = .ok ts) :
    ts.length = js.length := by
  induction js generalizing index ts with
  | nil =>
      cases h
      rfl
  | cons v rest ih =>
      rw [items] at h
      obtain ⟨head, -, h⟩ := exists_of_bind_eq_ok h
      obtain ⟨tail, htail, h⟩ := exists_of_bind_eq_ok h
      cases h
      rw [List.length_cons, List.length_cons, ih htail]

theorem children_eq_ok {key : String} {read : (v : Json) → sizeOf v < sizeOf j → Read Tree}
    {ts : List Tree} (h : children j key false read = .ok ts) :
    ∃ js, j.get? key = some (.array js) ∧ ts.length = js.length := by
  unfold children at h
  split at h
  · cases h
  · cases h
  · next js hjs => exact ⟨js, hjs, items_length h⟩
  · cases h

section Nodes

variable {kind : Kind} (hkind : j.kind? = some kind) {key : String}
  {read : (v : Json) → sizeOf v < sizeOf j → Read Tree} (hread : ∀ v h, Blames v .node (read v h))

include hkind hread

/-- A required child of a node is a node. -/
theorem required_blames (hfield : (key, .present) ∈ kind.format) (hkey : key ≠ "func") :
    Blames j .node (child j key read) := by
  refine child_blames (fun hnone => ?_) (by simp [Role.below, hkey]) hread
  exact .field rfl hkind hfield (by rw [hnone]; rfl)

/-- The items of a node are nodes. -/
theorem list_blames {optional : Bool}
    (hfield : (key, if optional then .optionalList else .list) ∈ kind.format)
    (hargs : kind ≠ .functionDef) : Blames j .node (children j key optional read) :=
  children_blames rfl hkind hfield (fun i => by simp [Role.below, hkind, hargs]) hread

end Nodes

/-- An error of reading a node points into the node. The recursion is on the node; each kind lists
its fields in the order in which they are read. -/
theorem node_blames (j : Json) : Blames j .node (node j) := by
  have hread : ∀ v, sizeOf v < sizeOf j → Blames v .node (node v) := fun v _ => node_blames v
  have hline : Blames j .node (lineOf j) := lineOf_blames rfl
  rw [node]
  refine (kindOf_blames rfl).bind fun text htext => ?_
  have htext' := kindOf_eq_ok htext
  have hkind : j.kind? = Kind.ofText? text := by rw [Json.kind?, htext']
  cases hof : Kind.ofText? text with
  | none => exact hline.bind fun _ _ => .unsupported (.unknownKind rfl htext' hof) _ _ _
  | some kind =>
      rw [hof] at hkind
      cases kind with
      | functionDef =>
          exact (functionOf_blames (.inr rfl) hkind hread).bind fun _ _ => .pure _
      | assign =>
          refine hline.bind fun _ _ => ?_
          refine (list_blames hkind hread (by decide) (by decide)).bind fun _ _ => ?_
          exact (required_blames hkind hread (by decide) (by decide)).bind fun _ _ => .pure _
      | augAssign =>
          refine hline.bind fun _ _ => ?_
          refine (required_blames hkind hread (by decide) (by decide)).bind fun _ _ => ?_
          refine (binaryOperatorOf_blames rfl hkind (by decide)).bind fun _ _ => ?_
          exact (required_blames hkind hread (by decide) (by decide)).bind fun _ _ => .pure _
      | ret =>
          refine hline.bind fun _ _ => ?_
          exact (optionalChild_blames (by simp [Role.below]) hread).bind fun _ _ => .pure _
      | expr =>
          refine hline.bind fun _ _ => ?_
          exact (required_blames hkind hread (by decide) (by decide)).bind fun _ _ => .pure _
      | ifElse =>
          refine hline.bind fun _ _ => ?_
          refine (required_blames hkind hread (by decide) (by decide)).bind fun _ _ => ?_
          refine (list_blames hkind hread (by decide) (by decide)).bind fun _ _ => ?_
          exact (list_blames hkind hread (by decide) (by decide)).bind fun _ _ => .pure _
      | whileLoop =>
          refine hline.bind fun _ _ => ?_
          refine (required_blames hkind hread (by decide) (by decide)).bind fun _ _ => ?_
          exact (list_blames hkind hread (by decide) (by decide)).bind fun _ _ => .pure _
      | binary =>
          refine hline.bind fun _ _ => ?_
          refine (binaryOperatorOf_blames rfl hkind (by decide)).bind fun _ _ => ?_
          refine (required_blames hkind hread (by decide) (by decide)).bind fun _ _ => ?_
          exact (required_blames hkind hread (by decide) (by decide)).bind fun _ _ => .pure _
      | compare =>
          refine hline.bind fun line _ => ?_
          refine (compareOperatorOf_blames rfl hkind (by decide) line).bind fun _ _ => ?_
          refine (required_blames hkind hread (by decide) (by decide)).bind fun _ _ => ?_
          exact (required_blames hkind hread (by decide) (by decide)).bind fun _ _ => .pure _
      | call =>
          refine hline.bind fun _ _ => (calleeOf_blames hkind).bind fun _ _ => ?_
          exact (list_blames hkind hread (by decide) (by decide)).bind fun _ _ => .pure _
      | list =>
          refine hline.bind fun _ _ => ?_
          exact (list_blames hkind hread (by decide) (by decide)).bind fun _ _ => .pure _
      | dict =>
          refine hline.bind fun _ _ => ?_
          refine (list_blames hkind hread (by decide) (by decide)).bind fun keys hkeys => ?_
          refine (list_blames hkind hread (by decide) (by decide)).bind fun values hvalues => ?_
          split
          · exact .pure _
          · next hcounts =>
              obtain ⟨ks, hks, hkeys⟩ := children_eq_ok hkeys
              obtain ⟨vs, hvs, hvalues⟩ := children_eq_ok hvalues
              rw [hkeys, hvalues] at hcounts
              exact .malformed (.counts rfl hkind hks hvs hcounts) _
      | subscript =>
          refine hline.bind fun _ _ => ?_
          refine (required_blames hkind hread (by decide) (by decide)).bind fun _ _ => ?_
          exact (required_blames hkind hread (by decide) (by decide)).bind fun _ _ => .pure _
      | «attribute» =>
          refine hline.bind fun _ _ => ?_
          refine (required_blames hkind hread (by decide) (by decide)).bind fun _ _ => ?_
          exact (textField_blames rfl hkind (by decide)).bind fun _ _ => .pure _
      | name =>
          refine hline.bind fun _ _ => ?_
          exact (textField_blames rfl hkind (by decide)).bind fun _ _ => .pure _
      | constant =>
          have hfield : ("value", .scalar) ∈ Kind.constant.format := by decide
          dsimp only
          split
          · next hnone => exact .malformed (.field rfl hkind hfield (by rw [hnone]; rfl)) _
          · next value hvalue =>
              refine hline.bind fun line _ => ?_
              exact (constantOf_blames rfl hkind hfield hvalue line).bind fun _ _ => .pure _
termination_by sizeOf j

theorem topLevel_blames (j : Json) : Blames j .topLevel (topLevel j) := by
  unfold topLevel
  refine (kindOf_blames rfl).bind fun text htext => ?_
  have htext' := kindOf_eq_ok htext
  split
  · next hfunction =>
      have hkind : j.kind? = some .functionDef := by
        rw [Json.kind?, htext', hfunction]
        rfl
      exact functionOf_blames (.inl rfl) hkind fun v _ => node_blames v
  · next hfunction =>
      refine (lineOf_blames rfl).bind fun _ _ => .unsupported ?_ _ _ _
      refine .of_kind rfl htext' fun kind hof => beq_false_of_ne ?_
      rintro rfl
      exact hfunction (Kind.text_of_ofText? hof).symm

theorem functionsFrom_blames {js : List Json} {index : Nat} (hitems : j.HasItems "body" index js) :
    Blames j .document (functionsFrom index js) := by
  induction js generalizing index with
  | nil => exact .ok _
  | cons v rest ih =>
      have hhead : Blames j .document (within (.item "body" index) (topLevel v)) :=
        .within (hitems 0) (topLevel_blames v)
      exact hhead.bind fun _ _ => (ih hitems.tail).bind fun _ _ => .pure _

end Document

theorem Json.not_offends_document (j : Json) : ¬j.Offends .document := by
  intro h
  cases h with
  | notObject hrole | noKind hrole | unknownKind hrole | line hrole | field hrole | counts hrole =>
      cases hrole
  | kind _ h => cases h

/-- Reading errors locate the offence. When a document with a list of functions is rejected, the
path of the error is not empty, it leads from the document to a value, and that value itself
breaks the format. -/
theorem read_error_located {document : Json} {functions : List Json} {e : ReadError}
    (hbody : document.get? "body" = some (.array functions))
    (hread : Document.read document = .error e) :
    e.path ≠ [] ∧ ∃ v, document.follow? e.path = some v ∧
      v.Offends (document.roleAt .document e.path) := by
  have hfunctions : Document.functionsFrom 0 functions = .error e := by
    unfold Document.read at hread
    rw [hbody] at hread
    cases document with
    | object members => exact hread
    | _ => cases hbody
  obtain ⟨v, hv, hoffends⟩ := Document.functionsFrom_blames (.of_get? hbody) e hfunctions
  refine ⟨?_, v, hv, hoffends⟩
  intro hnil
  rw [hnil] at hoffends
  exact v.not_offends_document hoffends

/-- A function that returns a call with a method call among its arguments. -/
def methodCall : Json :=
  .object [("kind", .string "FunctionDef"), ("name", .string "f"),
    ("args", .array [.object [("arg", .string "x")]]),
    ("body", .array [
      .object [("kind", .string "Return"), ("value",
        .object [("kind", .string "Call"), ("func", .string "g"),
          ("args", .array [
            .object [("kind", .string "Name"), ("id", .string "x")],
            .object [("kind", .string "Call"), ("line", .unsigned 2),
              ("func", .object [("kind", .string "Attribute"), ("line", .unsigned 2)])]])])]])]

def methodCallError : ReadError :=
  .unsupported {
    kind := "Attribute"
    path := [.item "body" 0, .item "body" 0, .field "value", .item "args" 1, .field "func"]
    reason := .indirectCall
    line := 2 }

theorem methodCall_located :
    Document.read (.object [("body", .array [methodCall])]) = .error methodCallError ∧
    methodCallError.path ≠ [] ∧
    ∃ v, (Json.object [("body", .array [methodCall])]).follow? methodCallError.path = some v ∧
      v.Offends .callee := by
  have hbody : (Json.object [("body", .array [methodCall])]).get? "body" =
      some (.array [methodCall]) := rfl
  have hread : Document.read (.object [("body", .array [methodCall])]) =
      .error methodCallError := by cbv
  have hrole : (Json.object [("body", .array [methodCall])]).roleAt .document
      methodCallError.path = .callee := by cbv
  obtain ⟨hpath, v, hv, hoffends⟩ := read_error_located hbody hread
  rw [hrole] at hoffends
  exact ⟨hread, hpath, v, hv, hoffends⟩

end Arbor
