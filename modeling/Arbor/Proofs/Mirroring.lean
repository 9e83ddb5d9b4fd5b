import Mathlib.Data.List.Forall2
import Mathlib.Tactic
import Arbor.Proofs.ErrorPaths
import Arbor.Proofs.ReadErrors

/-!
What reading keeps of a document. A tree mirrors a value if their kinds agree, the line of the
tree is the line that the value gives, and every field of the kind holds what the tree has in its
place. Documents are accepted exactly if they have a mirror, and it is the one that is read; the
one thing that gets lost is what a line has beyond 32 bits.
-/

namespace Arbor

namespace Json

/-- The number that is written, whatever its size. -/
def exactInteger? : Json → Option Int
  | .unsigned n => some n.toNat
  | .signed n => some n.toInt
  | _ => none

/-- The line that a node gives, 0 if it gives none. -/
def lineNumber? (j : Json) : Option Int :=
  match j.get? "line" with
  | none | some .null => some 0
  | some v => v.exactInteger?

def HasLine (j : Json) (line : UInt32) : Prop := j.lineNumber? = some (line.toNat : Int)

/-- The line is the number that the node gives, modulo the width of a line number. -/
def KeepsLine (j : Json) (line : UInt32) : Prop :=
  ∃ n, j.lineNumber? = some n ∧ 0 ≤ n ∧ n < 2 ^ 63 ∧ (line.toNat : Int) = n % 2 ^ 32

/-- The number that the node gives fits into a line, whichever line that is. -/
def ShortLine (j : Json) (_ : UInt32) : Prop := ∀ n, j.lineNumber? = some n → n < 2 ^ 32

/-- A parameter is a name, alone or as the `arg` of an object. -/
def IsParameter (j : Json) (name : String) : Prop :=
  j = .string name ∨ j.get? "arg" = some (.string name)

/-- A callee is a name, alone or as a name node. -/
def IsCallee (j : Json) (name : String) : Prop :=
  j = .string name ∨
    j.get? "kind" = some (.string Kind.name.text) ∧ j.get? "id" = some (.string name)

theorem sizeOf_get?_le (j : Json) (key : String) : sizeOf (j.get? key) ≤ sizeOf j := by
  cases h : j.get? key with
  | none => cases j <;> simp
  | some v =>
      have := get?_sizeOf h
      simp only [Option.some.sizeOf_spec]
      omega

theorem integer?_eq_none {j : Json} (h : j.exactInteger? = none) : j.integer? = none := by
  cases j with
  | unsigned | signed => cases h
  | _ => rfl

/-- The signed word of a number is the number, as long as 63 bits hold it. -/
theorem integer?_of_exactInteger? {j : Json} {n : Int} (h : j.exactInteger? = some n) :
    ∃ w, j.integer? = some w ∧ (w < 0 ↔ n < 0 ∨ 2 ^ 63 ≤ n) ∧ (n < 2 ^ 63 → w.toInt = n) := by
  have hzero : (0 : Int64).toInt = 0 := rfl
  cases j with
  | unsigned u =>
      obtain rfl : (u.toNat : Int) = n := Option.some.inj h
      have hword : u.toInt64.toInt = u.toBitVec.toInt := rfl
      have hnat : u.toBitVec.toNat = u.toNat := rfl
      have hlt : u.toNat < 2 ^ 64 := u.toNat_lt
      refine ⟨u.toInt64, rfl, ?_⟩
      rw [Int64.lt_iff_toInt_lt, hzero, hword, BitVec.toInt_eq_toNat_cond, hnat]
      split <;> omega
  | signed w =>
      obtain rfl : w.toInt = n := Option.some.inj h
      have hlt : w.toInt < 2 ^ 63 := w.toInt_lt
      refine ⟨w, rfl, ?_, fun _ => rfl⟩
      rw [Int64.lt_iff_toInt_lt, hzero]
      omega
  | _ => cases h

theorem hasLine_iff {j : Json} {line : UInt32} :
    j.HasLine line ↔ j.KeepsLine line ∧ j.ShortLine line := by
  have hline : line.toNat < 2 ^ 32 := line.toNat_lt
  constructor
  · intro h
    refine ⟨⟨line.toNat, h, by omega, by omega, by omega⟩, fun n hn => ?_⟩
    obtain rfl : (line.toNat : Int) = n := Option.some.inj (h.symm.trans hn)
    omega
  · rintro ⟨⟨n, hn, hnonneg, -, hkept⟩, hshort⟩
    -- a number below the modulus is its own remainder
    have hlt := hshort n hn
    rw [HasLine, hn, hkept, Int.emod_eq_of_lt hnonneg hlt]

end Json

/-- A constant is the value itself: numbers as integers, texts by their encoding. -/
def Constant.Mirrors : Constant → Json → Prop
  | .int n, j => j.exactInteger? = some n.toInt
  | .bool b, j => j = .bool b
  | .none, j => j = .null
  | .string bytes, j => ∃ text : String, j = .string text ∧ text.toUTF8.toList = bytes

/-- What a tree has in the place of a field. -/
inductive Part where
  | child (t : Tree)
  | optional (t : Tree)
  | list (ts : List Tree)
  | optionalList (ts : List Tree)
  | text (value : String)
  | params (names : List String)
  | callee (name : String)
  | constant (value : Constant)

/-- The fields of a node and what the tree has in their place. -/
def Tree.parts : Tree → List (String × Part)
  | .absent => []
  | .functionDef _ id params body =>
    [("name", .text id), ("args", .params params), ("body", .list body)]
  | .assign _ targets value => [("targets", .list targets), ("value", .child value)]
  | .augAssign _ target op value =>
    [("target", .child target), ("op", .text op.name), ("value", .child value)]
  | .ret _ value => [("value", .optional value)]
  | .expr _ value => [("value", .child value)]
  | .ifElse _ test body orelse =>
    [("test", .child test), ("body", .list body), ("orelse", .optionalList orelse)]
  | .whileLoop _ test body => [("test", .child test), ("body", .list body)]
  | .binary _ op left right =>
    [("op", .text op.name), ("left", .child left), ("right", .child right)]
  | .compare _ op left right =>
    [("op", .text op.name), ("left", .child left), ("right", .child right)]
  | .call _ callee args => [("func", .callee callee), ("args", .optionalList args)]
  | .list _ elements => [("elts", .list elements)]
  | .dict _ keys values => [("keys", .list keys), ("values", .list values)]
  | .subscript _ value index => [("value", .child value), ("index", .child index)]
  | .attribute _ value attr => [("value", .child value), ("attr", .text attr)]
  | .name _ id => [("id", .text id)]
  | .constant _ value => [("value", .constant value)]

/-- A dictionary has as many values as keys. -/
def Tree.Paired : Tree → Prop
  | .dict _ keys values => keys.length = values.length
  | _ => True

/-- The member, or the lack of one, holds the part; `R` relates trees to what they are read from. -/
inductive Part.HeldIn (R : Tree → Json → Prop) : Part → Option Json → Prop where
  | child {t : Tree} {v : Json} (h : R t v) : HeldIn R (.child t) (some v)
  | omitted {o : Option Json} (h : o = none ∨ o = some .null) : HeldIn R (.optional .absent) o
  | optional {t : Tree} {v : Json} (h : R t v) : HeldIn R (.optional t) (some v)
  | list {ts : List Tree} {js : List Json} (h : List.Forall₂ R ts js) :
      HeldIn R (.list ts) (some (.array js))
  | omittedList {o : Option Json} (h : o = none ∨ o = some .null) : HeldIn R (.optionalList []) o
  | optionalList {ts : List Tree} {js : List Json} (h : List.Forall₂ R ts js) :
      HeldIn R (.optionalList ts) (some (.array js))
  | text {value : String} : HeldIn R (.text value) (some (.string value))
  | params {names : List String} {js : List Json} (h : List.Forall₂ Json.IsParameter js names) :
      HeldIn R (.params names) (some (.array js))
  | callee {name : String} {v : Json} (h : v.IsCallee name) : HeldIn R (.callee name) (some v)
  | constant {value : Constant} {v : Json} (h : value.Mirrors v) :
      HeldIn R (.constant value) (some v)

namespace Part

variable {R : Tree → Json → Prop} {o : Option Json}

theorem heldIn_child {t : Tree} : HeldIn R (.child t) o ↔ ∃ v, o = some v ∧ R t v := by
  constructor
  · intro h
    cases h with
    | child h => exact ⟨_, rfl, h⟩
  · rintro ⟨v, rfl, h⟩
    exact .child h

theorem heldIn_optional {t : Tree} : HeldIn R (.optional t) o ↔
    t = .absent ∧ (o = none ∨ o = some .null) ∨ ∃ v, o = some v ∧ R t v := by
  constructor
  · intro h
    cases h with
    | omitted h => exact .inl ⟨rfl, h⟩
    | optional h => exact .inr ⟨_, rfl, h⟩
  · rintro (⟨rfl, h⟩ | ⟨v, rfl, h⟩)
    · exact .omitted h
    · exact .optional h

theorem heldIn_list {ts : List Tree} :
    HeldIn R (.list ts) o ↔ ∃ js, o = some (.array js) ∧ List.Forall₂ R ts js := by
  constructor
  · intro h
    cases h with
    | list h => exact ⟨_, rfl, h⟩
  · rintro ⟨js, rfl, h⟩
    exact .list h

theorem heldIn_optionalList {ts : List Tree} : HeldIn R (.optionalList ts) o ↔
    ts = [] ∧ (o = none ∨ o = some .null) ∨ ∃ js, o = some (.array js) ∧ List.Forall₂ R ts js := by
  constructor
  · intro h
    cases h with
    | omittedList h => exact .inl ⟨rfl, h⟩
    | optionalList h => exact .inr ⟨_, rfl, h⟩
  · rintro (⟨rfl, h⟩ | ⟨js, rfl, h⟩)
    · exact .omittedList h
    · exact .optionalList h

theorem heldIn_text {value : String} : HeldIn R (.text value) o ↔ o = some (.string value) := by
  constructor
  · intro h
    cases h with
    | text => rfl
  · rintro rfl
    exact .text

theorem heldIn_params {names : List String} : HeldIn R (.params names) o ↔
    ∃ js, o = some (.array js) ∧ List.Forall₂ Json.IsParameter js names := by
  constructor
  · intro h
    cases h with
    | params h => exact ⟨_, rfl, h⟩
  · rintro ⟨js, rfl, h⟩
    exact .params h

theorem heldIn_callee {name : String} :
    HeldIn R (.callee name) o ↔ ∃ v, o = some v ∧ v.IsCallee name := by
  constructor
  · intro h
    cases h with
    | callee h => exact ⟨_, rfl, h⟩
  · rintro ⟨v, rfl, h⟩
    exact .callee h

theorem heldIn_constant {value : Constant} :
    HeldIn R (.constant value) o ↔ ∃ v, o = some v ∧ value.Mirrors v := by
  constructor
  · intro h
    cases h with
    | constant h => exact ⟨_, rfl, h⟩
  · rintro ⟨v, rfl, h⟩
    exact .constant h

theorem forall₂_combine {R S T : Tree → Json → Prop} {ts : List Tree} {js : List Json}
    (h : ∀ t, ∀ v ∈ js, R t v → S t v → T t v) (hR : List.Forall₂ R ts js)
    (hS : List.Forall₂ S ts js) : List.Forall₂ T ts js := by
  rw [List.forall₂_iff_zip] at hR hS ⊢
  exact ⟨hR.1, fun hmem => h _ _ (List.of_mem_zip hmem).2 (hR.2 hmem) (hS.2 hmem)⟩

/-- What two relations say of a part is about the same values. -/
theorem HeldIn.combine {R S T : Tree → Json → Prop} {part : Part} {o : Option Json}
    (hR : part.HeldIn R o) (hS : part.HeldIn S o)
    (h : ∀ t v, sizeOf v < sizeOf o → R t v → S t v → T t v) : part.HeldIn T o := by
  have hitem : ∀ {js : List Json}, o = some (.array js) →
      ∀ t, ∀ v ∈ js, R t v → S t v → T t v := by
    rintro js rfl t v hv
    have := Json.mem_array_sizeOf hv
    exact h t v (by simp only [Option.some.sizeOf_spec]; omega)
  cases hR with
  | child hR =>
      cases hS with
      | child hS => exact .child (h _ _ (by simp) hR hS)
  | omitted ho => exact .omitted ho
  | optional hR =>
      cases hS with
      | omitted ho => exact .omitted ho
      | optional hS => exact .optional (h _ _ (by simp) hR hS)
  | list hR =>
      cases hS with
      | list hS => exact .list (forall₂_combine (hitem rfl) hR hS)
  | omittedList ho => exact .omittedList ho
  | optionalList hR =>
      cases hS with
      | omittedList ho => exact .omittedList ho
      | optionalList hS => exact .optionalList (forall₂_combine (hitem rfl) hR hS)
  | text => exact .text
  | params hnames => exact .params hnames
  | callee hname => exact .callee hname
  | constant hvalue => exact .constant hvalue

end Part

/-- The tree mirrors the value, with lines that are related to nodes by `L`. -/
inductive Tree.Mirrors (L : Json → UInt32 → Prop) : Tree → Json → Prop where
  | node {t : Tree} {kind : Kind} {j : Json} (hkind : t.kind? = some kind)
      (htext : j.get? "kind" = some (.string kind.text)) (hline : L j t.line) (hpaired : t.Paired)
      (hfields : ∀ field ∈ t.parts, Part.HeldIn (Mirrors L) field.2 (j.get? field.1)) :
      Mirrors L t j

/-- The functions mirror the items of the document's body. -/
def Source.Mirrors (L : Json → UInt32 → Prop) (s : Source) (document : Json) : Prop :=
  ∃ js, document.get? "body" = some (.array js) ∧
    List.Forall₂ (fun entry j => ∃ fn : FunctionDef, entry = some fn ∧ fn.tree.Mirrors L j) s js

section Lines

variable {L M N : Json → UInt32 → Prop} (h : ∀ j line, L j line → M j line → N j line)

include h

theorem Tree.Mirrors.combine {t : Tree} {j : Json} (hL : t.Mirrors L j) (hM : t.Mirrors M j) :
    t.Mirrors N j := by
  obtain ⟨hkind, htext, hline, hpaired, hfields⟩ := hL
  obtain ⟨-, -, hline', -, hfields'⟩ := hM
  refine .node hkind htext (h _ _ hline hline') hpaired fun field hfield => ?_
  refine (hfields field hfield).combine (hfields' field hfield) fun u v hsize hL hM => ?_
  -- what a member holds is smaller than the value
  have := hsize.trans_le (j.sizeOf_get?_le field.1)
  exact combine hL hM
termination_by sizeOf j

theorem Source.Mirrors.combine {s : Source} {d : Json} (hL : s.Mirrors L d) (hM : s.Mirrors M d) :
    s.Mirrors N d := by
  obtain ⟨js, hjs, hL⟩ := hL
  obtain ⟨js', hjs', hM⟩ := hM
  obtain rfl : js = js' := by simpa [hjs] using hjs'
  refine ⟨js, hjs, hL.mp ?_ hM⟩
  rintro entry j ⟨fn, rfl, hL⟩ ⟨fn', hfn', hM⟩
  obtain rfl := Option.some.inj hfn'
  exact ⟨fn, rfl, hL.combine h hM⟩

end Lines

theorem Source.mirrors_hasLine_iff {s : Source} {d : Json} : s.Mirrors Json.HasLine d ↔
    s.Mirrors Json.KeepsLine d ∧ s.Mirrors Json.ShortLine d := by
  constructor
  · intro h
    exact ⟨h.combine (fun _ _ hline _ => (Json.hasLine_iff.mp hline).1) h,
      h.combine (fun _ _ hline _ => (Json.hasLine_iff.mp hline).2) h⟩
  · rintro ⟨hkept, hshort⟩
    exact hkept.combine (fun _ _ hkept hshort => Json.hasLine_iff.mpr ⟨hkept, hshort⟩) hshort

namespace Document

variable {j : Json} {key : String}

theorem bind_eq_ok_iff {α β : Type} {x : Read α} {f : α → Read β} {b : β} :
    x >>= f = .ok b ↔ ∃ a, x = .ok a ∧ f a = .ok b := by
  refine ⟨exists_of_bind_eq_ok, ?_⟩
  rintro ⟨a, rfl, h⟩
  exact h

theorem within_eq_ok_iff {α : Type} {segment : Segment} {x : Read α} {a : α} :
    within segment x = .ok a ↔ x = .ok a := by
  cases x <;> simp [within]

theorem kindOf_eq_ok_iff {text : String} :
    kindOf j = .ok text ↔ j.get? "kind" = some (.string text) := by
  refine ⟨kindOf_eq_ok, fun h => ?_⟩
  cases j with
  | object members => rw [kindOf, h]
  | _ => cases h

theorem stringField_eq_ok_iff {text : String} :
    stringField j key = .ok text ↔ j.get? key = some (.string text) :=
  ⟨stringField_eq_ok, stringField_of_get?⟩

/-- The low bits of a word that is not negative. -/
theorem toNat_low {w : Int64} (h : ¬w < 0) :
    (w.toUInt64.toUInt32.toNat : Int) = w.toInt % 2 ^ 32 := by
  have hzero : (0 : Int64).toInt = 0 := rfl
  have hword : w.toInt = w.toUInt64.toBitVec.toInt := rfl
  have hnat : w.toUInt64.toBitVec.toNat = w.toUInt64.toNat := rfl
  have hlt : w.toUInt64.toNat < 2 ^ 64 := w.toUInt64.toNat_lt
  rw [Int64.lt_iff_toInt_lt, hzero, hword, BitVec.toInt_eq_toNat_cond, hnat] at h
  rw [UInt64.toNat_toUInt32, hword, BitVec.toInt_eq_toNat_cond, hnat]
  split <;> split at h <;> omega

/-- Lines up to 63 bits are accepted, and 32 bits of them are kept. -/
theorem lineOf_eq_ok_iff {line : UInt32} : lineOf j = .ok line ↔ j.KeepsLine line := by
  have hzero : (.ok 0 : Read UInt32) = .ok line ↔
      ∃ n : Int, some 0 = some n ∧ 0 ≤ n ∧ n < 2 ^ 63 ∧ (line.toNat : Int) = n % 2 ^ 32 := by
    rw [Except.ok.injEq, ← UInt32.toNat_inj, eq_comm]
    simp
  unfold lineOf Json.KeepsLine Json.lineNumber?
  cases hline : j.get? "line" with
  | none => exact hzero
  | some v =>
      by_cases hnull : v = .null
      · subst hnull
        exact hzero
      simp only
      cases hnumber : v.exactInteger? with
      | none =>
          rw [Json.integer?_eq_none hnumber]
          simp [malformed]
      | some n =>
          obtain ⟨w, hw, hsign, hword⟩ := Json.integer?_of_exactInteger? hnumber
          rw [hw]
          simp only [Option.some.injEq, exists_eq_left']
          split
          · next hneg =>
              have hn := hsign.mp hneg
              simp only [malformed, reduceCtorEq, false_iff]
              omega
          · next hneg =>
              have hlow := toNat_low hneg
              rw [hsign] at hneg
              rw [hword (by omega)] at hlow
              rw [Except.ok.injEq, ← UInt32.toNat_inj]
              omega

theorem constantOf_eq_ok_iff {value : Json} {line : UInt32} {c : Constant} :
    constantOf value line = .ok c ↔ c.Mirrors value := by
  cases value with
  | null | bool | float | array | object | string =>
      cases c <;> simp [constantOf, Constant.Mirrors, Json.exactInteger?, unsupported, eq_comm]
  | signed n =>
      cases c <;> simp [constantOf, Constant.Mirrors, Json.exactInteger?, Int64.toInt_inj]
  | unsigned u =>
      obtain ⟨w, hw, hsign, hword⟩ := Json.integer?_of_exactInteger? (j := .unsigned u) rfl
      obtain rfl : u.toInt64 = w := Option.some.inj hw
      have hhalf : (0x8000000000000000 : UInt64).toNat = 2 ^ 63 := rfl
      rw [constantOf]
      split
      · next hlt =>
          rw [UInt64.lt_iff_toNat_lt, hhalf] at hlt
          cases c <;>
            simp [Constant.Mirrors, Json.exactInteger?, ← Int64.toInt_inj, hword (by omega)]
      · next hlt =>
          rw [UInt64.lt_iff_toNat_lt, hhalf] at hlt
          cases c with
          | int m =>
              have hupper : m.toInt < 2 ^ 63 := m.toInt_lt
              simp only [malformed, Constant.Mirrors, Json.exactInteger?, reduceCtorEq, false_iff,
                Option.some.injEq]
              omega
          | _ => simp [malformed, Constant.Mirrors]

theorem paramOf_eq_ok_iff {name : String} : paramOf j = .ok name ↔ j.IsParameter name := by
  unfold paramOf
  split
  · simp [Json.IsParameter, Json.get?]
  · next hstring =>
      have hne : ¬j = .string name := fun h => hstring name h
      split <;> simp_all [Json.IsParameter, malformed]

theorem paramsFrom_eq_ok_iff {index : Nat} {js : List Json} {names : List String} :
    paramsFrom index js = .ok names ↔ List.Forall₂ Json.IsParameter js names := by
  induction js generalizing index names with
  | nil => simp [paramsFrom, eq_comm]
  | cons v rest ih =>
      simp only [paramsFrom, bind_eq_ok_iff, within_eq_ok_iff, paramOf_eq_ok_iff, ih,
        List.forall₂_cons_left_iff]
      simp [pure, Except.pure, eq_comm]

theorem not_mirrors_null (t : Tree) : ¬t.Mirrors Json.KeepsLine .null := by
  rintro ⟨-, htext, -⟩
  cases htext

section Fields

theorem textField_eq_ok_iff {text : String} :
    stringField j key = .ok text ↔
      (Part.text text).HeldIn (Tree.Mirrors Json.KeepsLine) (j.get? key) := by
  rw [stringField_eq_ok_iff, Part.heldIn_text]

theorem paramsOf_eq_ok_iff {names : List String} :
    paramsOf j = .ok names ↔
      (Part.params names).HeldIn (Tree.Mirrors Json.KeepsLine) (j.get? "args") := by
  rw [Part.heldIn_params]
  unfold paramsOf
  split
  · next hnone => simp [hnone, malformed]
  · next js hjs => simp [hjs, paramsFrom_eq_ok_iff]
  · next v harray hv =>
      simp only [malformed, reduceCtorEq, false_iff, hv, Option.some.injEq, not_exists, not_and]
      exact fun js hjs => (harray js hjs).elim

theorem calleeOf_eq_ok_iff {name : String} :
    calleeOf j = .ok name ↔
      (Part.callee name).HeldIn (Tree.Mirrors Json.KeepsLine) (j.get? "func") := by
  rw [Part.heldIn_callee]
  unfold calleeOf
  split
  · next hnone => simp [hnone, malformed]
  · next text htext =>
      have hmember : ∀ member, (Json.string text).get? member = none := fun _ => rfl
      simp [htext, Json.IsCallee, hmember]
  · next func hstring hfunc =>
      have hne : ¬func = .string name := hstring name
      simp only [hfunc, Option.some.injEq, exists_eq_left', Json.IsCallee, hne, false_or,
        within_eq_ok_iff, bind_eq_ok_iff, kindOf_eq_ok_iff]
      constructor
      · rintro ⟨kind, hkind, h⟩
        split at h
        · next hname => exact ⟨hname ▸ hkind, stringField_eq_ok h⟩
        · obtain ⟨line, -, h⟩ := exists_of_bind_eq_ok h
          cases h
      · rintro ⟨hkind, hid⟩
        exact ⟨_, hkind, by rw [if_pos rfl, stringField_of_get? hid]⟩

theorem binaryOperatorOf_eq_ok_iff {op : BinaryOperator} :
    binaryOperatorOf j = .ok op ↔
      (Part.text op.name).HeldIn (Tree.Mirrors Json.KeepsLine) (j.get? "op") := by
  rw [Part.heldIn_text]
  refine ⟨fun h => ?_, binaryOperatorOf_of_get? op⟩
  obtain ⟨name, hname, h⟩ := exists_of_bind_eq_ok h
  split at h
  · next found hfound =>
      cases h
      rw [stringField_eq_ok hname, show op.name = name by simpa using List.find?_some hfound]
  · obtain ⟨kind, -, h⟩ := exists_of_bind_eq_ok h
    obtain ⟨line, -, h⟩ := exists_of_bind_eq_ok h
    cases h

theorem compareOperatorOf_eq_ok_iff {op : CompareOperator} {line : UInt32} :
    compareOperatorOf j line = .ok op ↔
      (Part.text op.name).HeldIn (Tree.Mirrors Json.KeepsLine) (j.get? "op") := by
  rw [Part.heldIn_text]
  refine ⟨fun h => ?_, compareOperatorOf_of_get? op line⟩
  obtain ⟨name, hname, h⟩ := exists_of_bind_eq_ok h
  split at h
  · next found hfound =>
      cases h
      rw [stringField_eq_ok hname, show op.name = name by simpa using List.find?_some hfound]
  · cases h

theorem items_eq_ok_iff {js : List Json} {index : Nat} {read : (v : Json) → v ∈ js → Read Tree}
    (hread : ∀ v h t, read v h = .ok t ↔ t.Mirrors Json.KeepsLine v) {ts : List Tree} :
    items key index js read = .ok ts ↔ List.Forall₂ (Tree.Mirrors Json.KeepsLine) ts js := by
  induction js generalizing index ts with
  | nil => simp [items, eq_comm]
  | cons v rest ih =>
      have htail := @ih (index + 1) (fun w hw => read w (List.mem_cons_of_mem v hw))
        fun w hw => hread w _
      simp only [items, bind_eq_ok_iff, within_eq_ok_iff, hread, htail,
        List.forall₂_cons_right_iff]
      simp [pure, Except.pure, eq_comm]

variable {read : (v : Json) → sizeOf v < sizeOf j → Read Tree}
  (hread : ∀ v h t, read v h = .ok t ↔ t.Mirrors Json.KeepsLine v)

include hread

theorem child_eq_ok_iff {t : Tree} :
    child j key read = .ok t ↔
      (Part.child t).HeldIn (Tree.Mirrors Json.KeepsLine) (j.get? key) := by
  rw [Part.heldIn_child]
  unfold child
  split
  · next hnone => simp [hnone, malformed]
  · next v hv => simp [hv, within_eq_ok_iff, hread]

theorem optionalChild_eq_ok_iff {t : Tree} :
    optionalChild j key read = .ok t ↔
      (Part.optional t).HeldIn (Tree.Mirrors Json.KeepsLine) (j.get? key) := by
  rw [Part.heldIn_optional]
  unfold optionalChild
  split
  · next hnone => simp [hnone, eq_comm]
  · next hv => simp [hv, not_mirrors_null, eq_comm]
  · next v hne hv =>
      have hne : ¬v = .null := hne
      rw [child_eq_ok_iff hread, Part.heldIn_child]
      simp [hv, hne]

theorem children_eq_ok_iff {ts : List Tree} :
    children j key false read = .ok ts ↔
      (Part.list ts).HeldIn (Tree.Mirrors Json.KeepsLine) (j.get? key) := by
  rw [Part.heldIn_list]
  unfold children
  split
  · next hnone => simp [hnone, malformed]
  · next hnull => simp [hnull, malformed]
  · next js hjs => simp [hjs, items_eq_ok_iff fun v h => hread v _]
  · next v _ harray hv =>
      simp only [malformed, reduceCtorEq, false_iff, hv, Option.some.injEq, not_exists, not_and]
      exact fun js hjs => (harray js hjs).elim

theorem optionalChildren_eq_ok_iff {ts : List Tree} :
    children j key true read = .ok ts ↔
      (Part.optionalList ts).HeldIn (Tree.Mirrors Json.KeepsLine) (j.get? key) := by
  rw [Part.heldIn_optionalList]
  unfold children
  split
  · next hnone => simp [hnone, eq_comm]
  · next hnull => simp [hnull, eq_comm]
  · next js hjs => simp [hjs, items_eq_ok_iff fun v h => hread v _]
  · next v hnull harray hv =>
      have hnull : ¬v = .null := hnull
      simp only [malformed, reduceCtorEq, false_iff, hv, Option.some.injEq, hnull, or_self,
        and_false, false_or, not_exists, not_and]
      exact fun js hjs => (harray js hjs).elim

theorem functionOf_eq_ok_iff {fn : FunctionDef} :
    functionOf j read = .ok fn ↔ j.KeepsLine fn.line ∧
      ∀ field ∈ fn.tree.parts, field.2.HeldIn (Tree.Mirrors Json.KeepsLine) (j.get? field.1) := by
  simp only [FunctionDef.tree, Tree.parts, List.forall_mem_cons, List.not_mem_nil, false_implies,
    implies_true, and_true]
  rw [← lineOf_eq_ok_iff, ← textField_eq_ok_iff, ← paramsOf_eq_ok_iff,
    ← children_eq_ok_iff hread]
  simp only [functionOf, bind_eq_ok_iff]
  constructor
  · rintro ⟨line, hline, name, hname, params, hparams, body, hbody, h⟩
    cases h
    exact ⟨hline, hname, hparams, hbody⟩
  · rintro ⟨hline, hname, hparams, hbody⟩
    exact ⟨_, hline, _, hname, _, hparams, _, hbody, rfl⟩

end Fields

section Nodes

variable (hread : ∀ v, sizeOf v < sizeOf j → ∀ t, node v = .ok t ↔ t.Mirrors Json.KeepsLine v)

include hread

/-- A tree that was read mirrors its node if the trees below do. Fields are read in the order in
which the cases name them. -/
theorem mirrors_of_node {t : Tree} (h : node j = .ok t) : t.Mirrors Json.KeepsLine j := by
  rw [node] at h
  obtain ⟨text, htext, h⟩ := exists_of_bind_eq_ok h
  have htext := kindOf_eq_ok htext
  cases hof : Kind.ofText? text with
  | none =>
      rw [hof] at h
      obtain ⟨line, -, h⟩ := exists_of_bind_eq_ok h
      cases h
  | some kind =>
  obtain rfl := Kind.text_of_ofText? hof
  rw [hof] at h
  cases kind <;> simp only [bind_eq_ok_iff, lineOf_eq_ok_iff, child_eq_ok_iff hread,
    optionalChild_eq_ok_iff hread, children_eq_ok_iff hread,
    optionalChildren_eq_ok_iff hread, textField_eq_ok_iff, calleeOf_eq_ok_iff,
    binaryOperatorOf_eq_ok_iff, compareOperatorOf_eq_ok_iff] at h
  case functionDef =>
      obtain ⟨fn, hfn, ⟨⟩⟩ := h
      obtain ⟨hline, hfields⟩ := (functionOf_eq_ok_iff hread).mp hfn
      exact .node rfl htext hline trivial hfields
  case assign =>
      obtain ⟨line, hline, targets, htargets, value, hvalue, ⟨⟩⟩ := h
      exact .node rfl htext hline trivial (by simpa [Tree.parts] using ⟨htargets, hvalue⟩)
  case augAssign =>
      obtain ⟨line, hline, target, htarget, op, hop, value, hvalue, ⟨⟩⟩ := h
      exact .node rfl htext hline trivial (by simpa [Tree.parts] using ⟨htarget, hop, hvalue⟩)
  case ret =>
      obtain ⟨line, hline, value, hvalue, ⟨⟩⟩ := h
      exact .node rfl htext hline trivial (by simpa [Tree.parts] using hvalue)
  case expr =>
      obtain ⟨line, hline, value, hvalue, ⟨⟩⟩ := h
      exact .node rfl htext hline trivial (by simpa [Tree.parts] using hvalue)
  case ifElse =>
      obtain ⟨line, hline, test, htest, body, hbody, orelse, horelse, ⟨⟩⟩ := h
      exact .node rfl htext hline trivial (by simpa [Tree.parts] using ⟨htest, hbody, horelse⟩)
  case whileLoop =>
      obtain ⟨line, hline, test, htest, body, hbody, ⟨⟩⟩ := h
      exact .node rfl htext hline trivial (by simpa [Tree.parts] using ⟨htest, hbody⟩)
  case binary =>
      obtain ⟨line, hline, op, hop, left, hleft, right, hright, ⟨⟩⟩ := h
      exact .node rfl htext hline trivial (by simpa [Tree.parts] using ⟨hop, hleft, hright⟩)
  case compare =>
      obtain ⟨line, hline, op, hop, left, hleft, right, hright, ⟨⟩⟩ := h
      exact .node rfl htext hline trivial (by simpa [Tree.parts] using ⟨hop, hleft, hright⟩)
  case call =>
      obtain ⟨line, hline, callee, hcallee, args, hargs, ⟨⟩⟩ := h
      exact .node rfl htext hline trivial (by simpa [Tree.parts] using ⟨hcallee, hargs⟩)
  case list =>
      obtain ⟨line, hline, elements, helements, ⟨⟩⟩ := h
      exact .node rfl htext hline trivial (by simpa [Tree.parts] using helements)
  case dict =>
      obtain ⟨line, hline, keys, hkeys, values, hvalues, h⟩ := h
      split at h
      · next hlength =>
          cases h
          exact .node rfl htext hline hlength (by simpa [Tree.parts] using ⟨hkeys, hvalues⟩)
      · cases h
  case subscript =>
      obtain ⟨line, hline, value, hvalue, index, hindex, ⟨⟩⟩ := h
      exact .node rfl htext hline trivial (by simpa [Tree.parts] using ⟨hvalue, hindex⟩)
  case «attribute» =>
      obtain ⟨line, hline, value, hvalue, attr, hattr, ⟨⟩⟩ := h
      exact .node rfl htext hline trivial (by simpa [Tree.parts] using ⟨hvalue, hattr⟩)
  case name =>
      obtain ⟨line, hline, id, hid, ⟨⟩⟩ := h
      exact .node rfl htext hline trivial (by simpa [Tree.parts] using hid)
  case constant =>
      split at h
      · cases h
      · next v hv =>
          simp only [bind_eq_ok_iff, lineOf_eq_ok_iff, constantOf_eq_ok_iff] at h
          obtain ⟨line, hline, value, hvalue, ⟨⟩⟩ := h
          refine .node rfl htext hline trivial ?_
          simpa [Tree.parts, Part.heldIn_constant, hv] using hvalue

/-- A node with a mirror is read as that mirror if the nodes below are. -/
theorem node_of_mirrors {t : Tree} (h : t.Mirrors Json.KeepsLine j) : node j = .ok t := by
  obtain ⟨hkind, htext, hline, hpaired, hfields⟩ := h
  rw [node, kindOf_eq_ok_iff.mpr htext, ok_bind, ofText?_text]
  cases t <;> cases hkind
  case functionDef line id params body =>
      have hfn : functionOf j (fun v _ => node v) = .ok ⟨id, params, body, line⟩ :=
        (functionOf_eq_ok_iff hread).mpr ⟨hline, hfields⟩
      simp only [hfn, ok_bind]
      rfl
  case constant line value =>
      simp only [Tree.parts, List.forall_mem_cons, Part.heldIn_constant] at hfields
      obtain ⟨⟨v, hv, hvalue⟩, -⟩ := hfields
      simp only [hv, bind_eq_ok_iff, lineOf_eq_ok_iff, constantOf_eq_ok_iff]
      exact ⟨line, hline, value, hvalue, rfl⟩
  all_goals
    simp only [Tree.parts, List.forall_mem_cons] at hfields
    simp only [bind_eq_ok_iff, lineOf_eq_ok_iff, child_eq_ok_iff hread,
      optionalChild_eq_ok_iff hread, children_eq_ok_iff hread,
      optionalChildren_eq_ok_iff hread, textField_eq_ok_iff, calleeOf_eq_ok_iff,
      binaryOperatorOf_eq_ok_iff, compareOperatorOf_eq_ok_iff]
  case assign line targets value =>
      obtain ⟨htargets, hvalue, -⟩ := hfields
      exact ⟨line, hline, targets, htargets, value, hvalue, rfl⟩
  case augAssign line target op value =>
      obtain ⟨htarget, hop, hvalue, -⟩ := hfields
      exact ⟨line, hline, target, htarget, op, hop, value, hvalue, rfl⟩
  case ret line value =>
      obtain ⟨hvalue, -⟩ := hfields
      exact ⟨line, hline, value, hvalue, rfl⟩
  case expr line value =>
      obtain ⟨hvalue, -⟩ := hfields
      exact ⟨line, hline, value, hvalue, rfl⟩
  case ifElse line test body orelse =>
      obtain ⟨htest, hbody, horelse, -⟩ := hfields
      exact ⟨line, hline, test, htest, body, hbody, orelse, horelse, rfl⟩
  case whileLoop line test body =>
      obtain ⟨htest, hbody, -⟩ := hfields
      exact ⟨line, hline, test, htest, body, hbody, rfl⟩
  case binary line op left right =>
      obtain ⟨hop, hleft, hright, -⟩ := hfields
      exact ⟨line, hline, op, hop, left, hleft, right, hright, rfl⟩
  case compare line op left right =>
      obtain ⟨hop, hleft, hright, -⟩ := hfields
      exact ⟨line, hline, op, hop, left, hleft, right, hright, rfl⟩
  case call line callee args =>
      obtain ⟨hcallee, hargs, -⟩ := hfields
      exact ⟨line, hline, callee, hcallee, args, hargs, rfl⟩
  case list line elements =>
      obtain ⟨helements, -⟩ := hfields
      exact ⟨line, hline, elements, helements, rfl⟩
  case dict line keys values =>
      obtain ⟨hkeys, hvalues, -⟩ := hfields
      exact ⟨line, hline, keys, hkeys, values, hvalues, if_pos hpaired⟩
  case subscript line value index =>
      obtain ⟨hvalue, hindex, -⟩ := hfields
      exact ⟨line, hline, value, hvalue, index, hindex, rfl⟩
  case «attribute» line value attr =>
      obtain ⟨hvalue, hattr, -⟩ := hfields
      exact ⟨line, hline, value, hvalue, attr, hattr, rfl⟩
  case name line id =>
      obtain ⟨hid, -⟩ := hfields
      exact ⟨line, hline, id, hid, rfl⟩

end Nodes

theorem node_eq_ok_iff (j : Json) (t : Tree) : node j = .ok t ↔ t.Mirrors Json.KeepsLine j := by
  have hread : ∀ v, sizeOf v < sizeOf j → ∀ t, node v = .ok t ↔ t.Mirrors Json.KeepsLine v :=
    fun v _ t => node_eq_ok_iff v t
  exact ⟨mirrors_of_node hread, node_of_mirrors hread⟩
termination_by sizeOf j

theorem topLevel_eq_ok_iff {fn : FunctionDef} :
    topLevel j = .ok fn ↔ fn.tree.Mirrors Json.KeepsLine j := by
  have hread : ∀ v (_ : sizeOf v < sizeOf j) t, node v = .ok t ↔ t.Mirrors Json.KeepsLine v :=
    fun v _ t => node_eq_ok_iff v t
  simp only [topLevel, bind_eq_ok_iff, kindOf_eq_ok_iff]
  constructor
  · rintro ⟨kind, hkind, h⟩
    split at h
    · next hfunction =>
        obtain ⟨hline, hfields⟩ := (functionOf_eq_ok_iff hread).mp h
        exact .node rfl (hfunction ▸ hkind) hline trivial hfields
    · obtain ⟨line, -, h⟩ := exists_of_bind_eq_ok h
      cases h
  · rintro ⟨⟨⟩, htext, hline, -, hfields⟩
    exact ⟨_, htext, by rw [if_pos rfl, functionOf_eq_ok_iff hread]; exact ⟨hline, hfields⟩⟩

theorem functionsFrom_eq_ok_iff {index : Nat} {js : List Json} {s : Source} :
    functionsFrom index js = .ok s ↔ List.Forall₂
      (fun entry j => ∃ fn : FunctionDef, entry = some fn ∧ fn.tree.Mirrors Json.KeepsLine j)
      s js := by
  induction js generalizing index s with
  | nil => simp [functionsFrom, eq_comm]
  | cons v rest ih =>
      simp only [functionsFrom, bind_eq_ok_iff, within_eq_ok_iff, topLevel_eq_ok_iff, ih,
        List.forall₂_cons_right_iff]
      constructor
      · rintro ⟨fn, hfn, tail, htail, ⟨⟩⟩
        exact ⟨_, _, ⟨fn, rfl, hfn⟩, htail, rfl⟩
      · rintro ⟨_, tail, ⟨fn, rfl, hfn⟩, htail, rfl⟩
        exact ⟨fn, hfn, tail, htail, rfl⟩

theorem read_eq_ok_iff {d : Json} {s : Source} :
    read d = .ok s ↔ s.Mirrors Json.KeepsLine d := by
  unfold read Source.Mirrors
  split
  · split
    · next js hjs => simp [hjs, functionsFrom_eq_ok_iff]
    · next harray =>
        simp only [malformed, reduceCtorEq, false_iff]
        rintro ⟨js, hjs, -⟩
        exact harray js hjs
  · next hobject =>
      simp only [malformed, reduceCtorEq, false_iff]
      rintro ⟨js, hjs, -⟩
      cases d with
      | object members => exact hobject members rfl
      | _ => cases hjs

/-- A document is accepted exactly if it has a mirror with lines of 63 bits kept modulo the width of
a line number, and that mirror is what is read. It mirrors the document to the last line exactly if
no line of a node that is read takes more than 32 bits. -/
theorem read_iff_mirrors (d : Json) (s : Source) :
    (read d = .ok s ↔ s.Mirrors Json.KeepsLine d) ∧
      (s.Mirrors Json.HasLine d ↔ read d = .ok s ∧ s.Mirrors Json.ShortLine d) := by
  rw [Source.mirrors_hasLine_iff, read_eq_ok_iff]
  exact ⟨Iff.rfl, Iff.rfl⟩

/-- A function on a line that takes 33 bits. -/
def farLine : Json :=
  .object [("body", .array [.object [("kind", .string "FunctionDef"),
    ("line", .unsigned 0x100000001), ("name", .string "f"), ("args", .array []),
    ("body", .array [])]])]

/-- The document is accepted with the function on line 1, and nothing mirrors it to the line. -/
theorem farLine_wraps :
    read farLine = .ok [some ⟨"f", [], [], 1⟩] ∧ ∀ s : Source, ¬s.Mirrors Json.HasLine farLine := by
  refine ⟨rfl, ?_⟩
  rintro s ⟨js, ⟨⟩, hs⟩
  cases hs with
  | cons hentry _ =>
      obtain ⟨fn, -, -, -, hline, -⟩ := hentry
      have hlt : fn.line.toNat < 2 ^ 32 := fn.line.toNat_lt
      have hnumber : (0x100000001 : Int) = fn.line.toNat := Option.some.inj hline
      omega

end Document

end Arbor
