import Mathlib.Tactic
import Arbor.Syntax.Document

/-!
Documents written from syntax trees. Every node becomes an object with its kind, its
line and the fields of its kind; a missing return value is left out. Reading such a
document gives back the functions it was written from.
-/

namespace Arbor

/-- The text with the given encoding, if it has one. -/
def textOf (bytes : Bytes) : String := (String.fromUTF8? ⟨bytes.toArray⟩).getD ""

namespace Constant

/-- Documents hold texts, so a string constant must be the encoding of one. -/
def IsText : Constant → Prop
  | .string bytes => ∃ text : String, text.toUTF8.toList = bytes
  | _ => True

/-- An integer is written by its sign. -/
def encode : Constant → Json
  | .int n => if n < 0 then .signed n else .unsigned n.toUInt64
  | .bool b => .bool b
  | .none => .null
  | .string bytes => .string (textOf bytes)

end Constant

namespace Document

/-- A node of a kind: its fields follow the kind and the line. -/
def nodeObject (kind : Kind) (line : UInt32) (fields : List (String × Json)) : Json :=
  .object (("kind", .string kind.text) :: ("line", .unsigned line.toUInt64) :: fields)

mutual

def encodeTree : Tree → Json
  | .absent => .null
  | .functionDef line name params body =>
    nodeObject .functionDef line [("name", .string name), ("args", .array (params.map .string)),
      ("body", .array (encodeTrees body))]
  | .assign line targets value =>
    nodeObject .assign line [("targets", .array (encodeTrees targets)), ("value", encodeTree value)]
  | .augAssign line target op value =>
    nodeObject .augAssign line [("target", encodeTree target), ("op", .string op.name),
      ("value", encodeTree value)]
  | .ret line .absent => nodeObject .ret line []
  | .ret line value => nodeObject .ret line [("value", encodeTree value)]
  | .expr line value => nodeObject .expr line [("value", encodeTree value)]
  | .ifElse line test body orelse =>
    nodeObject .ifElse line [("test", encodeTree test), ("body", .array (encodeTrees body)),
      ("orelse", .array (encodeTrees orelse))]
  | .whileLoop line test body =>
    nodeObject .whileLoop line [("test", encodeTree test), ("body", .array (encodeTrees body))]
  | .binary line op left right =>
    nodeObject .binary line [("op", .string op.name), ("left", encodeTree left),
      ("right", encodeTree right)]
  | .compare line op left right =>
    nodeObject .compare line [("op", .string op.name), ("left", encodeTree left),
      ("right", encodeTree right)]
  | .call line callee args =>
    nodeObject .call line [("func", .string callee), ("args", .array (encodeTrees args))]
  | .list line elements => nodeObject .list line [("elts", .array (encodeTrees elements))]
  | .dict line keys values =>
    nodeObject .dict line [("keys", .array (encodeTrees keys)),
      ("values", .array (encodeTrees values))]
  | .subscript line value index =>
    nodeObject .subscript line [("value", encodeTree value), ("index", encodeTree index)]
  | .attribute line value attr =>
    nodeObject .attribute line [("value", encodeTree value), ("attr", .string attr)]
  | .name line id => nodeObject .name line [("id", .string id)]
  | .constant line value => nodeObject .constant line [("value", value.encode)]

def encodeTrees : List Tree → List Json
  | [] => []
  | t :: rest => encodeTree t :: encodeTrees rest

end

def encodeFunction (fn : FunctionDef) : Json :=
  encodeTree (.functionDef fn.line fn.name fn.params fn.body)

/-- The document that lists the functions. -/
def encode (fns : List FunctionDef) : Json := .object [("body", .array (fns.map encodeFunction))]

end Document

/-- Trees without a missing child other than a return value, with as many values as
keys in every dictionary and with texts for string constants. Any kind of node may
stand anywhere. -/
inductive Tree.Complete : Tree → Prop where
  | functionDef {line name params body} (hbody : ∀ t ∈ body, Complete t) :
      Complete (.functionDef line name params body)
  | assign {line targets value} (htargets : ∀ t ∈ targets, Complete t) (hvalue : Complete value) :
      Complete (.assign line targets value)
  | augAssign {line target op value} (htarget : Complete target) (hvalue : Complete value) :
      Complete (.augAssign line target op value)
  | bareReturn {line} : Complete (.ret line .absent)
  | ret {line value} (hvalue : Complete value) : Complete (.ret line value)
  | expr {line value} (hvalue : Complete value) : Complete (.expr line value)
  | ifElse {line test body orelse} (htest : Complete test) (hbody : ∀ t ∈ body, Complete t)
      (horelse : ∀ t ∈ orelse, Complete t) : Complete (.ifElse line test body orelse)
  | whileLoop {line test body} (htest : Complete test) (hbody : ∀ t ∈ body, Complete t) :
      Complete (.whileLoop line test body)
  | binary {line op left right} (hleft : Complete left) (hright : Complete right) :
      Complete (.binary line op left right)
  | compare {line op left right} (hleft : Complete left) (hright : Complete right) :
      Complete (.compare line op left right)
  | call {line callee args} (hargs : ∀ t ∈ args, Complete t) : Complete (.call line callee args)
  | list {line elements} (helements : ∀ t ∈ elements, Complete t) : Complete (.list line elements)
  | dict {line keys values} (hlength : keys.length = values.length)
      (hkeys : ∀ t ∈ keys, Complete t) (hvalues : ∀ t ∈ values, Complete t) :
      Complete (.dict line keys values)
  | subscript {line value index} (hvalue : Complete value) (hindex : Complete index) :
      Complete (.subscript line value index)
  | member {line value attr} (hvalue : Complete value) : Complete (.attribute line value attr)
  | name {line id} : Complete (.name line id)
  | constant {line value} (hvalue : value.IsText) : Complete (.constant line value)

theorem toInt64_neg_iff (u : UInt64) : u.toInt64 < 0 ↔ 0x8000000000000000 ≤ u := by
  have hvalue : u.toInt64.toInt = u.toBitVec.toInt := rfl
  have hnat : u.toBitVec.toNat = u.toNat := rfl
  have hlt : u.toNat < 2 ^ 64 := u.toNat_lt
  have hzero : (0 : Int64).toInt = 0 := rfl
  have hhalf : (0x8000000000000000 : UInt64).toNat = 2 ^ 63 := rfl
  rw [Int64.lt_iff_toInt_lt, UInt64.le_iff_toNat_le, hvalue, hzero, hhalf,
    BitVec.toInt_eq_toNat_cond, hnat]
  split <;> omega

theorem toList_loop_eq (bytes : ByteArray) (i : Nat) (r : List UInt8) :
    ByteArray.toList.loop bytes i r = r.reverse ++ bytes.data.toList.drop i := by
  fun_induction ByteArray.toList.loop bytes i r with
  | case1 i r hi ih =>
      have hi' : i < bytes.data.toList.length := by simpa using hi
      have hget : bytes.get! i = bytes.data.toList[i] := by
        rw [ByteArray.get!, Array.getElem_toList]
        exact getElem!_pos _ _ _
      rw [ih, List.drop_eq_getElem_cons hi', hget]
      simp
  | case2 i r hi =>
      have hi' : bytes.data.toList.length ≤ i := by simpa using hi
      rw [List.drop_eq_nil_of_le hi', List.append_nil]

theorem textOf_toUTF8 (text : String) : textOf text.toUTF8.toList = text := by
  have hbytes : (⟨text.toUTF8.toList.toArray⟩ : ByteArray) = text.toUTF8 := by
    rw [ByteArray.toList, toList_loop_eq]
    rfl
  rw [textOf, hbytes, String.fromUTF8?]
  split
  · rfl
  · rename_i hinvalid
    exact absurd text.isValidUTF8 hinvalid

theorem Constant.constantOf_encode {value : Constant} (h : value.IsText) (line : UInt32) :
    Document.constantOf value.encode line = .ok value := by
  cases value with
  | int n =>
      rw [Constant.encode]
      split
      · rfl
      · rename_i hsign
        rw [← Int64.toInt64_toUInt64 n, toInt64_neg_iff, UInt64.not_le] at hsign
        rw [Document.constantOf, if_pos hsign, Int64.toInt64_toUInt64]
  | bool b => rfl
  | none => rfl
  | string bytes =>
      obtain ⟨text, rfl⟩ := h
      rw [Constant.encode, textOf_toUTF8]
      rfl

theorem Tree.Complete.ne_absent {t : Tree} (h : t.Complete) : t ≠ .absent := by
  cases h <;> simp

namespace Document

theorem kindOf_nodeObject {kind : Kind} {line : UInt32} {fields : List (String × Json)}
    (h : Json.lookupLast "kind" fields = none) :
    kindOf (nodeObject kind line fields) = .ok kind.text := by
  simp [kindOf, nodeObject, Json.get?, Json.lookupLast, h]

theorem lineOf_nodeObject {kind : Kind} {line : UInt32} {fields : List (String × Json)}
    (h : Json.lookupLast "line" fields = none) :
    lineOf (nodeObject kind line fields) = .ok line := by
  have hget : (nodeObject kind line fields).get? "line" = some (.unsigned line.toUInt64) := by
    simp [nodeObject, Json.get?, Json.lookupLast, h]
  have hsign : ¬line.toUInt64.toInt64 < 0 := by
    have hlt : line.toNat < 2 ^ 32 := line.toNat_lt
    rw [toInt64_neg_iff, UInt64.le_iff_toNat_le, UInt32.toNat_toUInt64]
    exact Nat.not_le.mpr (hlt.trans (by decide))
  rw [lineOf, hget]
  simp [Json.integer?, hsign]

theorem ofText?_text (kind : Kind) : Kind.ofText? kind.text = some kind := by
  cases kind <;> decide

theorem binary_ofName?_name (op : BinaryOperator) : BinaryOperator.ofName? op.name = some op := by
  cases op <;> decide

theorem compare_ofName?_name (op : CompareOperator) :
    CompareOperator.ofName? op.name = some op := by
  cases op <;> decide

/-- A field that holds an encoded tree gives the tree, if the tree can be read. -/
theorem child_of_get? {j : Json} {name : String}
    {read : (v : Json) → sizeOf v < sizeOf j → Read Tree} (t : Tree)
    (h : j.get? name = some (encodeTree t)) (hread : ∀ hv, read (encodeTree t) hv = .ok t) :
    child j name read = .ok t := by
  unfold child
  split
  · rename_i hnone
    rw [h] at hnone
    cases hnone
  · rename_i v hv
    obtain rfl : encodeTree t = v := Option.some.inj (h.symm.trans hv)
    rw [hread]
    rfl

theorem items_of_encodeTrees {name : String} (index : Nat) {ts : List Tree} {js : List Json}
    (hjs : encodeTrees ts = js) {read : (v : Json) → v ∈ js → Read Tree}
    (hread : ∀ t ∈ ts, ∀ hv, read (encodeTree t) hv = .ok t) :
    items name index js read = .ok ts := by
  induction ts generalizing index js with
  | nil =>
      subst hjs
      rfl
  | cons t rest ih =>
      cases js with
      | nil => cases hjs
      | cons j js =>
          obtain ⟨rfl, hrest⟩ : encodeTree t = j ∧ encodeTrees rest = js := List.cons.inj hjs
          have htail : items name (index + 1) js
              (fun w hw => read w (List.mem_cons_of_mem _ hw)) = .ok rest :=
            ih (index + 1) hrest fun u hu _ => hread u (List.mem_cons_of_mem _ hu) _
          rw [items, htail, hread t List.mem_cons_self]
          rfl

theorem encodeTree_ret {line : UInt32} {value : Tree} (h : value ≠ .absent) :
    encodeTree (.ret line value) = nodeObject .ret line [("value", encodeTree value)] := by
  rw [encodeTree]
  exact h

/-- Only a missing tree is written as null. -/
theorem encodeTree_ne_null {t : Tree} (h : t ≠ .absent) : encodeTree t ≠ .null := by
  cases t with
  | absent => exact absurd rfl h
  | ret line value =>
      by_cases hvalue : value = .absent
      · subst hvalue
        simp [encodeTree, nodeObject]
      · simp [encodeTree_ret hvalue, nodeObject]
  | _ => simp [encodeTree, nodeObject]

theorem optionalChild_of_get? {j : Json} {name : String}
    {read : (v : Json) → sizeOf v < sizeOf j → Read Tree} {t : Tree} (ht : t ≠ .absent)
    (h : j.get? name = some (encodeTree t)) (hread : ∀ hv, read (encodeTree t) hv = .ok t) :
    optionalChild j name read = .ok t := by
  unfold optionalChild
  split
  · rename_i hnone
    rw [h] at hnone
    cases hnone
  · rename_i hnull
    rw [h] at hnull
    exact absurd (Option.some.inj hnull) (encodeTree_ne_null ht)
  · exact child_of_get? t h hread

/-- A field that holds encoded trees gives the trees, if each of them can be read. -/
theorem children_of_get? {j : Json} {name : String} {optional : Bool}
    {read : (v : Json) → sizeOf v < sizeOf j → Read Tree} (ts : List Tree)
    (h : j.get? name = some (.array (encodeTrees ts)))
    (hread : ∀ t ∈ ts, ∀ hv, read (encodeTree t) hv = .ok t) :
    children j name optional read = .ok ts := by
  unfold children
  split
  · rename_i hnone
    rw [h] at hnone
    cases hnone
  · rename_i hnull
    rw [h] at hnull
    cases hnull
  · rename_i js hjs
    have hsame : encodeTrees ts = js := by
      rw [h] at hjs
      cases hjs
      rfl
    exact items_of_encodeTrees 0 hsame fun t ht _ => hread t ht _
  · simp_all

theorem paramsFrom_strings (index : Nat) (params : List String) :
    paramsFrom index (params.map .string) = .ok params := by
  induction params generalizing index with
  | nil => rfl
  | cons name rest ih =>
      rw [List.map_cons, paramsFrom, ih]
      rfl

theorem stringField_of_get? {j : Json} {name text : String}
    (h : j.get? name = some (.string text)) : stringField j name = .ok text := by
  rw [stringField, h]

theorem binaryOperatorOf_of_get? {j : Json} (op : BinaryOperator)
    (h : j.get? "op" = some (.string op.name)) : binaryOperatorOf j = .ok op := by
  rw [binaryOperatorOf, stringField_of_get? h]
  simp only [bind, Except.bind, binary_ofName?_name]
  rfl

theorem compareOperatorOf_of_get? {j : Json} (op : CompareOperator) (line : UInt32)
    (h : j.get? "op" = some (.string op.name)) : compareOperatorOf j line = .ok op := by
  rw [compareOperatorOf, stringField_of_get? h]
  simp only [bind, Except.bind, compare_ofName?_name]
  rfl

theorem ok_bind {α β : Type} (a : α) (f : α → Read β) : ((.ok a : Read α) >>= f) = f a := rfl

/-- The function in a node, once the trees of its body can be read. -/
theorem functionOf_encodeFunction (fn : FunctionDef)
    {read : (v : Json) → sizeOf v < sizeOf (encodeFunction fn) → Read Tree}
    (hread : ∀ t ∈ fn.body, ∀ hv, read (encodeTree t) hv = .ok t) :
    functionOf (encodeFunction fn) read = .ok fn := by
  have hname : stringField (encodeFunction fn) "name" = .ok fn.name := stringField_of_get? rfl
  have hparams : paramsOf (encodeFunction fn) = .ok fn.params := paramsFrom_strings 0 fn.params
  have hline : lineOf (encodeFunction fn) = .ok fn.line := lineOf_nodeObject rfl
  rw [functionOf, hline, ok_bind, hname, ok_bind, hparams, ok_bind,
    children_of_get? fn.body rfl hread, ok_bind]
  rfl

/-- Reading undoes writing, by induction on what makes the tree complete: the reader
goes through the fields in the order in which the cases below rewrite them. -/
theorem node_encodeTree {t : Tree} (h : t.Complete) : node (encodeTree t) = .ok t := by
  induction h with
  | @functionDef line name params body _ ihbody =>
      have hfunction : ∀ fn : FunctionDef, (∀ t ∈ fn.body, node (encodeTree t) = .ok t) →
          node (encodeFunction fn) = .ok (.functionDef fn.line fn.name fn.params fn.body) := by
        intro fn hbody
        rw [node, show kindOf (encodeFunction fn) = _ from kindOf_nodeObject rfl, ok_bind,
          ofText?_text]
        dsimp only
        rw [functionOf_encodeFunction fn fun t ht _ => hbody t ht, ok_bind]
        rfl
      exact hfunction ⟨name, params, body, line⟩ ihbody
  | @assign line targets value _ _ ihtargets ihvalue =>
      rw [encodeTree, node, kindOf_nodeObject rfl, ok_bind, ofText?_text]
      dsimp only
      rw [lineOf_nodeObject rfl, ok_bind, children_of_get? targets rfl fun t ht _ => ihtargets t ht,
        ok_bind, child_of_get? value rfl fun _ => ihvalue, ok_bind]
      rfl
  | @augAssign line target op value _ _ ihtarget ihvalue =>
      rw [encodeTree, node, kindOf_nodeObject rfl, ok_bind, ofText?_text]
      dsimp only
      rw [lineOf_nodeObject rfl, ok_bind, child_of_get? target rfl fun _ => ihtarget, ok_bind,
        binaryOperatorOf_of_get? op rfl, ok_bind, child_of_get? value rfl fun _ => ihvalue, ok_bind]
      rfl
  | @bareReturn line =>
      rw [encodeTree, node, kindOf_nodeObject rfl, ok_bind, ofText?_text]
      dsimp only
      rw [lineOf_nodeObject rfl, ok_bind]
      rfl
  | @ret line value hvalue ihvalue =>
      rw [encodeTree_ret hvalue.ne_absent, node, kindOf_nodeObject rfl, ok_bind, ofText?_text]
      dsimp only
      rw [lineOf_nodeObject rfl, ok_bind,
        optionalChild_of_get? hvalue.ne_absent rfl fun _ => ihvalue, ok_bind]
      rfl
  | @expr line value _ ihvalue =>
      rw [encodeTree, node, kindOf_nodeObject rfl, ok_bind, ofText?_text]
      dsimp only
      rw [lineOf_nodeObject rfl, ok_bind, child_of_get? value rfl fun _ => ihvalue, ok_bind]
      rfl
  | @ifElse line test body orelse _ _ _ ihtest ihbody ihorelse =>
      rw [encodeTree, node, kindOf_nodeObject rfl, ok_bind, ofText?_text]
      dsimp only
      rw [lineOf_nodeObject rfl, ok_bind, child_of_get? test rfl fun _ => ihtest, ok_bind,
        children_of_get? body rfl fun t ht _ => ihbody t ht, ok_bind,
        children_of_get? orelse rfl fun t ht _ => ihorelse t ht, ok_bind]
      rfl
  | @whileLoop line test body _ _ ihtest ihbody =>
      rw [encodeTree, node, kindOf_nodeObject rfl, ok_bind, ofText?_text]
      dsimp only
      rw [lineOf_nodeObject rfl, ok_bind, child_of_get? test rfl fun _ => ihtest, ok_bind,
        children_of_get? body rfl fun t ht _ => ihbody t ht, ok_bind]
      rfl
  | @binary line op left right _ _ ihleft ihright =>
      rw [encodeTree, node, kindOf_nodeObject rfl, ok_bind, ofText?_text]
      dsimp only
      rw [lineOf_nodeObject rfl, ok_bind, binaryOperatorOf_of_get? op rfl, ok_bind,
        child_of_get? left rfl fun _ => ihleft, ok_bind,
        child_of_get? right rfl fun _ => ihright, ok_bind]
      rfl
  | @compare line op left right _ _ ihleft ihright =>
      rw [encodeTree, node, kindOf_nodeObject rfl, ok_bind, ofText?_text]
      dsimp only
      rw [lineOf_nodeObject rfl, ok_bind, compareOperatorOf_of_get? op line rfl, ok_bind,
        child_of_get? left rfl fun _ => ihleft, ok_bind,
        child_of_get? right rfl fun _ => ihright, ok_bind]
      rfl
  | @call line callee args _ ihargs =>
      rw [encodeTree, node, kindOf_nodeObject rfl, ok_bind, ofText?_text]
      dsimp only
      rw [lineOf_nodeObject rfl, ok_bind, show calleeOf (nodeObject _ _ _) = .ok callee from rfl,
        ok_bind, children_of_get? args rfl fun t ht _ => ihargs t ht, ok_bind]
      rfl
  | @list line elements _ ihelements =>
      rw [encodeTree, node, kindOf_nodeObject rfl, ok_bind, ofText?_text]
      dsimp only
      rw [lineOf_nodeObject rfl, ok_bind,
        children_of_get? elements rfl fun t ht _ => ihelements t ht, ok_bind]
      rfl
  | @dict line keys values hlength _ _ ihkeys ihvalues =>
      rw [encodeTree, node, kindOf_nodeObject rfl, ok_bind, ofText?_text]
      dsimp only
      rw [lineOf_nodeObject rfl, ok_bind, children_of_get? keys rfl fun t ht _ => ihkeys t ht,
        ok_bind, children_of_get? values rfl fun t ht _ => ihvalues t ht, ok_bind, if_pos hlength]
      rfl
  | @subscript line value index _ _ ihvalue ihindex =>
      rw [encodeTree, node, kindOf_nodeObject rfl, ok_bind, ofText?_text]
      dsimp only
      rw [lineOf_nodeObject rfl, ok_bind, child_of_get? value rfl fun _ => ihvalue, ok_bind,
        child_of_get? index rfl fun _ => ihindex, ok_bind]
      rfl
  | @member line value attr _ ihvalue =>
      rw [encodeTree, node, kindOf_nodeObject rfl, ok_bind, ofText?_text]
      dsimp only
      rw [lineOf_nodeObject rfl, ok_bind, child_of_get? value rfl fun _ => ihvalue, ok_bind,
        show stringField (nodeObject _ _ _) _ = .ok attr from rfl, ok_bind]
      rfl
  | @name line id =>
      rw [encodeTree, node, kindOf_nodeObject rfl, ok_bind, ofText?_text]
      dsimp only
      rw [lineOf_nodeObject rfl, ok_bind, show stringField (nodeObject _ _ _) _ = .ok id from rfl,
        ok_bind]
      rfl
  | @constant line value hvalue =>
      rw [encodeTree, node, kindOf_nodeObject rfl, ok_bind, ofText?_text]
      have hget : (nodeObject .constant line [("value", value.encode)]).get? "value" =
          some value.encode := rfl
      simp only [hget]
      rw [lineOf_nodeObject rfl, ok_bind, Constant.constantOf_encode hvalue, ok_bind]
      rfl

theorem topLevel_encodeFunction {fn : FunctionDef} (h : ∀ t ∈ fn.body, t.Complete) :
    topLevel (encodeFunction fn) = .ok fn := by
  have hkind : kindOf (encodeFunction fn) = .ok Kind.functionDef.text := kindOf_nodeObject rfl
  rw [topLevel, hkind, ok_bind, if_pos rfl]
  exact functionOf_encodeFunction fn fun t ht _ => node_encodeTree (h t ht)

theorem functionsFrom_encode (index : Nat) {fns : List FunctionDef}
    (h : ∀ fn ∈ fns, ∀ t ∈ fn.body, t.Complete) :
    functionsFrom index (fns.map encodeFunction) = .ok (fns.map some) := by
  induction fns generalizing index with
  | nil => rfl
  | cons fn rest ih =>
      have hrest := ih (index + 1) fun gn hgn => h gn (List.mem_cons_of_mem _ hgn)
      rw [List.map_cons, functionsFrom, topLevel_encodeFunction (h fn List.mem_cons_self), hrest]
      rfl

end Document

/-- Nodes of most kinds, some in places where no lowering accepts them. -/
def gallery : FunctionDef where
  name := "gallery"
  params := ["a", "é"]
  line := 4294967295
  body := [
    .ret 2 .absent,
    .ret 3 (.whileLoop 0 (.constant 3 (.int Int64.minValue)) [.ret 4 .absent]),
    .functionDef 5 "inner" ["b"] [.name 5 "b"],
    .dict 6 [.constant 6 (.string [195, 169])] [.constant 6 (.int Int64.maxValue)],
    .augAssign 7 (.list 7 []) .mod (.attribute 7 (.constant 7 .none) "size")]

end Arbor
