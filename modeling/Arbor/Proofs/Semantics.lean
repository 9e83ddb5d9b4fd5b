import Mathlib.Tactic
import Arbor.Proofs.Derivation
import Arbor.Proofs.Layout

/-!
What the functions of a module mean, without any machine code. The interpreter runs
the syntax trees over a store of words: the locals of the running activation and the
words of the data area. It knows two things of the compiled program, where its
symbols lie and which region belongs to which literal, since both are visible to a
program as words. Fuel bounds the nesting of a run, and running out of it is one of
the ways to have no result.

Beside its value, a run reports how many stack words it takes: a word for every value
that waits for another one, and for every activation its arguments, the return
address, the saved frame base and the local slots.
-/

namespace Arbor

/-- Division has no value when the divisor is zero or the quotient is no word. -/
def BinaryOperator.result? : BinaryOperator → Word → Word → Option Word
  | .add, a, b => some (a + b)
  | .sub, a, b => some (a - b)
  | .mult, a, b => some (a * b)
  | .div, a, b => if b = 0 ∨ a = Int64.minValue ∧ b = -1 then none else some (a / b)
  | .mod, a, b => if b = 0 ∨ a = Int64.minValue ∧ b = -1 then none else some (a % b)

def CompareOperator.holds : CompareOperator → Word → Word → Bool
  | .greater, a, b => a > b
  | .less, a, b => a < b
  | .equal, a, b => a == b
  | .notEqual, a, b => a != b
  | .lessEqual, a, b => a ≤ b
  | .greaterEqual, a, b => a ≥ b

/-- Local names in order of declaration. A name that is already local stays where it is. -/
def declareName (scope : List String) (id : String) : List String :=
  if id ∈ scope then scope else scope ++ [id]

def declareNames (scope : List String) : List Tree → List String
  | [] => scope
  | .name _ id :: rest => declareNames (declareName scope id) rest
  | _ :: rest => declareNames scope rest

namespace Tree

mutual

/-- The number of string, list and dict literals in a tree. -/
def literals : Tree → Nat
  | .constant _ (.string _) => 1
  | .binary _ _ left right => left.literals + right.literals
  | .compare _ _ left right => left.literals + right.literals
  | .call _ _ args => literalsIn args
  | .list _ elements => 1 + literalsIn elements
  | .dict _ keys values => 1 + (literalsIn keys + literalsIn values)
  | .subscript _ value index => value.literals + index.literals
  | .assign _ targets value => value.literals + literalsIn targets
  | .augAssign _ target _ value => target.literals + value.literals
  | .ret _ value => value.literals
  | .expr _ value => value.literals
  | .ifElse _ test body orelse => test.literals + (literalsIn body + literalsIn orelse)
  | .whileLoop _ test body => test.literals + literalsIn body
  | _ => 0

def literalsIn : List Tree → Nat
  | [] => 0
  | t :: rest => t.literals + literalsIn rest

end

mutual

/-- The local names after a statement, given those before it. What counts is the order
of the text: both branches of a conditional declare, taken or not. -/
def declares (scope : List String) : Tree → List String
  | .assign _ targets _ => declareNames scope targets
  | .augAssign _ (.name _ id) _ _ => declareName scope id
  | .ifElse _ _ body orelse => declaresAll (declaresAll scope body) orelse
  | .whileLoop _ _ body => declaresAll scope body
  | _ => scope

def declaresAll (scope : List String) : List Tree → List String
  | [] => scope
  | t :: rest => declaresAll (t.declares scope) rest

end

end Tree

/-- The quadwords a function reserves for locals that are no parameters. -/
def FunctionDef.slots (fn : FunctionDef) : Nat :=
  (Tree.declaresAll fn.params fn.body).length - fn.params.length

/-- A place in the text of a function: the function's position in the module, the names
that are local there, and the number of literals before it. -/
structure Point where
  owner : Nat
  scope : List String
  literals : Nat

namespace Point

def entry (owner : Nat) (fn : FunctionDef) : Point :=
  { owner := owner, scope := fn.params, literals := 0 }

/-- The place after an expression. -/
def past (pt : Point) (t : Tree) : Point := { pt with literals := pt.literals + t.literals }

/-- The place after a statement. -/
def after (pt : Point) (t : Tree) : Point :=
  { pt with scope := t.declares pt.scope, literals := pt.literals + t.literals }

def afterAll (pt : Point) (ts : List Tree) : Point :=
  { pt with
    scope := Tree.declaresAll pt.scope ts, literals := pt.literals + Tree.literalsIn ts }

/-- The place of the elements of a literal. -/
def inside (pt : Point) : Point := { pt with literals := pt.literals + 1 }

def declaring (pt : Point) (targets : List Tree) : Point :=
  { pt with scope := declareNames pt.scope targets }

end Point

/-- What a run can change: the locals of its activation and the words of the data area. -/
structure Store where
  locals : String → Option Word
  data : Address → Word

def Store.setLocal (σ : Store) (id : String) (v : Word) : Store :=
  { σ with locals := Function.update σ.locals id (some v) }

def Store.setData (σ : Store) (a : Address) (v : Word) : Store :=
  { σ with data := Function.update σ.data a v }

/-- Words one after another, from an address on. -/
def Store.fill (σ : Store) (a : Address) : List Word → Store
  | [] => σ
  | v :: rest => (σ.setData a v).fill (a + 8) rest

theorem Store.setLocal_locals (σ : Store) (id : String) (v : Word) (name : String) :
    (σ.setLocal id v).locals name = if name = id then some v else σ.locals name :=
  Function.update_apply _ _ _ _

theorem Store.setData_data (σ : Store) (a : Address) (v : Word) (b : Address) :
    (σ.setData a v).data b = if a = b then v else σ.data b :=
  (Function.update_apply _ _ _ _).trans (if_congr eq_comm rfl rfl)

theorem Store.setData_comm (σ : Store) {a b : Address} (h : a ≠ b) (x y : Word) :
    (σ.setData a x).setData b y = (σ.setData b y).setData a x := by
  rw [setData, setData, setData, setData, Function.update_comm h]

/-- The last word can be written last. -/
theorem Store.fill_append (σ : Store) (a : Address) (words : List Word) (v : Word) :
    σ.fill a (words ++ [v]) =
      (σ.fill a words).setData (a + 8 * UInt64.ofNat words.length) v := by
  induction words generalizing σ a with
  | nil => simp [fill]
  | cons w rest ih =>
      rw [List.cons_append, fill, ih, fill, List.length_cons, UInt64.ofNat_add]
      congr 1
      grind

/-- A write beside the words can as well come first. -/
theorem Store.fill_setData (σ : Store) {a b : Address} {words : List Word}
    (h : ∀ k < words.length, a + 8 * UInt64.ofNat k ≠ b) (v : Word) :
    (σ.setData b v).fill a words = (σ.fill a words).setData b v := by
  induction words generalizing σ a with
  | nil => rfl
  | cons w rest ih =>
      have hhead : b ≠ a := by simpa using (h 0 (by simp)).symm
      rw [fill, setData_comm _ hhead, ih, fill]
      intro k hk
      have hnext := h (k + 1) (by simpa using hk)
      rw [UInt64.ofNat_add] at hnext
      intro heq
      exact hnext (by rw [← heq]; grind)

/-- How a run ended. `need` is the greatest number of stack words in use. -/
structure Finished (α : Type) where
  value : α
  need : Nat
  store : Store

/-- A run of a part of a program, from a store. It may have no result. -/
def Eval (α : Type) : Type := Store → Option (Finished α)

namespace Eval

def bind {α β : Type} (x : Eval α) (f : α → Eval β) : Eval β := fun σ =>
  (x σ).bind fun o =>
    (f o.value o.store).map fun o' => { o' with need := max o.need o'.need }

instance : Monad Eval where
  pure a := fun σ => some { value := a, need := 0, store := σ }
  bind := bind

def ofOption {α : Type} (x : Option α) : Eval α := fun σ =>
  x.map fun a => { value := a, need := 0, store := σ }

/-- The stack holds at least this many words now. -/
def uses (height : Nat) : Eval Unit := fun σ =>
  some { value := (), need := height, store := σ }

/-- Reading a local that was never assigned has no result. -/
def getLocal (id : String) : Eval Word := fun σ => ofOption (σ.locals id) σ

def setLocal (id : String) (v : Word) : Eval Unit := fun σ =>
  some { value := (), need := 0, store := σ.setLocal id v }

def getData (a : Address) : Eval Word := fun σ =>
  some { value := σ.data a, need := 0, store := σ }

def fill (a : Address) (words : List Word) : Eval Unit := fun σ =>
  some { value := (), need := 0, store := σ.fill a words }

/-- Runs an activation with its own locals. -/
def activation {α : Type} (locals : String → Option Word) (x : Eval α) : Eval α := fun σ =>
  (x { σ with locals := locals }).map fun o =>
    { o with store := { o.store with locals := σ.locals } }

/-- A run that ends well did so in its first part and then in its second. -/
theorem bind_eq_some {α β : Type} {x : Eval α} {f : α → Eval β} {σ : Store} {o : Finished β}
    (h : (x >>= f) σ = some o) :
    ∃ o₁ o₂, x σ = some o₁ ∧ f o₁.value o₁.store = some o₂ ∧
      o = { o₂ with need := max o₁.need o₂.need } := by
  change ((x σ).bind fun o => (f o.value o.store).map
    fun o' => { o' with need := max o.need o'.need }) = some o at h
  obtain ⟨o₁, hx, h⟩ := Option.bind_eq_some_iff.mp h
  obtain ⟨o₂, hf, rfl⟩ := Option.map_eq_some_iff.mp h
  exact ⟨o₁, o₂, hx, hf, rfl⟩

theorem pure_eq_some {α : Type} {a : α} {σ : Store} {o : Finished α}
    (h : (pure a : Eval α) σ = some o) : o = { value := a, need := 0, store := σ } :=
  (Option.some.inj h).symm

theorem ofOption_eq_some {α : Type} {x : Option α} {σ : Store} {o : Finished α}
    (h : ofOption x σ = some o) : ∃ a, x = some a ∧ o = { value := a, need := 0, store := σ } := by
  obtain ⟨a, ha, rfl⟩ := Option.map_eq_some_iff.mp h
  exact ⟨a, ha, rfl⟩

end Eval

/-- How a statement ended. -/
inductive Completion where
  | next
  | returned (v : Word)

/-- The functions of a module and the program they were compiled to. -/
structure World where
  functions : List FunctionDef
  program : Program

namespace World

def layout (w : World) : Layout := Layout.ofRequests (Layout.requests w.program)

def address? (w : World) (symbol : String) : Option Address :=
  (w.layout.find? symbol).map (·.address)

/-- Where the region of the next literal lies. -/
def literal? (w : World) (pt : Point) : Option Address := do
  let unit ← w.program.units[pt.owner]?
  let region ← unit.data[pt.literals]?
  w.address? region.symbol

def isData (w : World) (a : Address) : Bool :=
  a % 8 == 0 && Layout.base ≤ a && a < w.layout.dataEnd

/-- A function of the module with its position. -/
def find? (w : World) (name : String) : Option (Nat × FunctionDef) := do
  let owner ← w.functions.findIdx? (·.name == name)
  let fn ← w.functions[owner]?
  some (owner, fn)

/-- An access outside the data area has no result. -/
def read (w : World) (a : Address) : Eval Word := fun σ =>
  if w.isData a then some { value := σ.data a, need := 0, store := σ } else none

def write (w : World) (a : Address) (v : Word) : Eval Unit := fun σ =>
  if w.isData a then some { value := (), need := 0, store := σ.setData a v } else none

/-- Built-in constants come first, then locals; every other name is a global. -/
def readName (w : World) (pt : Point) (id : String) : Eval Word :=
  match builtinConstant? id with
  | some v => pure v
  | none =>
    if id ∈ pt.scope then Eval.getLocal id
    else do
      let a ← Eval.ofOption (w.address? (globalSymbol id))
      Eval.getData a

end World

/-- Element `i` of a region follows its length word. -/
def elementAddress (region index : Word) : Address :=
  region.toUInt64 + 8 * index.toUInt64 + 8

/-- The stack height at which a right operand is evaluated: the left one waits on the
stack unless the right one is a leaf. -/
def rightHeight (height : Nat) (right : Tree) : Nat :=
  if right.isLeaf then height else height + 1

def bindParams (params : List String) (args : List Word) (id : String) : Option Word :=
  (params.zip args).lookup id

/-- What the parts of a tree, the next round of a loop and the bodies of called functions do.
Each is given the place it stands at and the number of stack words in use. -/
structure Interpreter where
  evaluate : Point → Nat → Tree → Eval Word
  execute : Point → Nat → Tree → Eval Completion

namespace Interpreter

/-- Two operands, left to right. -/
def operands (I : Interpreter) (pt : Point) (height : Nat) (left right : Tree) :
    Eval (Word × Word) := do
  let a ← I.evaluate pt height left
  Eval.uses (rightHeight height right)
  let b ← I.evaluate (pt.past left) (rightHeight height right) right
  return (a, b)

/-- Values that are pushed as they come. -/
def stage (I : Interpreter) (pt : Point) (height : Nat) : List Tree → Eval (List Word)
  | [] => pure []
  | t :: rest => do
    let v ← I.evaluate pt height t
    Eval.uses (height + 1)
    let values ← I.stage (pt.past t) (height + 1) rest
    return v :: values

/-- Keys and values that are pushed in turn. -/
def stagePairs (I : Interpreter) (pt : Point) (height : Nat) :
    List Tree → List Tree → Eval (List Word)
  | key :: keys, value :: values => do
    let k ← I.evaluate pt height key
    Eval.uses (height + 1)
    let v ← I.evaluate (pt.past key) (height + 1) value
    Eval.uses (height + 2)
    let words ← I.stagePairs ((pt.past key).past value) (height + 2) keys values
    return k :: v :: words
  | _, _ => pure []

theorem length_of_stage {I : Interpreter} {pt : Point} {height : Nat} {ts : List Tree} {σ : Store}
    {o : Finished (List Word)} (h : I.stage pt height ts σ = some o) :
    o.value.length = ts.length := by
  induction ts generalizing pt height σ o with
  | nil =>
      obtain rfl := Eval.pure_eq_some h
      rfl
  | cons t rest ih =>
      obtain ⟨_, _, _, h₁, rfl⟩ := Eval.bind_eq_some h
      obtain ⟨_, _, _, h₂, rfl⟩ := Eval.bind_eq_some h₁
      obtain ⟨o₂, _, hrest, hpure, rfl⟩ := Eval.bind_eq_some h₂
      obtain rfl := Eval.pure_eq_some hpure
      simp only [List.length_cons, ih hrest]

theorem length_of_stagePairs {I : Interpreter} {pt : Point} {height : Nat}
    {keys values : List Tree} {σ : Store} {o : Finished (List Word)}
    (h : I.stagePairs pt height keys values σ = some o) (hlength : keys.length = values.length) :
    o.value.length = 2 * keys.length := by
  induction keys generalizing pt height values σ o with
  | nil =>
      obtain rfl := Eval.pure_eq_some h
      rfl
  | cons key keys ih =>
      cases values with
      | nil => cases hlength
      | cons value values =>
          obtain ⟨_, _, _, h₁, rfl⟩ := Eval.bind_eq_some h
          obtain ⟨_, _, _, h₂, rfl⟩ := Eval.bind_eq_some h₁
          obtain ⟨_, _, _, h₃, rfl⟩ := Eval.bind_eq_some h₂
          obtain ⟨_, _, _, h₄, rfl⟩ := Eval.bind_eq_some h₃
          obtain ⟨o₅, _, hrest, hpure, rfl⟩ := Eval.bind_eq_some h₄
          obtain rfl := Eval.pure_eq_some hpure
          have hwords := ih hrest (Nat.succ.inj hlength)
          simp only [List.length_cons, hwords]
          omega

/-- Statements in order, until one returns. -/
def executeAll (I : Interpreter) (pt : Point) (height : Nat) : List Tree → Eval Completion
  | [] => return .next
  | t :: rest => do
    match ← I.execute pt height t with
    | .returned v => return .returned v
    | .next => I.executeAll (pt.after t) height rest

/-- A function on arguments that were pushed from `height` on. A body that runs off its
end returns 0. -/
def invoke (I : Interpreter) (owner : Nat) (fn : FunctionDef) (height : Nat)
    (args : List Word) : Eval Word := do
  let top := height + args.length + 2 + fn.slots
  Eval.uses top
  let c ← Eval.activation (bindParams fn.params args)
    (I.executeAll (Point.entry owner fn) top fn.body)
  match c with
  | .returned v => return v
  | .next => return 0

theorem need_of_invoke {I : Interpreter} {owner : Nat} {fn : FunctionDef} {height : Nat}
    {args : List Word} {σ : Store} {o : Finished Word}
    (h : I.invoke owner fn height args σ = some o) :
    height + args.length + 2 + fn.slots ≤ o.need := by
  obtain ⟨_, _, huses, _, rfl⟩ := Eval.bind_eq_some h
  cases huses
  exact le_max_left _ _

end Interpreter

namespace World

/-- Gives a target of an assignment its value. -/
def assign (w : World) (I : Interpreter) (pt : Point) (height : Nat) (t : Tree) (v : Word) :
    Eval Unit :=
  match t with
  | .name _ id => Eval.setLocal id v
  | .subscript _ value index => do
    Eval.uses (height + 1)
    let (a, i) ← I.operands pt (height + 1) value index
    w.write (elementAddress a i) v
  | _ => fun _ => none

def assignAll (w : World) (I : Interpreter) (pt : Point) (height : Nat) :
    List Tree → Word → Eval Unit
  | [], _ => pure ()
  | t :: rest, v => do
    w.assign I pt height t v
    w.assignAll I (pt.past t) height rest v

/-- The value of an expression. -/
def evaluate (w : World) (I : Interpreter) (pt : Point) (height : Nat) (t : Tree) : Eval Word :=
  match t with
  | .constant _ c =>
    match c.word? with
    | some v => pure v
    | none => do
      let a ← Eval.ofOption (w.literal? pt)
      return a.toInt64
  | .name _ id => w.readName pt id
  | .binary _ op left right => do
    let (a, b) ← I.operands pt height left right
    Eval.ofOption (op.result? a b)
  | .compare _ op left right => do
    let (a, b) ← I.operands pt height left right
    return if op.holds a b then 1 else 0
  | .call _ callee args => do
    let (owner, fn) ← Eval.ofOption (w.find? callee)
    let values ← I.stage pt height args
    I.invoke owner fn height values
  | .list _ elements => do
    let a ← Eval.ofOption (w.literal? pt)
    let values ← I.stage pt.inside height elements
    Eval.fill a (Int64.ofNat elements.length :: values)
    return a.toInt64
  | .dict _ keys values => do
    let a ← Eval.ofOption (w.literal? pt)
    let words ← I.stagePairs pt.inside height keys values
    Eval.fill a (Int64.ofNat keys.length :: words)
    return a.toInt64
  | .subscript _ value index => do
    let (a, i) ← I.operands pt height value index
    w.read (elementAddress a i)
  | _ => fun _ => none

theorem evaluate_constant (w : World) (I : Interpreter) (pt : Point) (height : Nat) (line : UInt32)
    {c : Constant} {v : Word} (h : c.word? = some v) :
    w.evaluate I pt height (.constant line c) = pure v := by
  unfold evaluate
  dsimp only
  rw [h]

theorem evaluate_name (w : World) (I : Interpreter) (pt : Point) (height : Nat) (line : UInt32)
    (id : String) : w.evaluate I pt height (.name line id) = w.readName pt id := rfl

/-- The new value of an element is stored where the old one was found, whatever evaluating
the right operand did. -/
def execute (w : World) (I : Interpreter) (pt : Point) (height : Nat) (t : Tree) :
    Eval Completion :=
  match t with
  | .assign _ targets value => do
    let pt := pt.declaring targets
    let v ← I.evaluate pt height value
    w.assignAll I (pt.past value) height targets v
    return .next
  | .augAssign _ (.subscript _ base index) op value => do
    let (a, i) ← I.operands pt height base index
    Eval.uses (height + 2)
    let old ← w.read (elementAddress a i)
    Eval.uses (rightHeight (height + 2) value)
    let b ← I.evaluate ((pt.past base).past index) (rightHeight (height + 2) value) value
    let v ← Eval.ofOption (op.result? old b)
    w.write (elementAddress a i) v
    return .next
  | .augAssign _ (.name line id) op value => do
    let (old, b) ← I.operands (pt.declaring [.name line id]) height (.name line id) value
    let v ← Eval.ofOption (op.result? old b)
    Eval.setLocal id v
    return .next
  | .ret _ .absent => return .returned 0
  | .ret _ value => do
    let v ← I.evaluate pt height value
    return .returned v
  | .ifElse _ test body orelse => do
    let v ← I.evaluate pt height test
    if v = 0 then I.executeAll ((pt.past test).afterAll body) height orelse
    else I.executeAll (pt.past test) height body
  | .whileLoop line test body => do
    let v ← I.evaluate pt height test
    if v = 0 then return .next
    else
      match ← I.executeAll (pt.past test) height body with
      | .returned v => return .returned v
      | .next => I.execute pt height (.whileLoop line test body)
  | .expr _ value => do
    let _ ← I.evaluate pt height value
    return .next
  | t => do
    let _ ← I.evaluate pt height t
    return .next

/-- The interpreter with so much fuel. -/
def interpreter (w : World) : Nat → Interpreter
  | 0 => { evaluate := fun _ _ _ _ => none, execute := fun _ _ _ _ => none }
  | fuel + 1 =>
    { evaluate := w.evaluate (w.interpreter fuel), execute := w.execute (w.interpreter fuel) }

/-- A call of a function by name, on the given contents of the data area. -/
def run (w : World) (fuel : Nat) (name : String) (args : List Word) (data : Address → Word) :
    Option (Finished Word) :=
  (do
    let (owner, fn) ← Eval.ofOption (w.find? name)
    (w.interpreter fuel).invoke owner fn 0 args) { locals := fun _ => none, data := data }

end World

end Arbor
