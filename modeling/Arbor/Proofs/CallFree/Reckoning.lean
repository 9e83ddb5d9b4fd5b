import Mathlib.Tactic
import Arbor.Proofs.Semantics

/-!
What an expression without calls stands for, over the memory of a machine and whatever that
memory holds. Operands are reckoned from left to right; a list or dict literal writes its
words to its own region and stands for the address. There are three ways to end: a value, a
fault of the expression itself, and a look at a stack word below the stack pointer, where
code may keep what it likes, so that no value can be given.
-/

namespace Arbor

/-- The elements of two lists in turn. -/
def interleave {α : Type} : List α → List α → List α
  | a :: as, b :: bs => a :: b :: interleave as bs
  | _, _ => []

namespace Tree

mutual

/-- Whether a call occurs in a tree. -/
def hasCall : Tree → Bool
  | .absent | .name .. | .constant .. => false
  | .functionDef _ _ _ body => anyCall body
  | .assign _ targets value => anyCall targets || value.hasCall
  | .augAssign _ target _ value => target.hasCall || value.hasCall
  | .ret _ value | .expr _ value | .attribute _ value _ => value.hasCall
  | .ifElse _ test body orelse => test.hasCall || anyCall body || anyCall orelse
  | .whileLoop _ test body => test.hasCall || anyCall body
  | .binary _ _ left right | .compare _ _ left right => left.hasCall || right.hasCall
  | .call .. => true
  | .list _ elements => anyCall elements
  | .dict _ keys values => anyCall keys || anyCall values
  | .subscript _ value index => value.hasCall || index.hasCall

def anyCall : List Tree → Bool
  | [] => false
  | t :: rest => t.hasCall || anyCall rest

end

/-- The stack words in use while values are pushed one after another, given what it takes to
compute each of them. -/
def stageDepth : List Nat → Nat
  | [] => 0
  | n :: rest => max n (stageDepth rest + 1)

mutual

/-- The stack words that the code of an expression without calls pushes at most. A left operand
waits on the stack unless the right one is a leaf. -/
def pushDepth : Tree → Nat
  | .binary _ _ left right | .compare _ _ left right =>
    max left.pushDepth (right.pushDepth + if right.isLeaf then 0 else 1)
  | .subscript _ value index =>
    max value.pushDepth (index.pushDepth + if index.isLeaf then 0 else 1)
  | .list _ elements => stageDepth (pushDepths elements)
  | .dict _ keys values => stageDepth (interleave (pushDepths keys) (pushDepths values))
  | _ => 0

def pushDepths : List Tree → List Nat
  | [] => []
  | t :: rest => t.pushDepth :: pushDepths rest

end

end Tree

/-- What reckoning an expression changes: memory, and the number of literals it has come to. -/
structure Slate where
  words : Address → Word
  literals : Nat

inductive Reckoned (α : Type) where
  | value (a : α) (slate : Slate)
  | fault
  | stray

def Reckoned.value? {α : Type} : Reckoned α → Option α
  | .value a _ => some a
  | .fault | .stray => none

theorem Reckoned.exists_of_value? {α : Type} {r : Reckoned α} {a : α} (h : r.value? = some a) :
    ∃ slate, r = .value a slate := by
  cases r with
  | value b slate =>
      cases h
      exact ⟨slate, rfl⟩
  | fault | stray => cases h

/-- A part of an expression, from what is on the slate. -/
def Reckoning (α : Type) : Type := Slate → Reckoned α

/-- Words one after another, from an address on. -/
def fillWords (words : Address → Word) (a : Address) : List Word → Address → Word
  | [] => words
  | v :: rest => Function.update (fillWords words (a + 8) rest) a v

/-- The last word may as well be written first. -/
theorem fillWords_append (words : Address → Word) (a : Address) (values : List Word) (v : Word) :
    fillWords words a (values ++ [v]) =
      fillWords (Function.update words (a + 8 * UInt64.ofNat values.length) v) a values := by
  induction values generalizing a with
  | nil =>
      have hzero : a + 8 * UInt64.ofNat ([] : List Word).length = a := UInt64.add_zero a
      rw [hzero]
      rfl
  | cons u values ih =>
      have hnext : a + 8 + 8 * UInt64.ofNat values.length =
          a + 8 * UInt64.ofNat (u :: values).length := by
        rw [List.length_cons, UInt64.ofNat_add]
        grind
      rw [List.cons_append, fillWords, fillWords, ih, hnext]

namespace Reckoning

variable {α β : Type}

def bind (x : Reckoning α) (f : α → Reckoning β) : Reckoning β := fun w =>
  match x w with
  | .value a w' => f a w'
  | .fault => .fault
  | .stray => .stray

instance : Monad Reckoning where
  pure a := fun w => .value a w
  bind := bind

def ofOption : Option α → Reckoning α
  | some a => pure a
  | none => fun _ => .fault

def word (a : Address) : Reckoning Word := fun w => .value (w.words a) w

/-- The number of the next literal of the text. -/
def nextLiteral : Reckoning Nat := fun w =>
  .value w.literals { w with literals := w.literals + 1 }

/-- The words of a literal: how many elements it has, and what they are. -/
def fill (a : Address) (count : Nat) (values : List Word) : Reckoning Unit := fun w =>
  .value () { w with
    words := fillWords (Function.update w.words a (Int64.ofNat count)) (a + 8) values }

/-- Values in order. -/
def stage : List (Reckoning Word) → Reckoning (List Word)
  | [] => pure []
  | x :: rest => do
    let v ← x
    let values ← stage rest
    return v :: values

end Reckoning

/-- Where an expression finds what it names. `regions` are those of the literals, up to the last
one of the expression; `base` is the frame base and `top` the stack pointer. -/
structure Vantage where
  image : Image
  scope : Scope
  regions : List DataRegion
  base : Address
  top : Address

namespace Vantage

def symbol (V : Vantage) (name : String) : Address :=
  match V.image.layout.find? name with
  | some placement => placement.address
  | none => 0

def literal (V : Vantage) (k : Nat) : Address :=
  match V.regions[k]? with
  | some region => V.symbol region.symbol
  | none => 0

/-- A stack word below the stack pointer. -/
def isFree (V : Vantage) (a : Address) : Bool := V.image.isStack a && a < V.top

/-- A word that a subscript looks at. -/
def read (V : Vantage) (a : Address) : Reckoning Word := fun w =>
  match V.image.accessTrap? a with
  | some _ => .fault
  | none => if V.isFree a then .stray else .value (w.words a) w

theorem read_of_trap {V : Vantage} {a : Address} {cause : Trap}
    (h : V.image.accessTrap? a = some cause) (w : Slate) : V.read a w = .fault := by
  rw [read, h]

theorem read_of_free {V : Vantage} {a : Address} (h : V.image.accessTrap? a = none)
    (hfree : V.isFree a = true) (w : Slate) : V.read a w = .stray := by
  rw [read, h]
  exact if_pos hfree

theorem read_of_kept {V : Vantage} {a : Address} (h : V.image.accessTrap? a = none)
    (hfree : V.isFree a = false) (w : Slate) : V.read a w = .value (w.words a) w := by
  rw [read, h]
  exact if_neg (Bool.not_eq_true _ ▸ hfree)

/-- Built-in constants come first, then locals; every other name is a global. -/
def readName (V : Vantage) (id : String) : Reckoning Word :=
  match builtinConstant? id with
  | some v => pure v
  | none =>
    match V.scope.displacement? id with
    | some d => Reckoning.word (V.base + d.toUInt64)
    | none => Reckoning.word (V.symbol (globalSymbol id))

/-- A list or dict literal of so many elements. -/
def fillLiteral (V : Vantage) (count : Nat) (values : Reckoning (List Word)) : Reckoning Word := do
  let a := V.literal (← Reckoning.nextLiteral)
  Reckoning.fill a count (← values)
  return a.toInt64

mutual

/-- What an expression stands for. -/
def evaluate (V : Vantage) : Tree → Reckoning Word
  | .constant _ c =>
    match c.word? with
    | some v => pure v
    | none => do return (V.literal (← Reckoning.nextLiteral)).toInt64
  | .name _ id => V.readName id
  | .binary _ op left right => do
    let a ← V.evaluate left
    let b ← V.evaluate right
    Reckoning.ofOption (op.result? a b)
  | .compare _ op left right => do
    let a ← V.evaluate left
    let b ← V.evaluate right
    return if op.holds a b then 1 else 0
  | .list _ elements =>
    V.fillLiteral elements.length (Reckoning.stage (V.evaluateEach elements))
  | .dict _ keys values =>
    V.fillLiteral keys.length
      (Reckoning.stage (interleave (V.evaluateEach keys) (V.evaluateEach values)))
  | .subscript _ value index => do
    let a ← V.evaluate value
    let i ← V.evaluate index
    V.read (elementAddress a i)
  | _ => fun _ => .fault

/-- What each expression of a list stands for, to be reckoned in an order of the caller's choice. -/
def evaluateEach (V : Vantage) : List Tree → List (Reckoning Word)
  | [] => []
  | t :: rest => V.evaluate t :: V.evaluateEach rest

end

end Vantage

end Arbor
