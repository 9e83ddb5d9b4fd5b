import Mathlib.Tactic
import Arbor.Proofs.Compilation
import Arbor.Proofs.Symbols

/-!
Label numbers carry no meaning. Renumbering changes the number in every generated
symbol and leaves every other name alone. Lowering with a renumbered supply gives
the renumbered code: what lowering accepts, what it collects and how it fails do
not depend on the numbers, which only ever end up inside symbols.
-/

namespace Arbor

/-- The word and the number of a generated symbol. -/
def numberedParts? (symbol : String) : Option (String × Nat) :=
  numberedWords.findSome? fun word =>
    let id := Nat.ofDigitChars 10 (symbol.toList.drop (word.length + 1)) 0
    if numbered word id = symbol then some (word, id) else none

theorem numberedParts?_eq_some {symbol word : String} {id : Nat}
    (h : numberedParts? symbol = some (word, id)) :
    word ∈ numberedWords ∧ symbol = numbered word id := by
  obtain ⟨w, hw, heq⟩ := List.exists_of_findSome?_eq_some h
  simp only [Option.ite_none_right_eq_some, Option.some.injEq, Prod.mk.injEq] at heq
  obtain ⟨hsymbol, rfl, rfl⟩ := heq
  exact ⟨hw, hsymbol.symm⟩

theorem numberedParts?_numbered {word : String} (hword : word ∈ numberedWords) (id : Nat) :
    numberedParts? (numbered word id) = some (word, id) := by
  have hdigits : Nat.ofDigitChars 10 ((numbered word id).toList.drop (word.length + 1)) 0 = id := by
    have hsplit : (numbered word id).toList =
        (word.toList ++ ['_']) ++ Nat.toDigits 10 id := by
      rw [numbered_toList, List.append_assoc, List.singleton_append]
    rw [hsplit, List.drop_left' (by simp [String.length_toList])]
    exact Nat.ofDigitChars_ten_toDigits
  have hsome : (numberedParts? (numbered word id)).isSome = true := by
    rw [numberedParts?, List.findSome?_isSome_iff]
    exact ⟨word, hword, by simp [hdigits]⟩
  obtain ⟨⟨word', id'⟩, hparts⟩ := Option.isSome_iff_exists.mp hsome
  obtain ⟨-, heq⟩ := numberedParts?_eq_some hparts
  obtain ⟨rfl, rfl⟩ := numbered_inj heq
  exact hparts

/-- Changes the number of a generated symbol. -/
def renumberSymbol (ρ : Nat → Nat) (symbol : String) : String :=
  match numberedParts? symbol with
  | some (word, id) => numbered word (ρ id)
  | none => symbol

theorem renumberSymbol_numbered (ρ : Nat → Nat) {word : String} (hword : word ∈ numberedWords)
    (id : Nat) : renumberSymbol ρ (numbered word id) = numbered word (ρ id) := by
  rw [renumberSymbol, numberedParts?_numbered hword]

theorem renumberSymbol_of_ne_numbered (ρ : Nat → Nat) {symbol : String}
    (h : ∀ word ∈ numberedWords, ∀ id, symbol ≠ numbered word id) :
    renumberSymbol ρ symbol = symbol := by
  unfold renumberSymbol
  cases hparts : numberedParts? symbol with
  | none => rfl
  | some parts =>
      obtain ⟨hword, heq⟩ := numberedParts?_eq_some hparts
      exact absurd heq (h _ hword _)

theorem renumberSymbol_of_unreserved (ρ : Nat → Nat) {symbol : String}
    (h : isReservedSymbol symbol = false) : renumberSymbol ρ symbol = symbol := by
  apply renumberSymbol_of_ne_numbered
  rintro word hword id rfl
  rw [isReservedSymbol_numbered hword] at h
  cases h

theorem renumberSymbol_globalSymbol (ρ : Nat → Nat) (name : String) :
    renumberSymbol ρ (globalSymbol name) = globalSymbol name :=
  renumberSymbol_of_ne_numbered ρ fun _ hword id => (numbered_ne_globalSymbol hword id name).symm

@[simp] theorem renumberSymbol_empty (ρ : Nat → Nat) : renumberSymbol ρ "" = "" :=
  renumberSymbol_of_unreserved ρ (by decide)

@[simp] theorem renumberSymbol_isEmpty (ρ : Nat → Nat) (symbol : String) :
    (renumberSymbol ρ symbol).isEmpty = symbol.isEmpty := by
  unfold renumberSymbol
  cases hparts : numberedParts? symbol with
  | none => rfl
  | some parts =>
      obtain ⟨-, rfl⟩ := numberedParts?_eq_some hparts
      rw [numbered_isEmpty, numbered_isEmpty]

@[simp] theorem renumberSymbol_id (symbol : String) : renumberSymbol id symbol = symbol := by
  unfold renumberSymbol
  cases hparts : numberedParts? symbol with
  | none => rfl
  | some parts => exact (numberedParts?_eq_some hparts).2.symm

/-- Distinct symbols stay distinct. -/
theorem renumberSymbol_injective {ρ : Nat → Nat} (hρ : Function.Injective ρ) :
    Function.Injective (renumberSymbol ρ) := by
  intro a b h
  unfold renumberSymbol at h
  cases ha : numberedParts? a with
  | none =>
      cases hb : numberedParts? b with
      | none => simpa [ha, hb] using h
      | some parts =>
          obtain ⟨word, id⟩ := parts
          simp only [ha, hb] at h
          have hword := (numberedParts?_eq_some hb).1
          rw [h, numberedParts?_numbered hword] at ha
          cases ha
  | some parts =>
      obtain ⟨word, id⟩ := parts
      obtain ⟨hword, rfl⟩ := numberedParts?_eq_some ha
      cases hb : numberedParts? b with
      | none =>
          simp only [ha, hb] at h
          rw [← h, numberedParts?_numbered hword] at hb
          cases hb
      | some parts' =>
          obtain ⟨word', id'⟩ := parts'
          obtain ⟨-, rfl⟩ := numberedParts?_eq_some hb
          simp only [ha, hb] at h
          obtain ⟨rfl, hid⟩ := numbered_inj h
          rw [hρ hid]

def Operand.renumber (ρ : Nat → Nat) (o : Operand) : Operand :=
  { o with symbol := renumberSymbol ρ o.symbol }

def Instruction.renumber (ρ : Nat → Nat) (i : Instruction) : Instruction :=
  { i with
    operands := i.operands.map (Operand.renumber ρ)
    label := i.label.map (renumberSymbol ρ) }

def Code.renumber (ρ : Nat → Nat) (code : Code) : Code := code.map (Instruction.renumber ρ)

def DataRegion.renumber (ρ : Nat → Nat) : DataRegion → DataRegion
  | .reserve symbol quadwords => .reserve (renumberSymbol ρ symbol) quadwords
  | .string symbol bytes => .string (renumberSymbol ρ symbol) bytes

def CompiledUnit.renumber (ρ : Nat → Nat) (unit : CompiledUnit) : CompiledUnit :=
  { unit with
    code := unit.code.renumber ρ
    data := unit.data.map (DataRegion.renumber ρ) }

/-- One renumbering of all generated symbols of a program. -/
def Program.renumber (ρ : Nat → Nat) (p : Program) : Program :=
  { p with units := p.units.map (CompiledUnit.renumber ρ) }

theorem Operand.renumber_id : Operand.renumber id = id := by
  funext o
  simp [Operand.renumber]

theorem Instruction.renumber_id : Instruction.renumber id = id := by
  funext i
  have hlabel : i.label.map (renumberSymbol id) = i.label := by
    cases i.label <;> simp
  simp only [Instruction.renumber, Operand.renumber_id, List.map_id, hlabel, id]

theorem DataRegion.renumber_id : DataRegion.renumber id = id := by
  funext region
  cases region <;> simp [DataRegion.renumber]

theorem CompiledUnit.renumber_id : CompiledUnit.renumber id = id := by
  funext unit
  simp only [CompiledUnit.renumber, Code.renumber, Instruction.renumber_id,
    DataRegion.renumber_id, List.map_id, id]

theorem Program.renumber_id (p : Program) : p.renumber id = p := by
  simp only [Program.renumber, CompiledUnit.renumber_id, List.map_id]

namespace Operand

@[simp] theorem renumber_ofReg (ρ : Nat → Nat) (r : Reg) : (ofReg r).renumber ρ = ofReg r := by
  simp [renumber, ofReg]

@[simp] theorem renumber_imm (ρ : Nat → Nat) (v : Word) : (imm v).renumber ρ = imm v := by
  simp [renumber, imm]

@[simp] theorem renumber_frameSlot (ρ : Nat → Nat) (d : Word) :
    (frameSlot d).renumber ρ = frameSlot d := by
  simp [renumber, frameSlot]

@[simp] theorem renumber_element (ρ : Nat → Nat) (base index : Reg) (d : Word) :
    (element base index d).renumber ρ = element base index d := by
  simp [renumber, element]

theorem renumber_global (ρ : Nat → Nat) (symbol : String) (d : Word) :
    (global symbol d).renumber ρ = global (renumberSymbol ρ symbol) d := rfl

theorem renumber_sym (ρ : Nat → Nat) (symbol : String) :
    (sym symbol).renumber ρ = sym (renumberSymbol ρ symbol) := rfl

end Operand

namespace Code

@[simp] theorem renumber_nil (ρ : Nat → Nat) : renumber ρ [] = [] := rfl

@[simp] theorem renumber_append (ρ : Nat → Nat) (a b : Code) :
    renumber ρ (a ++ b) = renumber ρ a ++ renumber ρ b := by
  simp [renumber]

@[simp] theorem renumber_cons_make (ρ : Nat → Nat) (m : Mnemonic) (os : List Operand)
    (line : UInt32) (code : Code) :
    renumber ρ (.make m os line :: code) =
      .make m (os.map (Operand.renumber ρ)) line :: renumber ρ code := rfl

@[simp] theorem renumber_cons_labelled (ρ : Nat → Nat) (name : String) (line : UInt32)
    (code : Code) :
    renumber ρ (.labelled name line :: code) =
      .labelled (renumberSymbol ρ name) line :: renumber ρ code := rfl

end Code

namespace Emit

open Code

variable (ρ : Nat → Nat) (line : UInt32)

@[simp] theorem renumber_rightOperand (leaf : Bool) (right : Code) :
    renumber ρ (rightOperand line leaf right) = rightOperand line leaf (renumber ρ right) := by
  cases leaf <;> simp [rightOperand, mov, push, pop, rax, rbx]

@[simp] theorem renumber_applyOperator (op : BinaryOperator) :
    renumber ρ (applyOperator line op) = applyOperator line op := by
  cases op <;> simp [applyOperator, mov, rax, rbx, rdx]

@[simp] theorem renumber_applyCompare (op : CompareOperator) (id : Nat) :
    renumber ρ (applyCompare line op id) = applyCompare line op (ρ id) := by
  simp (disch := decide) [applyCompare, mov, jump, rax, rbx, Operand.renumber_sym,
    renumberSymbol_numbered]

theorem renumber_callPushed {callee : String} (hcallee : renumberSymbol ρ callee = callee)
    (count : Nat) : renumber ρ (callPushed line callee count) = callPushed line callee count := by
  unfold callPushed
  split <;> simp [rsp, Operand.renumber_sym, hcallee]

@[simp] theorem renumber_popWords (region : String) (n : Nat) :
    renumber ρ (popWords line region n) = popWords line (renumberSymbol ρ region) n := by
  induction n with
  | zero => rfl
  | succ n ih => simp [popWords, pop, mov, rax, Operand.renumber_global, ih]

@[simp] theorem renumber_fillRegion (region : String) (count staged : Nat) :
    renumber ρ (fillRegion line region count staged) =
      fillRegion line (renumberSymbol ρ region) count staged := by
  simp [fillRegion, mov, lea, rax, Operand.renumber_global, Operand.renumber_sym]

@[simp] theorem renumber_loadElement : renumber ρ (loadElement line) = loadElement line := by
  simp [loadElement, mov, rax]

@[simp] theorem renumber_epilogue : renumber ρ (epilogue line) = epilogue line := by
  simp [epilogue, mov, pop, rsp, rbp]

@[simp] theorem renumber_conditional (id : Nat) (test body orelse : Code) :
    renumber ρ (conditional line id test body orelse) =
      conditional line (ρ id) (renumber ρ test) (renumber ρ body) (renumber ρ orelse) := by
  simp (disch := decide) [conditional, branchIfZero, jump, rax, Operand.renumber_sym,
    renumberSymbol_numbered]

@[simp] theorem renumber_loop (id : Nat) (test body : Code) :
    renumber ρ (loop line id test body) =
      loop line (ρ id) (renumber ρ test) (renumber ρ body) := by
  simp (disch := decide) [loop, branchIfZero, jump, rax, Operand.renumber_sym,
    renumberSymbol_numbered]

theorem renumber_functionCode {fn : FunctionDef} (hname : renumberSymbol ρ fn.name = fn.name)
    (slots : Nat) (body : Code) :
    renumber ρ (functionCode fn slots body) = functionCode fn slots (renumber ρ body) := by
  unfold functionCode reserve
  split <;> simp [prologue, fallthrough, mov, push, rax, rbp, rsp, hname]

end Emit

namespace LoweringState

/-- Collected regions renumbered; nothing else collected holds a generated symbol. -/
@[simps]
def renumber (ρ : Nat → Nat) (st : LoweringState) : LoweringState :=
  { st with data := st.data.map (DataRegion.renumber ρ) }

end LoweringState

namespace Lower

variable {α β γ δ : Type}

/-- Where a lowering stands, whether or not it failed. -/
def reached : EStateM.Result NodeError LoweringState α → LoweringState
  | .ok _ st => st
  | .error _ st => st

/-- A result renumbered. Errors name no generated symbol. -/
def renumbered (ρ : Nat → Nat) (f : α → β) :
    EStateM.Result NodeError LoweringState α → EStateM.Result NodeError LoweringState β
  | .ok a st => .ok (f a) (st.renumber ρ)
  | .error e st => .error e (st.renumber ρ)

/-- Under the supply `label'`, `y` does what `x` does under `label`, renumbered, as far
as the supplies agree up to `ρ` on the numbers `x` draws. -/
def Follows (ρ label label' : Nat → Nat) (f : α → β) (x : Lower α) (y : Lower β) : Prop :=
  ∀ st, st.drawn ≤ (reached (x st)).drawn ∧
    ((∀ k, st.drawn ≤ k → k < (reached (x st)).drawn → label' k = ρ (label k)) →
      y (st.renumber ρ) = renumbered ρ f (x st))

variable {ρ label label' : Nat → Nat}

theorem Follows.pure {f : α → β} {a : α} {b : β} (hab : f a = b) :
    Follows ρ label label' f (pure a) (pure b) := by
  intro st
  subst hab
  exact ⟨Nat.le_refl _, fun _ => rfl⟩

theorem Follows.throw (f : α → β) (e : NodeError) :
    Follows ρ label label' f (throw e) (throw e) := by
  intro st
  exact ⟨Nat.le_refl _, fun _ => rfl⟩

theorem Follows.bind {f : α → β} {g : γ → δ} {x : Lower α} {y : Lower β} {k : α → Lower γ}
    {l : β → Lower δ} (hx : Follows ρ label label' f x y)
    (hk : ∀ a, Follows ρ label label' g (k a) (l (f a))) :
    Follows ρ label label' g (x >>= k) (y >>= l) := by
  intro st
  obtain ⟨hle, hrun⟩ := hx st
  cases hxst : x st with
  | error e st₁ =>
      rw [hxst] at hle hrun
      rw [bind_of_error hxst]
      refine ⟨hle, fun hlabel => ?_⟩
      rw [bind_of_error (hrun hlabel)]
      rfl
  | ok a st₁ =>
      rw [hxst] at hle hrun
      rw [bind_of_ok hxst]
      obtain ⟨hle', hrun'⟩ := hk a st₁
      refine ⟨Nat.le_trans hle hle', fun hlabel => ?_⟩
      have hfirst := hrun fun n hlo hhi => hlabel n hlo (Nat.lt_of_lt_of_le hhi hle')
      rw [bind_of_ok hfirst]
      exact hrun' fun n hlo hhi => hlabel n (Nat.le_trans hle hlo) hhi

theorem Follows.within {f : α → β} {x : Lower α} {y : Lower β} (segment : Segment)
    (hx : Follows ρ label label' f x y) :
    Follows ρ label label' f (within segment x) (within segment y) := by
  intro st
  obtain ⟨hle, hrun⟩ := hx st
  unfold Lower.within
  cases hxst : x st with
  | error e st₁ =>
      rw [hxst] at hle hrun
      refine ⟨hle, fun hlabel => ?_⟩
      rw [hrun hlabel]
      rfl
  | ok a st₁ =>
      rw [hxst] at hle hrun
      refine ⟨hle, fun hlabel => ?_⟩
      rw [hrun hlabel]
      rfl

theorem Follows.nested {f : α → β} {x : Lower α} {y : Lower β} (depth : Nat)
    (hx : Follows ρ label label' f x y) :
    Follows ρ label label' f (nested depth x) (nested depth y) := by
  unfold Lower.nested
  split
  · exact hx
  · exact Follows.throw f _

theorem Follows.modify {g : LoweringState → LoweringState} {h : LoweringState → LoweringState}
    (hdrawn : ∀ st, (g st).drawn = st.drawn)
    (hcomm : ∀ st, h (st.renumber ρ) = (g st).renumber ρ) :
    Follows ρ label label' id (modify g) (modify h) := by
  intro st
  refine ⟨Nat.le_of_eq (hdrawn st).symm, fun _ => ?_⟩
  change EStateM.Result.ok () (h (st.renumber ρ)) = .ok () ((g st).renumber ρ)
  rw [hcomm]

theorem follows_drawLabel (ρ : Nat → Nat) (env env' : LoweringEnv) :
    Follows ρ env.label env'.label ρ (drawLabel env) (drawLabel env') := by
  intro st
  refine ⟨Nat.le_succ _, fun hlabel => ?_⟩
  have hnext : env'.label st.drawn = ρ (env.label st.drawn) :=
    hlabel st.drawn (Nat.le_refl _) (Nat.lt_succ_self _)
  change EStateM.Result.ok (env'.label st.drawn) _ = .ok (ρ (env.label st.drawn)) _
  rw [hnext]
  rfl

theorem follows_addRegion (region : DataRegion) :
    Follows ρ label label' id (addRegion region) (addRegion (region.renumber ρ)) := by
  apply Follows.modify
  · exact fun _ => rfl
  · intro st
    simp [LoweringState.renumber]

theorem follows_addExtern (name : String) :
    Follows ρ label label' id (addExtern name) (addExtern name) :=
  Follows.modify (fun _ => rfl) (fun _ => rfl)

theorem follows_declareLocal (name : String) :
    Follows ρ label label' id (declareLocal name) (declareLocal name) :=
  Follows.modify (fun _ => rfl) (fun _ => rfl)

theorem follows_slot (name : String) :
    Follows ρ label label' (Operand.renumber ρ) (slot name) (slot name) := by
  intro st
  rw [slot_eq, slot_eq]
  cases hslot : st.scope.displacement? name <;>
    exact ⟨Nat.le_refl _, fun _ => by simp [renumbered, hslot]⟩

/-- What a name means holds no generated symbol. -/
theorem follows_resolve (name : String) :
    Follows ρ label label'
      (fun
        | .builtin v => .builtin v
        | .slot storage => .slot (storage.renumber ρ)
        | .global storage => .global (storage.renumber ρ))
      (resolve name) (resolve name) := by
  intro st
  rw [resolve_eq, resolve_eq]
  unfold Scope.resolve
  cases hbuiltin : builtinConstant? name with
  | some v => exact ⟨Nat.le_refl _, fun _ => rfl⟩
  | none =>
      cases hslot : st.scope.displacement? name with
      | some d => exact ⟨Nat.le_refl _, fun _ => by simp [renumbered, hslot]⟩
      | none =>
          refine ⟨Nat.le_refl _, fun _ => ?_⟩
          simp [renumbered, hslot, Operand.renumber_global, renumberSymbol_globalSymbol]
          rfl

section Code

variable {env env' : LoweringEnv}

open Emit

theorem follows_constant (line : UInt32) (c : Constant) :
    Follows ρ env.label env'.label (Code.renumber ρ) (constant env line c)
      (constant env' line c) := by
  cases c with
  | int v => exact Follows.pure (by simp [mov, rax])
  | bool b => exact Follows.pure (by simp [mov, rax])
  | none => exact Follows.pure (by simp [mov, rax])
  | string bytes =>
      refine (follows_drawLabel ρ env env').bind fun id => ?_
      have hsymbol : renumberSymbol ρ (numbered "str" id) = numbered "str" (ρ id) :=
        renumberSymbol_numbered ρ (by decide) id
      have hregion : Follows ρ env.label env'.label _ _ _ :=
        follows_addRegion (.string (numbered "str" id) bytes)
      rw [DataRegion.renumber, hsymbol] at hregion
      refine hregion.bind fun _ => Follows.pure ?_
      simp [lea, rax, Operand.renumber_sym, hsymbol]

theorem follows_name (line : UInt32) (id : String) :
    Follows ρ label label' (Code.renumber ρ) (name line id) (name line id) := by
  refine (follows_resolve id).bind fun r => ?_
  cases r with
  | builtin v => exact Follows.pure (by simp [mov, rax])
  | slot storage => exact Follows.pure (by simp [mov, rax])
  | global storage => exact Follows.pure (by simp [mov, rax])

theorem follows_operands {line : UInt32} {leftField rightField : String} {leaf : Bool}
    {left right left' right' : Lower Code}
    (hleft : Follows ρ label label' (Code.renumber ρ) left left')
    (hright : Follows ρ label label' (Code.renumber ρ) right right') :
    Follows ρ label label' (Code.renumber ρ) (operands line leftField rightField leaf left right)
      (operands line leftField rightField leaf left' right') := by
  refine (hleft.within _).bind fun l => (hright.within _).bind fun r => Follows.pure ?_
  simp

theorem follows_pushEach {line : UInt32} {field : String} {items items' : List (Lower Code)}
    (h : List.Forall₂ (Follows ρ label label' (Code.renumber ρ)) items items') (index : Nat) :
    Follows ρ label label' (Code.renumber ρ) (pushEach line field index items)
      (pushEach line field index items') := by
  induction h generalizing index with
  | nil => exact Follows.pure rfl
  | cons hhead _ ih =>
      refine (hhead.within _).bind fun head => (ih (index + 1)).bind fun tail => Follows.pure ?_
      simp [push, rax]

theorem follows_pushPairs {line : UInt32} {keys keys' values values' : List (Lower Code)}
    (hkeys : List.Forall₂ (Follows ρ label label' (Code.renumber ρ)) keys keys')
    (hvalues : List.Forall₂ (Follows ρ label label' (Code.renumber ρ)) values values')
    (index : Nat) :
    Follows ρ label label' (Code.renumber ρ) (pushPairs line index keys values)
      (pushPairs line index keys' values') := by
  induction hkeys generalizing values values' index with
  | nil => exact Follows.pure rfl
  | cons hkey _ ih =>
      cases hvalues with
      | nil => exact Follows.pure rfl
      | cons hvalue hrest =>
          refine (hkey.within _).bind fun k => (hvalue.within _).bind fun v =>
            (ih hrest (index + 1)).bind fun tail => Follows.pure ?_
          simp [push, rax]

theorem follows_newRegion {word : String} (hword : word ∈ numberedWords) (quadwords : Nat) :
    Follows ρ env.label env'.label (renumberSymbol ρ) (newRegion env word quadwords)
      (newRegion env' word quadwords) := by
  refine (follows_drawLabel ρ env env').bind fun id => ?_
  have hsymbol := renumberSymbol_numbered ρ hword id
  have hregion : Follows ρ env.label env'.label _ _ _ :=
    follows_addRegion (.reserve (numbered word id) quadwords)
  rw [DataRegion.renumber, hsymbol] at hregion
  exact hregion.bind fun _ => Follows.pure hsymbol

theorem follows_checkCallee (harity : env'.arity? = env.arity?) (line : UInt32)
    (callee : String) (count : Nat) :
    Follows ρ label label' id (checkCallee env line callee count)
      (checkCallee env' line callee count) := by
  unfold checkCallee
  rw [harity]
  cases env.arity? callee with
  | some expected =>
      dsimp only
      split
      · exact Follows.pure rfl
      · exact Follows.throw id _
  | none =>
      dsimp only
      split
      · exact Follows.throw id _
      · exact follows_addExtern callee

theorem forall₂_map {F F' : Tree → Lower Code} {ts : List Tree}
    (h : ∀ t ∈ ts, Follows ρ label label' (Code.renumber ρ) (F t) (F' t)) :
    List.Forall₂ (Follows ρ label label' (Code.renumber ρ)) (ts.map F) (ts.map F') := by
  rw [List.forall₂_map_left_iff, List.forall₂_map_right_iff, List.forall₂_same]
  exact h

/-- The two supplies belong to one compilation, whose functions have unreserved names. -/
structure Agrees (env env' : LoweringEnv) : Prop where
  arity : env'.arity? = env.arity?
  unreserved : ∀ name n, env.arity? name = some n → isReservedSymbol name = false

/-- A call that is accepted names no generated symbol. -/
theorem follows_call (hagrees : Agrees env env') (line : UInt32) (callee : String) (count : Nat)
    {pushed pushed' : Lower Code}
    (hpushed : Follows ρ env.label env'.label (Code.renumber ρ) pushed pushed') :
    Follows ρ env.label env'.label (Code.renumber ρ)
      (do checkCallee env line callee count
          let pushed ← pushed
          return pushed ++ callPushed line callee count)
      (do checkCallee env' line callee count
          let pushed ← pushed'
          return pushed ++ callPushed line callee count) := by
  cases hreserved : isReservedSymbol callee with
  | false =>
      have hcallee := renumberSymbol_of_unreserved ρ hreserved
      refine (follows_checkCallee hagrees.arity line callee count).bind fun _ =>
        hpushed.bind fun code => Follows.pure ?_
      rw [Code.renumber_append, renumber_callPushed ρ line hcallee]
  | true =>
      have harity : env.arity? callee = none := by
        cases harity : env.arity? callee with
        | none => rfl
        | some n =>
            rw [hagrees.unreserved callee n harity] at hreserved
            cases hreserved
      have hfail : ∀ e : LoweringEnv, e.arity? callee = none → ∀ st,
          checkCallee e line callee count st =
            .error { cause := .reservedCallee callee line } st := by
        intro e he st
        simp only [checkCallee, he, hreserved, if_true]
        rfl
      intro st
      rw [bind_of_error (hfail env harity st),
        bind_of_error (hfail env' (by rw [hagrees.arity, harity]) _)]
      exact ⟨Nat.le_refl _, fun _ => rfl⟩

theorem follows_expression (hagrees : Agrees env env') (t : Tree) (depth : Nat) :
    Follows ρ env.label env'.label (Code.renumber ρ) (expression env depth t)
      (expression env' depth t) := by
  match t with
  | .absent =>
      rw [expression, expression]
      exact Follows.throw _ _
  | .constant line c =>
      rw [expression, expression]
      exact (follows_constant line c).nested depth
  | .name line id =>
      rw [expression, expression]
      exact (follows_name line id).nested depth
  | .binary line op left right =>
      rw [expression, expression]
      apply Follows.nested
      refine (follows_operands (follows_expression hagrees left (depth + 1))
        (follows_expression hagrees right (depth + 1))).bind fun code => ?_
      exact Follows.pure (by simp)
  | .compare line op left right =>
      rw [expression, expression]
      apply Follows.nested
      refine (follows_operands (follows_expression hagrees left (depth + 1))
        (follows_expression hagrees right (depth + 1))).bind fun code => ?_
      refine (follows_drawLabel ρ env env').bind fun id => ?_
      exact Follows.pure (by simp)
  | .call line callee args =>
      rw [expression, expression, expressions_eq_map, expressions_eq_map]
      apply Follows.nested
      refine follows_call hagrees line callee args.length (follows_pushEach ?_ 0)
      exact forall₂_map fun t _ => follows_expression hagrees t (depth + 1)
  | .list line elements =>
      rw [expression, expression, expressions_eq_map, expressions_eq_map]
      apply Follows.nested
      refine (follows_newRegion (by decide) _).bind fun region => ?_
      refine (follows_pushEach (forall₂_map fun t _ =>
        follows_expression hagrees t (depth + 1)) 0).bind fun code => ?_
      exact Follows.pure (by simp)
  | .dict line keys values =>
      rw [expression, expression, expressions_eq_map, expressions_eq_map, expressions_eq_map,
        expressions_eq_map]
      apply Follows.nested
      split
      · exact Follows.throw _ _
      · refine (follows_newRegion (by decide) _).bind fun region => ?_
        refine (follows_pushPairs
          (forall₂_map fun t _ => follows_expression hagrees t (depth + 1))
          (forall₂_map fun t _ => follows_expression hagrees t (depth + 1)) 0).bind fun code => ?_
        exact Follows.pure (by simp)
  | .subscript line value index =>
      rw [expression, expression]
      apply Follows.nested
      refine (follows_operands (follows_expression hagrees value (depth + 1))
        (follows_expression hagrees index (depth + 1))).bind fun code => ?_
      exact Follows.pure (by simp)
  | .attribute .. | .functionDef .. | .assign .. | .augAssign .. | .ret .. | .expr ..
  | .ifElse .. | .whileLoop .. =>
      rw [expression, expression]
      · exact (Follows.throw _ _).nested depth
      all_goals simp

theorem follows_declareTarget (t : Tree) :
    Follows ρ label label' id (declareTarget t) (declareTarget t) := by
  unfold declareTarget
  split
  · split
    · exact Follows.throw id _
    · exact follows_declareLocal _
  · exact Follows.pure rfl

theorem follows_declareTargets (ts : List Tree) :
    Follows ρ label label' id (declareTargets ts) (declareTargets ts) := by
  induction ts with
  | nil => exact Follows.pure rfl
  | cons t ts ih => exact (follows_declareTarget t).bind fun _ => ih

theorem follows_store (hagrees : Agrees env env') (t : Tree) (depth : Nat) :
    Follows ρ env.label env'.label (Code.renumber ρ) (store env depth t) (store env' depth t) := by
  cases t with
  | name line id =>
      rw [store, store]
      refine (follows_slot id).bind fun storage => ?_
      exact Follows.pure (by simp [mov, rax])
  | subscript line value index =>
      rw [store, store]
      refine (follows_operands (follows_expression hagrees value depth)
        (follows_expression hagrees index depth)).bind fun code => ?_
      exact Follows.pure (by simp [mov, push, pop, storeElement, rax, rcx])
  | absent => exact Follows.throw _ _
  | _ =>
      rw [store, store]
      · exact Follows.throw _ _
      all_goals simp

theorem follows_storeEach (hagrees : Agrees env env') (ts : List Tree) (depth index : Nat) :
    Follows ρ env.label env'.label (Code.renumber ρ) (storeEach env depth index ts)
      (storeEach env' depth index ts) := by
  induction ts generalizing index with
  | nil => exact Follows.pure rfl
  | cons t ts ih =>
      rw [storeEach, storeEach]
      refine ((follows_store hagrees t depth).within _).bind fun head => ?_
      refine (ih (index + 1)).bind fun tail => ?_
      exact Follows.pure (by simp)

theorem follows_assign (hagrees : Agrees env env') (depth : Nat) (line : UInt32)
    (targets : List Tree) (value : Tree) :
    Follows ρ env.label env'.label (Code.renumber ρ) (assign env depth line targets value)
      (assign env' depth line targets value) := by
  unfold assign
  split
  · exact Follows.throw _ _
  · refine (follows_declareTargets targets).bind fun _ => ?_
    refine ((follows_expression hagrees value depth).within _).bind fun code => ?_
    refine (follows_storeEach hagrees targets depth 0).bind fun stores => ?_
    exact Follows.pure (by simp)

theorem follows_augAssign (hagrees : Agrees env env') (depth : Nat) (line : UInt32)
    (target : Tree) (op : BinaryOperator) (value : Tree) :
    Follows ρ env.label env'.label (Code.renumber ρ) (augAssign env depth line target op value)
      (augAssign env' depth line target op value) := by
  unfold augAssign
  split
  · refine ((follows_operands (follows_expression hagrees _ depth)
      (follows_expression hagrees _ depth)).within _).bind fun place => ?_
    refine ((follows_expression hagrees value depth).within _).bind fun right => ?_
    exact Follows.pure (by simp [mov, push, pop, storeElement, rax, rbx, rcx])
  · refine (follows_declareTarget target).bind fun _ => ?_
    refine (follows_operands (follows_expression hagrees target depth)
      (follows_expression hagrees value depth)).bind fun code => ?_
    refine ((follows_store hagrees target depth).within _).bind fun stored => ?_
    exact Follows.pure (by simp)

theorem follows_block {field : String} {items items' : List (Lower Code)}
    (h : List.Forall₂ (Follows ρ label label' (Code.renumber ρ)) items items') (index : Nat) :
    Follows ρ label label' (Code.renumber ρ) (block field index items)
      (block field index items') := by
  induction h generalizing index with
  | nil => exact Follows.pure rfl
  | cons hhead _ ih =>
      refine (hhead.within _).bind fun head => ?_
      refine (ih (index + 1)).bind fun tail => ?_
      exact Follows.pure (by simp)

theorem follows_statement (hagrees : Agrees env env') (t : Tree) (depth : Nat) :
    Follows ρ env.label env'.label (Code.renumber ρ) (statement env depth t)
      (statement env' depth t) := by
  match t with
  | .absent =>
      rw [statement, statement]
      exact Follows.throw _ _
  | .assign line targets value =>
      rw [statement, statement]
      exact (follows_assign hagrees (depth + 1) line targets value).nested depth
  | .augAssign line target op value =>
      rw [statement, statement]
      exact (follows_augAssign hagrees (depth + 1) line target op value).nested depth
  | .ret line .absent =>
      rw [statement, statement]
      exact (Follows.pure (by simp [mov, rax])).nested depth
  | .expr line value =>
      rw [statement, statement]
      exact ((follows_expression hagrees value (depth + 1)).within _).nested depth
  | .ifElse line test body orelse =>
      rw [statement, statement]
      simp only [statements_eq_map]
      apply Follows.nested
      refine (follows_drawLabel ρ env env').bind fun id => ?_
      refine ((follows_expression hagrees test (depth + 1)).within _).bind fun ct => ?_
      refine (follows_block (forall₂_map fun t _ =>
        follows_statement hagrees t (depth + 1)) 0).bind fun cb => ?_
      refine (follows_block (forall₂_map fun t _ =>
        follows_statement hagrees t (depth + 1)) 0).bind fun co => ?_
      exact Follows.pure (by simp)
  | .whileLoop line test body =>
      rw [statement, statement]
      simp only [statements_eq_map]
      apply Follows.nested
      refine (follows_drawLabel ρ env env').bind fun id => ?_
      refine ((follows_expression hagrees test (depth + 1)).within _).bind fun ct => ?_
      refine (follows_block (forall₂_map fun t _ =>
        follows_statement hagrees t (depth + 1)) 0).bind fun cb => ?_
      exact Follows.pure (by simp)
  | .functionDef .. =>
      rw [statement, statement]
      exact (Follows.throw _ _).nested depth
  | .ret line (.constant ..) | .ret line (.name ..) | .ret line (.binary ..)
  | .ret line (.compare ..) | .ret line (.call ..) | .ret line (.list ..)
  | .ret line (.dict ..) | .ret line (.subscript ..) | .ret line (.attribute ..)
  | .ret line (.functionDef ..) | .ret line (.assign ..) | .ret line (.augAssign ..)
  | .ret line (.ret ..) | .ret line (.expr ..) | .ret line (.ifElse ..)
  | .ret line (.whileLoop ..) =>
      rw [statement, statement]
      · apply Follows.nested
        refine ((follows_expression hagrees _ (depth + 1)).within _).bind fun code => ?_
        exact Follows.pure (by simp)
      all_goals simp
  | .binary .. | .compare .. | .call .. | .list .. | .dict .. | .subscript ..
  | .attribute .. | .name .. | .constant .. =>
      rw [statement, statement]
      · exact (follows_expression hagrees _ (depth + 1)).nested depth
      all_goals simp

end Code

end Lower

/-- The outcome of lowering a function, renumbered. -/
def LoweredFunction.renumber (ρ : Nat → Nat) (f : LoweredFunction) : LoweredFunction :=
  { f with result := f.result.map (CompiledUnit.renumber ρ) }

theorem LoweredFunction.renumber_id (f : LoweredFunction) : f.renumber id = f := by
  obtain ⟨result, drawn, promoted⟩ := f
  cases result <;> simp [LoweredFunction.renumber, Except.map, CompiledUnit.renumber_id]

/-- A function lowered with a renumbered supply comes out renumbered: the same
failure, or the same unit up to its generated symbols. -/
theorem LoweringEnv.lower_renumber {ρ : Nat → Nat} {env env' : LoweringEnv}
    (hagrees : Lower.Agrees env env') {fn : FunctionDef}
    (hname : isReservedSymbol fn.name = false)
    (hlabel : ∀ k < (env.lower fn).drawn, env'.label k = ρ (env.label k)) :
    env'.lower fn = (env.lower fn).renumber ρ := by
  unfold LoweringEnv.lower at hlabel ⊢
  cases hparams : ({ owner := fn.name } : Scope).declareParams 0 fn.params.length fn.params with
  | error e => simp only [hparams, LoweredFunction.renumber, Except.map]
  | ok entry =>
      have hbody : Lower.Follows ρ env.label env'.label (Code.renumber ρ)
          (Lower.block "body" 0 (Lower.statements env 0 fn.body))
          (Lower.block "body" 0 (Lower.statements env' 0 fn.body)) := by
        simp only [Lower.statements_eq_map]
        exact Lower.follows_block
          (Lower.forall₂_map fun t _ => Lower.follows_statement hagrees t 0) 0
      obtain ⟨-, hrun⟩ := hbody { scope := entry }
      simp only [hparams] at hlabel ⊢
      cases hblock : Lower.block "body" 0 (Lower.statements env 0 fn.body) { scope := entry } with
      | error e st =>
          rw [hblock] at hrun
          simp only [hblock] at hlabel
          have hrun' := hrun fun k _ hk => hlabel k hk
          simp only [LoweringState.renumber, List.map_nil] at hrun'
          simp only [hrun', Lower.renumbered, LoweredFunction.renumber, Except.map,
            LoweringState.renumber]
      | ok body st =>
          rw [hblock] at hrun
          simp only [hblock] at hlabel
          have hrun' := hrun fun k _ hk => hlabel k hk
          simp only [LoweringState.renumber, List.map_nil] at hrun'
          have hcode := Emit.renumber_functionCode ρ (renumberSymbol_of_unreserved ρ hname)
            st.scope.frameSlots body
          simp only [hrun', Lower.renumbered, LoweredFunction.renumber, Except.map,
            LoweringState.renumber, patchReservation_unpatched, CompiledUnit.renumber, hcode]

/-- How many numbers a function draws does not depend on the numbers. -/
theorem LoweringEnv.lower_drawn_eq {env env' : LoweringEnv} (hagrees : Lower.Agrees env env')
    {fn : FunctionDef} (hname : isReservedSymbol fn.name = false) :
    (env'.lower fn).drawn = (env.lower fn).drawn := by
  -- Both are renumberings of the function lowered with the numbers 0, 1, 2 and so on.
  have hplain : ∀ e : LoweringEnv, Lower.Agrees { env with label := id } e →
      (e.lower fn).drawn = (LoweringEnv.lower { env with label := id } fn).drawn := by
    intro e he
    rw [LoweringEnv.lower_renumber (ρ := e.label) he hname (fun _ _ => rfl)]
    rfl
  rw [hplain env' ⟨hagrees.arity, hagrees.unreserved⟩, hplain env ⟨rfl, hagrees.unreserved⟩]

theorem Declarable.agrees {fns : List FunctionDef} (h : Declarable fns)
    (label label' : Nat → Nat) : Lower.Agrees (envOf fns label) (envOf fns label') := by
  refine ⟨rfl, ?_⟩
  intro name n hname
  obtain ⟨gn, hgn, rfl, -⟩ := exists_of_arityOf hname
  exact h.unreserved gn hgn

/-- The outcomes of all functions under renumbered supplies. -/
theorem Compile.outcomesUnder_renumber {ρ : Nat → Nat} {fns : List FunctionDef}
    {labels labels' : Nat → Nat → Nat} (hfns : Declarable fns)
    (hlabel : ∀ i fn, fns[i]? = some fn → ∀ k < ((envOf fns (labels i)).lower fn).drawn,
      labels' i k = ρ (labels i k)) :
    outcomesUnder fns labels' = (outcomesUnder fns labels).map (LoweredFunction.renumber ρ) := by
  apply List.ext_getElem?
  intro i
  rw [List.getElem?_map, outcomesUnder_getElem?, outcomesUnder_getElem?, Option.map_map]
  cases hfn : fns[i]? with
  | none => rfl
  | some fn =>
      have hname := hfns.unreserved fn (List.mem_of_getElem? hfn)
      exact congrArg some
        (LoweringEnv.lower_renumber (hfns.agrees _ _) hname (hlabel i fn hfn))

/-- Linking renumbered outcomes gives the renumbered program, or the same failure. -/
theorem Compile.link_renumber (ρ : Nat → Nat) (outcomes : List LoweredFunction) :
    link (outcomes.map (LoweredFunction.renumber ρ)) = (link outcomes).map (Program.renumber ρ) := by
  have hcollect : ∀ results : List (Except CompileError CompiledUnit),
      collect (results.map (Except.map (CompiledUnit.renumber ρ))) =
        (collect results).map (List.map (CompiledUnit.renumber ρ)) := by
    intro results
    induction results with
    | nil => rfl
    | cons r rest ih =>
        cases r with
        | error e => rfl
        | ok unit =>
            simp only [List.map_cons, Except.map, collect, ih]
            cases collect rest <;> rfl
  have hgather : ∀ globals, gather globals (outcomes.map (LoweredFunction.renumber ρ)) =
      gather globals outcomes := by
    intro globals
    rw [gather, List.foldl_map]
    rfl
  have hresults : (outcomes.map (LoweredFunction.renumber ρ)).map (·.result) =
      (outcomes.map (·.result)).map (Except.map (CompiledUnit.renumber ρ)) := by
    simp [LoweredFunction.renumber]
  rw [link, link, hresults, hcollect, hgather]
  cases collect (outcomes.map (·.result)) <;> rfl

end Arbor
