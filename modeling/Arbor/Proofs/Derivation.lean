import Mathlib
import Arbor.Lowering.Function

/-!
What a successful lowering did, as a derivation. `Lowers env phrase st code st'`
says that the phrase, lowered from the collected state `st`, gave `code` and left
`st'`. A phrase is any part of a function that lowering is asked to lower, so one
relation covers expressions, staged lists, assignment targets and statements, and
a property of lowered code is one induction over it. Depth, paths and messages
matter only to failures and do not appear.
-/

namespace Arbor

/-- A computation that ends well did so in its first part and then in its second. -/
theorem bind_eq_ok {ε σ α β : Type} {x : EStateM ε σ α} {f : α → EStateM ε σ β}
    {s s' : σ} {b : β} (h : (x >>= f) s = .ok b s') :
    ∃ a s₁, x s = .ok a s₁ ∧ f a s₁ = .ok b s' := by
  change EStateM.bind x f s = .ok b s' at h
  unfold EStateM.bind at h
  cases hx : x s with
  | ok a s₁ =>
      rw [hx] at h
      exact ⟨a, s₁, rfl, h⟩
  | error e s₁ =>
      rw [hx] at h
      cases h

theorem bind_of_ok {ε σ α β : Type} {x : EStateM ε σ α} {f : α → EStateM ε σ β}
    {s s₁ : σ} {a : α} (h : x s = .ok a s₁) : (x >>= f) s = f a s₁ := by
  change EStateM.bind x f s = _
  simp only [EStateM.bind, h]

theorem bind_of_error {ε σ α β : Type} {x : EStateM ε σ α} {f : α → EStateM ε σ β}
    {s s₁ : σ} {e : ε} (h : x s = .error e s₁) : (x >>= f) s = .error e s₁ := by
  change EStateM.bind x f s = _
  simp only [EStateM.bind, h]

theorem pure_eq_ok {ε σ α : Type} {a b : α} {s s' : σ}
    (h : (pure a : EStateM ε σ α) s = .ok b s') : a = b ∧ s = s' := by
  cases h
  exact ⟨rfl, rfl⟩

namespace LoweringState

@[simps]
def draw (st : LoweringState) : LoweringState := { st with drawn := st.drawn + 1 }

@[simps]
def withRegion (st : LoweringState) (region : DataRegion) : LoweringState :=
  { st with data := st.data ++ [region] }

@[simps]
def withExtern (st : LoweringState) (name : String) : LoweringState :=
  { st with externs := st.externs.add name }

@[simps]
def promote (st : LoweringState) (name : String) : LoweringState :=
  { st with promoted := st.promoted.add name }

@[simps]
def declare (st : LoweringState) (name : String) : LoweringState :=
  { st with scope := st.scope.declareLocal name }

/-- The name targets of an assignment become local, from left to right. -/
def declareTargets (st : LoweringState) : List Tree → LoweringState
  | [] => st
  | .name _ id :: rest => (st.declare id).declareTargets rest
  | _ :: rest => st.declareTargets rest

/-- Declaring changes the scope only. -/
theorem declareTargets_eq (st : LoweringState) (ts : List Tree) :
    st.declareTargets ts = { st with scope := (st.declareTargets ts).scope } := by
  fun_induction declareTargets st ts with
  | case1 => rfl
  | case2 st _ id rest ih => rw [ih]; rfl
  | case3 st t rest _ ih => exact ih

@[simp] theorem declareTargets_drawn (st : LoweringState) (ts : List Tree) :
    (st.declareTargets ts).drawn = st.drawn := by rw [declareTargets_eq]

@[simp] theorem declareTargets_data (st : LoweringState) (ts : List Tree) :
    (st.declareTargets ts).data = st.data := by rw [declareTargets_eq]

@[simp] theorem declareTargets_externs (st : LoweringState) (ts : List Tree) :
    (st.declareTargets ts).externs = st.externs := by rw [declareTargets_eq]

@[simp] theorem declareTargets_promoted (st : LoweringState) (ts : List Tree) :
    (st.declareTargets ts).promoted = st.promoted := by rw [declareTargets_eq]

end LoweringState

/-- The word of a constant that is no string. -/
def Constant.word? : Constant → Option Word
  | .int v => some v
  | .bool b => some (if b then 1 else 0)
  | .none => some 0
  | .string _ => Option.none

/-- A part of a function. `pushes` and `pairs` are lists of expressions whose
values are pushed as they come. -/
inductive Phrase where
  | expression (t : Tree)
  | pushes (line : UInt32) (ts : List Tree)
  | pairs (line : UInt32) (keys values : List Tree)
  | target (t : Tree)
  | targets (ts : List Tree)
  | statement (t : Tree)
  | block (ts : List Tree)

open Emit in
inductive Lowers (env : LoweringEnv) :
    Phrase → LoweringState → Code → LoweringState → Prop where
  | constant {line c v st} (hword : c.word? = some v) :
      Lowers env (.expression (.constant line c)) st [mov line rax (.imm v)] st
  | string {line bytes st} :
      Lowers env (.expression (.constant line (.string bytes))) st
        [lea line rax (numbered "str" (env.label st.drawn))]
        (st.draw.withRegion (.string (numbered "str" (env.label st.drawn)) bytes))
  | builtin {line id v st} (hbuiltin : builtinConstant? id = some v) :
      Lowers env (.expression (.name line id)) st [mov line rax (.imm v)] st
  | slot {line id d st} (hbuiltin : builtinConstant? id = none)
      (hslot : st.scope.displacement? id = some d) :
      Lowers env (.expression (.name line id)) st [mov line rax (.frameSlot d)] st
  | global {line id st} (hbuiltin : builtinConstant? id = none)
      (hslot : st.scope.displacement? id = none) :
      Lowers env (.expression (.name line id)) st
        [mov line rax (.global (globalSymbol id) 0)] (st.promote id)
  | binary {line op left right st cl st₁ cr st₂}
      (hleft : Lowers env (.expression left) st cl st₁)
      (hright : Lowers env (.expression right) st₁ cr st₂) :
      Lowers env (.expression (.binary line op left right)) st
        (cl ++ rightOperand line right.isLeaf cr ++ applyOperator line op) st₂
  | compare {line op left right st cl st₁ cr st₂}
      (hleft : Lowers env (.expression left) st cl st₁)
      (hright : Lowers env (.expression right) st₁ cr st₂) :
      Lowers env (.expression (.compare line op left right)) st
        (cl ++ rightOperand line right.isLeaf cr ++
          applyCompare line op (env.label st₂.drawn)) st₂.draw
  | call {line callee args st code st'} (harity : env.arity? callee = some args.length)
      (hargs : Lowers env (.pushes line args) st code st') :
      Lowers env (.expression (.call line callee args)) st
        (code ++ callPushed line callee args.length) st'
  | externalCall {line callee args st code st'} (harity : env.arity? callee = none)
      (hreserved : isReservedSymbol callee = false)
      (hargs : Lowers env (.pushes line args) (st.withExtern callee) code st') :
      Lowers env (.expression (.call line callee args)) st
        (code ++ callPushed line callee args.length) st'
  | list {line elements st code st'}
      (helements : Lowers env (.pushes line elements)
        (st.draw.withRegion (.reserve (numbered "list" (env.label st.drawn))
          (elements.length + 1))) code st') :
      Lowers env (.expression (.list line elements)) st
        (code ++ fillRegion line (numbered "list" (env.label st.drawn))
          elements.length elements.length) st'
  | dict {line keys values st code st'} (hlength : keys.length = values.length)
      (hpairs : Lowers env (.pairs line keys values)
        (st.draw.withRegion (.reserve (numbered "dict" (env.label st.drawn))
          (1 + 2 * keys.length))) code st') :
      Lowers env (.expression (.dict line keys values)) st
        (code ++ fillRegion line (numbered "dict" (env.label st.drawn))
          keys.length (2 * keys.length)) st'
  | subscript {line value index st cv st₁ ci st₂}
      (hvalue : Lowers env (.expression value) st cv st₁)
      (hindex : Lowers env (.expression index) st₁ ci st₂) :
      Lowers env (.expression (.subscript line value index)) st
        (cv ++ rightOperand line index.isLeaf ci ++ loadElement line) st₂
  | pushesNil {line st} : Lowers env (.pushes line []) st [] st
  | pushesCons {line t ts st c st₁ cs st₂}
      (hhead : Lowers env (.expression t) st c st₁)
      (htail : Lowers env (.pushes line ts) st₁ cs st₂) :
      Lowers env (.pushes line (t :: ts)) st (c ++ push line rax :: cs) st₂
  | pairsNil {line st} : Lowers env (.pairs line [] []) st [] st
  | pairsCons {line key keys value values st ck st₁ cv st₂ cs st₃}
      (hkey : Lowers env (.expression key) st ck st₁)
      (hvalue : Lowers env (.expression value) st₁ cv st₂)
      (htail : Lowers env (.pairs line keys values) st₂ cs st₃) :
      Lowers env (.pairs line (key :: keys) (value :: values)) st
        (ck ++ push line rax :: (cv ++ push line rax :: cs)) st₃
  | storeName {line id d st} (hslot : st.scope.displacement? id = some d) :
      Lowers env (.target (.name line id)) st [mov line (.frameSlot d) rax] st
  | storeElement {line value index st cv st₁ ci st₂}
      (hvalue : Lowers env (.expression value) st cv st₁)
      (hindex : Lowers env (.expression index) st₁ ci st₂) :
      Lowers env (.target (.subscript line value index)) st
        (push line rax :: (cv ++ rightOperand line index.isLeaf ci ++
          [mov line rcx rax, pop line rax, storeElement line])) st₂
  | targetsNil {st} : Lowers env (.targets []) st [] st
  | targetsCons {t ts st c st₁ cs st₂} (hhead : Lowers env (.target t) st c st₁)
      (htail : Lowers env (.targets ts) st₁ cs st₂) :
      Lowers env (.targets (t :: ts)) st (c ++ cs) st₂
  | assign {line targets value st cv st₁ cs st₂} (htargets : targets ≠ [])
      (hbuiltin : ∀ l id, Tree.name l id ∈ targets → builtinConstant? id = none)
      (hvalue : Lowers env (.expression value) (st.declareTargets targets) cv st₁)
      (hstores : Lowers env (.targets targets) st₁ cs st₂) :
      Lowers env (.statement (.assign line targets value)) st (cv ++ cs) st₂
  | augElement {line tline base index op value st cb st₁ ci st₂ cv st₃}
      (hbase : Lowers env (.expression base) st cb st₁)
      (hindex : Lowers env (.expression index) st₁ ci st₂)
      (hvalue : Lowers env (.expression value) st₂ cv st₃) :
      Lowers env (.statement (.augAssign line (.subscript tline base index) op value)) st
        (cb ++ rightOperand line index.isLeaf ci ++ push line rbx :: push line rax ::
          (loadElement line ++ rightOperand line value.isLeaf cv ++ applyOperator line op ++
            [pop line rcx, pop line rbx, storeElement line])) st₃
  | augName {line tline id op value st cl st₁ cr st₂ cs st₃}
      (hbuiltin : builtinConstant? id = none)
      (hname : Lowers env (.expression (.name tline id)) (st.declare id) cl st₁)
      (hvalue : Lowers env (.expression value) st₁ cr st₂)
      (hstore : Lowers env (.target (.name tline id)) st₂ cs st₃) :
      Lowers env (.statement (.augAssign line (.name tline id) op value)) st
        (cl ++ rightOperand line value.isLeaf cr ++ applyOperator line op ++ cs) st₃
  | bareReturn {line st} :
      Lowers env (.statement (.ret line .absent)) st
        (mov line rax (.imm 0) :: epilogue line) st
  | ret {line value st c st'} (hvalue : Lowers env (.expression value) st c st') :
      Lowers env (.statement (.ret line value)) st (c ++ epilogue line) st'
  | expr {line value st c st'} (hvalue : Lowers env (.expression value) st c st') :
      Lowers env (.statement (.expr line value)) st c st'
  | ifElse {line test body orelse st ct st₁ cb st₂ co st₃}
      (htest : Lowers env (.expression test) st.draw ct st₁)
      (hbody : Lowers env (.block body) st₁ cb st₂)
      (horelse : Lowers env (.block orelse) st₂ co st₃) :
      Lowers env (.statement (.ifElse line test body orelse)) st
        (conditional line (env.label st.drawn) ct cb co) st₃
  | whileLoop {line test body st ct st₁ cb st₂}
      (htest : Lowers env (.expression test) st.draw ct st₁)
      (hbody : Lowers env (.block body) st₁ cb st₂) :
      Lowers env (.statement (.whileLoop line test body)) st
        (loop line (env.label st.drawn) ct cb) st₂
  | bare {t st c st'} (hexpression : Lowers env (.expression t) st c st') :
      Lowers env (.statement t) st c st'
  | blockNil {st} : Lowers env (.block []) st [] st
  | blockCons {t ts st c st₁ cs st₂} (hhead : Lowers env (.statement t) st c st₁)
      (htail : Lowers env (.block ts) st₁ cs st₂) :
      Lowers env (.block (t :: ts)) st (c ++ cs) st₂

/-- What holds of a collected state and of every state made from it by the updates
of lowering. -/
structure Collected (env : LoweringEnv) (P : LoweringState → Prop) : Prop where
  draw : ∀ st, P st → P st.draw
  region : ∀ st region, (∀ symbol, region ≠ .reserve symbol 0) → P st →
    P (st.withRegion region)
  imported : ∀ st name, env.arity? name = none → isReservedSymbol name = false → P st →
    P (st.withExtern name)
  promote : ∀ st id, builtinConstant? id = none → st.scope.displacement? id = none → P st →
    P (st.promote id)
  declare : ∀ st id, builtinConstant? id = none → P st → P (st.declare id)

theorem Collected.declareTargets {env : LoweringEnv} {P : LoweringState → Prop}
    (hP : Collected env P) {targets : List Tree} {st : LoweringState}
    (hbuiltin : ∀ l id, Tree.name l id ∈ targets → builtinConstant? id = none) (h : P st) :
    P (st.declareTargets targets) := by
  fun_induction LoweringState.declareTargets st targets with
  | case1 st => exact h
  | case2 st line id rest ih =>
      have hid : builtinConstant? id = none := hbuiltin line id (by simp)
      exact ih (fun l id' hmem => hbuiltin l id' (by simp [hmem])) (hP.declare st id hid h)
  | case3 st t rest _ ih =>
      exact ih (fun l id' hmem => hbuiltin l id' (by simp [hmem])) h

/-- Lowering a phrase preserves what each update preserves. -/
theorem Lowers.preserves {env : LoweringEnv} {P : LoweringState → Prop} (hP : Collected env P)
    {phrase : Phrase} {st st' : LoweringState} {code : Code} (h : Lowers env phrase st code st')
    (hst : P st) : P st' := by
  induction h with
  | constant | builtin | slot | pushesNil | pairsNil | storeName | targetsNil | bareReturn
  | blockNil => exact hst
  | string => exact hP.region _ _ (by simp) (hP.draw _ hst)
  | global hbuiltin hslot => exact hP.promote _ _ hbuiltin hslot hst
  | binary _ _ hleft hright => exact hright (hleft hst)
  | compare _ _ hleft hright => exact hP.draw _ (hright (hleft hst))
  | call _ _ hargs => exact hargs hst
  | externalCall harity hreserved _ hargs => exact hargs (hP.imported _ _ harity hreserved hst)
  | list _ helements => exact helements (hP.region _ _ (by simp) (hP.draw _ hst))
  | dict _ _ hpairs => exact hpairs (hP.region _ _ (by simp) (hP.draw _ hst))
  | subscript _ _ hvalue hindex => exact hindex (hvalue hst)
  | pushesCons _ _ hhead htail => exact htail (hhead hst)
  | pairsCons _ _ _ hkey hvalue htail => exact htail (hvalue (hkey hst))
  | storeElement _ _ hvalue hindex => exact hindex (hvalue hst)
  | targetsCons _ _ hhead htail => exact htail (hhead hst)
  | assign _ hbuiltin _ _ hvalue hstores =>
      exact hstores (hvalue (hP.declareTargets hbuiltin hst))
  | augElement _ _ _ hbase hindex hvalue => exact hvalue (hindex (hbase hst))
  | augName hbuiltin _ _ _ hname hvalue hstore =>
      exact hstore (hvalue (hname (hP.declare _ _ hbuiltin hst)))
  | ret _ hvalue => exact hvalue hst
  | expr _ hvalue => exact hvalue hst
  | ifElse _ _ _ htest hbody horelse => exact horelse (hbody (htest (hP.draw _ hst)))
  | whileLoop _ _ htest hbody => exact hbody (htest (hP.draw _ hst))
  | bare _ hexpression => exact hexpression hst
  | blockCons _ _ hhead htail => exact htail (hhead hst)

namespace Lower

theorem within_eq_ok {α : Type} {segment : Segment} {action : Lower α} {a : α}
    {st st' : LoweringState} (h : within segment action st = .ok a st') :
    action st = .ok a st' := by
  unfold within at h
  cases hact : action st with
  | ok a' s =>
      rw [hact] at h
      exact h
  | error e s =>
      rw [hact] at h
      cases h

theorem nested_eq_ok {α : Type} {depth : Nat} {action : Lower α} {a : α}
    {st st' : LoweringState} (h : nested depth action st = .ok a st') :
    action st = .ok a st' := by
  unfold nested at h
  split at h
  · exact h
  · cases h

theorem unsupported_ne_ok {t : Tree} {reason : UnsupportedReason} {a : Code}
    {st st' : LoweringState} : unsupported t reason st ≠ .ok a st' := by
  intro h
  cases h

theorem expressions_eq_map (env : LoweringEnv) (depth : Nat) (ts : List Tree) :
    expressions env depth ts = ts.map (expression env depth) := by
  induction ts with
  | nil => rfl
  | cons t ts ih => rw [expressions, List.map_cons, ih]

theorem statements_eq_map (env : LoweringEnv) (depth : Nat) (ts : List Tree) :
    statements env depth ts = ts.map (statement env depth) := by
  induction ts with
  | nil => rfl
  | cons t ts ih => rw [statements, List.map_cons, ih]

theorem operands_eq_ok {line : UInt32} {leftField rightField : String} {leaf : Bool}
    {left right : Lower Code} {code : Code} {st st' : LoweringState}
    (h : operands line leftField rightField leaf left right st = .ok code st') :
    ∃ cl st₁ cr, left st = .ok cl st₁ ∧ right st₁ = .ok cr st' ∧
      code = cl ++ Emit.rightOperand line leaf cr := by
  obtain ⟨cl, st₁, hl, h⟩ := bind_eq_ok h
  obtain ⟨cr, st₂, hr, h⟩ := bind_eq_ok h
  obtain ⟨rfl, rfl⟩ := pure_eq_ok h
  exact ⟨cl, st₁, cr, within_eq_ok hl, within_eq_ok hr, rfl⟩

theorem newRegion_eq_ok {env : LoweringEnv} {word symbol : String} {quadwords : Nat}
    {st st' : LoweringState} (h : newRegion env word quadwords st = .ok symbol st') :
    symbol = numbered word (env.label st.drawn) ∧
      st' = st.draw.withRegion (.reserve symbol quadwords) := by
  cases h
  exact ⟨rfl, rfl⟩

theorem constant_lowers {env : LoweringEnv} {line : UInt32} {c : Constant} {code : Code}
    {st st' : LoweringState} (h : constant env line c st = .ok code st') :
    Lowers env (.expression (.constant line c)) st code st' := by
  cases c with
  | int v =>
      cases h
      exact .constant rfl
  | bool b =>
      cases h
      exact .constant rfl
  | none =>
      cases h
      exact .constant rfl
  | string bytes =>
      cases h
      exact .string

theorem resolve_eq (id : String) (st : LoweringState) :
    resolve id st =
      match st.scope.resolve id with
      | .global storage => .ok (.global storage) (st.promote id)
      | .builtin v => .ok (.builtin v) st
      | .slot storage => .ok (.slot storage) st := by
  cases hr : st.scope.resolve id <;>
    simp only [resolve, bind, EStateM.bind, get, getThe, MonadStateOf.get, EStateM.get, hr] <;>
    rfl

theorem slot_eq (name : String) (st : LoweringState) :
    slot name st =
      match st.scope.displacement? name with
      | some d => .ok (.frameSlot d) st
      | none => .error { cause := .scope (.notLocal name st.scope.owner) } st := by
  simp only [slot, bind, EStateM.bind, get, getThe, MonadStateOf.get, EStateM.get, Scope.slot]
  cases st.scope.displacement? name <;> rfl

theorem name_lowers {env : LoweringEnv} {line : UInt32} {id : String} {code : Code}
    {st st' : LoweringState} (h : name line id st = .ok code st') :
    Lowers env (.expression (.name line id)) st code st' := by
  obtain ⟨r, st₁, hr, h⟩ := bind_eq_ok h
  rw [resolve_eq] at hr
  unfold Scope.resolve at hr
  cases hbuiltin : builtinConstant? id with
  | some v =>
      rw [hbuiltin] at hr
      cases hr
      cases h
      exact .builtin hbuiltin
  | none =>
      rw [hbuiltin] at hr
      cases hslot : st.scope.displacement? id with
      | some d =>
          rw [hslot] at hr
          cases hr
          cases h
          exact .slot hbuiltin hslot
      | none =>
          rw [hslot] at hr
          cases hr
          cases h
          exact .global hbuiltin hslot

theorem checkCallee_eq_ok {env : LoweringEnv} {line : UInt32} {callee : String} {count : Nat}
    {st st' : LoweringState} (h : checkCallee env line callee count st = .ok () st') :
    (env.arity? callee = some count ∧ st' = st) ∨
      (env.arity? callee = none ∧ isReservedSymbol callee = false ∧
        st' = st.withExtern callee) := by
  unfold checkCallee at h
  cases harity : env.arity? callee with
  | some expected =>
      rw [harity] at h
      by_cases hcount : expected = count
      · simp only [if_pos hcount] at h
        cases h
        exact Or.inl ⟨by rw [hcount], rfl⟩
      · simp only [if_neg hcount] at h
        cases h
  | none =>
      rw [harity] at h
      cases hreserved : isReservedSymbol callee with
      | true =>
          simp only [hreserved, if_true] at h
          cases h
      | false =>
          simp only [hreserved, Bool.false_eq_true, if_false] at h
          cases h
          exact Or.inr ⟨rfl, rfl, rfl⟩

theorem pushEach_lowers {env : LoweringEnv} {depth : Nat} {line : UInt32} {field : String}
    {ts : List Tree}
    (hlower : ∀ t ∈ ts, ∀ st code st', expression env depth t st = .ok code st' →
      Lowers env (.expression t) st code st')
    {index : Nat} {code : Code} {st st' : LoweringState}
    (h : pushEach line field index (ts.map (expression env depth)) st = .ok code st') :
    Lowers env (.pushes line ts) st code st' := by
  induction ts generalizing index code st with
  | nil =>
      cases h
      exact .pushesNil
  | cons t ts ih =>
      obtain ⟨c, st₁, hc, h⟩ := bind_eq_ok h
      obtain ⟨cs, st₂, hcs, h⟩ := bind_eq_ok h
      obtain ⟨rfl, rfl⟩ := pure_eq_ok h
      exact .pushesCons (hlower t (by simp) _ _ _ (within_eq_ok hc))
        (ih (fun t' ht' => hlower t' (by simp [ht'])) hcs)

theorem pushPairs_lowers {env : LoweringEnv} {depth : Nat} {line : UInt32}
    {keys values : List Tree} (hlength : keys.length = values.length)
    (hkeys : ∀ t ∈ keys, ∀ st code st', expression env depth t st = .ok code st' →
      Lowers env (.expression t) st code st')
    (hvalues : ∀ t ∈ values, ∀ st code st', expression env depth t st = .ok code st' →
      Lowers env (.expression t) st code st')
    {index : Nat} {code : Code} {st st' : LoweringState}
    (h : pushPairs line index (keys.map (expression env depth))
      (values.map (expression env depth)) st = .ok code st') :
    Lowers env (.pairs line keys values) st code st' := by
  induction keys generalizing values index code st with
  | nil =>
      cases values with
      | nil =>
          cases h
          exact .pairsNil
      | cons _ _ => simp at hlength
  | cons key keys ih =>
      cases values with
      | nil => simp at hlength
      | cons value values =>
          obtain ⟨ck, st₁, hk, h⟩ := bind_eq_ok h
          obtain ⟨cv, st₂, hv, h⟩ := bind_eq_ok h
          obtain ⟨cs, st₃, hcs, h⟩ := bind_eq_ok h
          obtain ⟨rfl, rfl⟩ := pure_eq_ok h
          exact .pairsCons (hkeys key (by simp) _ _ _ (within_eq_ok hk))
            (hvalues value (by simp) _ _ _ (within_eq_ok hv))
            (ih (by simpa using hlength) (fun t ht => hkeys t (by simp [ht]))
              (fun t ht => hvalues t (by simp [ht])) hcs)

/-- A lowered expression has a derivation. The recursion is on the tree; list
fields are reached through the lemmas on staged lists. -/
theorem expression_lowers {env : LoweringEnv} (t : Tree) {depth : Nat} {code : Code}
    {st st' : LoweringState} (h : expression env depth t st = .ok code st') :
    Lowers env (.expression t) st code st' := by
  match t with
  | .absent =>
      rw [expression] at h
      cases h
  | .constant line c =>
      rw [expression] at h
      exact constant_lowers (nested_eq_ok h)
  | .name line id =>
      rw [expression] at h
      exact name_lowers (nested_eq_ok h)
  | .binary line op left right =>
      rw [expression] at h
      obtain ⟨c, st₁, hc, h⟩ := bind_eq_ok (nested_eq_ok h)
      obtain ⟨cl, _, cr, hl, hr, rfl⟩ := operands_eq_ok hc
      obtain ⟨rfl, rfl⟩ := pure_eq_ok h
      exact .binary (expression_lowers left hl) (expression_lowers right hr)
  | .compare line op left right =>
      rw [expression] at h
      obtain ⟨c, st₁, hc, h⟩ := bind_eq_ok (nested_eq_ok h)
      obtain ⟨cl, _, cr, hl, hr, rfl⟩ := operands_eq_ok hc
      obtain ⟨id, st₂, hid, h⟩ := bind_eq_ok h
      cases hid
      obtain ⟨rfl, rfl⟩ := pure_eq_ok h
      exact .compare (expression_lowers left hl) (expression_lowers right hr)
  | .call line callee args =>
      rw [expression, expressions_eq_map] at h
      obtain ⟨⟨⟩, st₁, hcheck, h⟩ := bind_eq_ok (nested_eq_ok h)
      obtain ⟨c, st₂, hpush, h⟩ := bind_eq_ok h
      obtain ⟨rfl, rfl⟩ := pure_eq_ok h
      have hargs := pushEach_lowers (fun t _ st code st' ht => expression_lowers t ht) hpush
      rcases checkCallee_eq_ok hcheck with ⟨harity, rfl⟩ | ⟨harity, hreserved, rfl⟩
      · exact .call harity hargs
      · exact .externalCall harity hreserved hargs
  | .list line elements =>
      rw [expression, expressions_eq_map] at h
      obtain ⟨region, st₁, hregion, h⟩ := bind_eq_ok (nested_eq_ok h)
      obtain ⟨c, st₂, hpush, h⟩ := bind_eq_ok h
      obtain ⟨rfl, rfl⟩ := pure_eq_ok h
      obtain ⟨rfl, rfl⟩ := newRegion_eq_ok hregion
      exact .list (pushEach_lowers (fun t _ st code st' ht => expression_lowers t ht) hpush)
  | .dict line keys values =>
      rw [expression, expressions_eq_map, expressions_eq_map] at h
      have h := nested_eq_ok h
      by_cases hlength : keys.length = values.length
      · rw [if_neg (by simpa using hlength)] at h
        obtain ⟨region, st₁, hregion, h⟩ := bind_eq_ok h
        obtain ⟨c, st₂, hpush, h⟩ := bind_eq_ok h
        obtain ⟨rfl, rfl⟩ := pure_eq_ok h
        obtain ⟨rfl, rfl⟩ := newRegion_eq_ok hregion
        exact .dict hlength (pushPairs_lowers hlength
          (fun t _ st code st' ht => expression_lowers t ht)
          (fun t _ st code st' ht => expression_lowers t ht) hpush)
      · rw [if_pos hlength] at h
        cases h
  | .subscript line value index =>
      rw [expression] at h
      obtain ⟨c, st₁, hc, h⟩ := bind_eq_ok (nested_eq_ok h)
      obtain ⟨cv, _, ci, hv, hi, rfl⟩ := operands_eq_ok hc
      obtain ⟨rfl, rfl⟩ := pure_eq_ok h
      exact .subscript (expression_lowers value hv) (expression_lowers index hi)
  | .attribute .. | .functionDef .. | .assign .. | .augAssign .. | .ret .. | .expr ..
  | .ifElse .. | .whileLoop .. =>
      rw [expression] at h
      · exact absurd (nested_eq_ok h) unsupported_ne_ok
      all_goals simp

theorem declareTargets_eq_ok {targets : List Tree} {st st' : LoweringState}
    (h : declareTargets targets st = .ok () st') :
    (∀ l id, Tree.name l id ∈ targets → builtinConstant? id = none) ∧
      st' = st.declareTargets targets := by
  induction targets generalizing st with
  | nil =>
      cases h
      exact ⟨by simp, rfl⟩
  | cons t targets ih =>
      obtain ⟨⟨⟩, st₁, hhead, htail⟩ := bind_eq_ok h
      obtain ⟨hnames, rfl⟩ := ih htail
      cases t with
      | name line id =>
          rw [declareTarget] at hhead
          by_cases hbuiltin : (builtinConstant? id).isSome
          · rw [if_pos hbuiltin] at hhead
            cases hhead
          · rw [if_neg hbuiltin] at hhead
            cases hhead
            refine ⟨?_, rfl⟩
            intro l id' hmem
            rcases List.mem_cons.mp hmem with heq | hmem
            · cases heq
              simpa using hbuiltin
            · exact hnames l id' hmem
      | _ =>
          cases hhead
          exact ⟨fun l id' hmem => hnames l id' (by simpa using hmem), rfl⟩

theorem store_lowers {env : LoweringEnv} {depth : Nat} {t : Tree} {code : Code}
    {st st' : LoweringState} (h : store env depth t st = .ok code st') :
    Lowers env (.target t) st code st' := by
  cases t with
  | name line id =>
      rw [store] at h
      obtain ⟨o, st₁, hslot, h⟩ := bind_eq_ok h
      obtain ⟨rfl, rfl⟩ := pure_eq_ok h
      obtain ⟨st₀, st₂, hget, hslot⟩ := bind_eq_ok hslot
      cases hget
      unfold Scope.slot at hslot
      cases hd : st.scope.displacement? id with
      | some d =>
          rw [hd] at hslot
          cases hslot
          exact .storeName hd
      | none =>
          rw [hd] at hslot
          cases hslot
  | subscript line value index =>
      rw [store] at h
      obtain ⟨c, st₁, hc, h⟩ := bind_eq_ok h
      obtain ⟨cv, _, ci, hv, hi, rfl⟩ := operands_eq_ok hc
      obtain ⟨rfl, rfl⟩ := pure_eq_ok h
      exact .storeElement (expression_lowers value hv) (expression_lowers index hi)
  | absent => cases h
  | _ =>
      rw [store] at h
      · exact absurd h unsupported_ne_ok
      all_goals simp

theorem storeEach_lowers {env : LoweringEnv} {depth index : Nat} {ts : List Tree} {code : Code}
    {st st' : LoweringState} (h : storeEach env depth index ts st = .ok code st') :
    Lowers env (.targets ts) st code st' := by
  induction ts generalizing index code st with
  | nil =>
      cases h
      exact .targetsNil
  | cons t ts ih =>
      obtain ⟨c, st₁, hc, h⟩ := bind_eq_ok h
      obtain ⟨cs, st₂, hcs, h⟩ := bind_eq_ok h
      obtain ⟨rfl, rfl⟩ := pure_eq_ok h
      exact .targetsCons (store_lowers (within_eq_ok hc)) (ih hcs)

theorem assign_lowers {env : LoweringEnv} {depth : Nat} {line : UInt32} {targets : List Tree}
    {value : Tree} {code : Code} {st st' : LoweringState}
    (h : assign env depth line targets value st = .ok code st') :
    Lowers env (.statement (.assign line targets value)) st code st' := by
  unfold assign at h
  by_cases hempty : targets.isEmpty
  · rw [if_pos hempty] at h
    cases h
  · rw [if_neg hempty] at h
    obtain ⟨⟨⟩, st₁, hdeclare, h⟩ := bind_eq_ok h
    obtain ⟨cv, st₂, hvalue, h⟩ := bind_eq_ok h
    obtain ⟨cs, st₃, hstores, h⟩ := bind_eq_ok h
    obtain ⟨rfl, rfl⟩ := pure_eq_ok h
    obtain ⟨hbuiltin, rfl⟩ := declareTargets_eq_ok hdeclare
    exact .assign (by simpa using hempty) hbuiltin
      (expression_lowers value (within_eq_ok hvalue)) (storeEach_lowers hstores)

/-- A target that is neither a name nor an element is refused after its operands. -/
theorem augAssign_lowers {env : LoweringEnv} {depth : Nat} {line : UInt32} {target : Tree}
    {op : BinaryOperator} {value : Tree} {code : Code} {st st' : LoweringState}
    (h : augAssign env depth line target op value st = .ok code st') :
    Lowers env (.statement (.augAssign line target op value)) st code st' := by
  unfold augAssign at h
  split at h
  · obtain ⟨place, st₁, hplace, h⟩ := bind_eq_ok h
    obtain ⟨cv, st₂, hvalue, h⟩ := bind_eq_ok h
    obtain ⟨rfl, rfl⟩ := pure_eq_ok h
    obtain ⟨cb, _, ci, hb, hi, rfl⟩ := operands_eq_ok (within_eq_ok hplace)
    exact .augElement (expression_lowers _ hb) (expression_lowers _ hi)
      (expression_lowers value (within_eq_ok hvalue))
  · next hother =>
      obtain ⟨⟨⟩, st₁, hdeclare, h⟩ := bind_eq_ok h
      obtain ⟨c, st₂, hoperands, h⟩ := bind_eq_ok h
      obtain ⟨cs, st₃, hstore, h⟩ := bind_eq_ok h
      obtain ⟨rfl, rfl⟩ := pure_eq_ok h
      obtain ⟨cl, _, cr, hl, hr, rfl⟩ := operands_eq_ok hoperands
      have hname := expression_lowers _ hl
      have hvalue := expression_lowers value hr
      cases store_lowers (within_eq_ok hstore) with
      | storeElement _ _ => exact absurd rfl (hother _ _ _)
      | @storeName tline id d _ hslot =>
          rw [declareTarget] at hdeclare
          by_cases hbuiltin : (builtinConstant? id).isSome
          · rw [if_pos hbuiltin] at hdeclare
            cases hdeclare
          · rw [if_neg hbuiltin] at hdeclare
            cases hdeclare
            exact .augName (by simpa using hbuiltin) hname hvalue (.storeName hslot)

theorem block_lowers {env : LoweringEnv} {depth : Nat} {field : String} {ts : List Tree}
    (hlower : ∀ t ∈ ts, ∀ st code st', statement env depth t st = .ok code st' →
      Lowers env (.statement t) st code st')
    {index : Nat} {code : Code} {st st' : LoweringState}
    (h : block field index (ts.map (statement env depth)) st = .ok code st') :
    Lowers env (.block ts) st code st' := by
  induction ts generalizing index code st with
  | nil =>
      cases h
      exact .blockNil
  | cons t ts ih =>
      obtain ⟨c, st₁, hc, h⟩ := bind_eq_ok h
      obtain ⟨cs, st₂, hcs, h⟩ := bind_eq_ok h
      obtain ⟨rfl, rfl⟩ := pure_eq_ok h
      exact .blockCons (hlower t (by simp) _ _ _ (within_eq_ok hc))
        (ih (fun t' ht' => hlower t' (by simp [ht'])) hcs)

/-- A lowered statement has a derivation. -/
theorem statement_lowers {env : LoweringEnv} (t : Tree) {depth : Nat} {code : Code}
    {st st' : LoweringState} (h : statement env depth t st = .ok code st') :
    Lowers env (.statement t) st code st' := by
  match t with
  | .absent =>
      rw [statement] at h
      cases h
  | .assign line targets value =>
      rw [statement] at h
      exact assign_lowers (nested_eq_ok h)
  | .augAssign line target op value =>
      rw [statement] at h
      exact augAssign_lowers (nested_eq_ok h)
  | .ret line .absent =>
      rw [statement] at h
      obtain ⟨rfl, rfl⟩ := pure_eq_ok (nested_eq_ok h)
      exact .bareReturn
  | .expr line value =>
      rw [statement] at h
      exact .expr (expression_lowers value (within_eq_ok (nested_eq_ok h)))
  | .ifElse line test body orelse =>
      rw [statement, statements_eq_map, statements_eq_map] at h
      obtain ⟨id, st₁, hid, h⟩ := bind_eq_ok (nested_eq_ok h)
      cases hid
      obtain ⟨ct, st₂, htest, h⟩ := bind_eq_ok h
      obtain ⟨cb, st₃, hbody, h⟩ := bind_eq_ok h
      obtain ⟨co, st₄, horelse, h⟩ := bind_eq_ok h
      obtain ⟨rfl, rfl⟩ := pure_eq_ok h
      exact .ifElse (expression_lowers test (within_eq_ok htest))
        (block_lowers (fun t _ st code st' ht => statement_lowers t ht) hbody)
        (block_lowers (fun t _ st code st' ht => statement_lowers t ht) horelse)
  | .whileLoop line test body =>
      rw [statement, statements_eq_map] at h
      obtain ⟨id, st₁, hid, h⟩ := bind_eq_ok (nested_eq_ok h)
      cases hid
      obtain ⟨ct, st₂, htest, h⟩ := bind_eq_ok h
      obtain ⟨cb, st₃, hbody, h⟩ := bind_eq_ok h
      obtain ⟨rfl, rfl⟩ := pure_eq_ok h
      exact .whileLoop (expression_lowers test (within_eq_ok htest))
        (block_lowers (fun t _ st code st' ht => statement_lowers t ht) hbody)
  | .functionDef .. =>
      rw [statement] at h
      exact absurd (nested_eq_ok h) unsupported_ne_ok
  | .ret line (.constant ..) | .ret line (.name ..) | .ret line (.binary ..)
  | .ret line (.compare ..) | .ret line (.call ..) | .ret line (.list ..)
  | .ret line (.dict ..) | .ret line (.subscript ..) | .ret line (.attribute ..)
  | .ret line (.functionDef ..) | .ret line (.assign ..) | .ret line (.augAssign ..)
  | .ret line (.ret ..) | .ret line (.expr ..) | .ret line (.ifElse ..)
  | .ret line (.whileLoop ..) =>
      rw [statement] at h
      · obtain ⟨c, st₁, hvalue, h⟩ := bind_eq_ok (nested_eq_ok h)
        obtain ⟨rfl, rfl⟩ := pure_eq_ok h
        exact .ret (expression_lowers _ (within_eq_ok hvalue))
      all_goals simp
  | .binary .. | .compare .. | .call .. | .list .. | .dict .. | .subscript ..
  | .attribute .. | .name .. | .constant .. =>
      rw [statement] at h
      · exact .bare (expression_lowers _ (nested_eq_ok h))
      all_goals simp

end Lower

namespace Emit

/-- The reservation of a frame, which is absent when the frame holds no slot. -/
def reserve (line : UInt32) (slots : Nat) : Code :=
  if slots = 0 then [] else [.make .sub [rsp, .imm (Int64.ofNat (8 * slots))] line]

/-- A function's finished code. -/
def functionCode (fn : FunctionDef) (slots : Nat) (body : Code) : Code :=
  prologue fn.name fn.line ++ (reserve fn.line slots ++ (body ++ fallthrough fn.line))

end Emit

/-- Filling in the reservation leaves everything around it in place. -/
theorem patchReservation_unpatched (fn : FunctionDef) (body : Code) (slots : Nat) :
    Code.patchReservation (Emit.unpatched fn body) 3 slots =
      .ok (Emit.functionCode fn slots body) := by
  by_cases hslots : slots = 0
  · simp [Code.patchReservation, Emit.unpatched, Emit.prologue, Emit.functionCode,
      Emit.reserve, Code.reservation, Instruction.make, hslots]
  · simp [Code.patchReservation, Emit.unpatched, Emit.prologue, Emit.functionCode,
      Emit.reserve, Code.reservation, Code.setImmediate, Instruction.make, hslots, Emit.rsp]

/-- How a unit came out of its function: `entry` holds the parameters, `body` is the
code of the statements and `final` what lowering them collected. -/
structure LoweredAs (env : LoweringEnv) (fn : FunctionDef) (unit : CompiledUnit)
    (entry : Scope) (body : Code) (final : LoweringState) : Prop where
  params : ({ owner := fn.name } : Scope).declareParams 0 fn.params.length fn.params = .ok entry
  lowers : Lowers env (.block fn.body) { scope := entry } body final
  unit_eq : unit = {
    name := fn.name
    params := fn.params.length
    locals := final.scope.slots.length
    slots := final.scope.frameSlots
    code := Emit.functionCode fn final.scope.frameSlots body
    data := final.data
    externs := final.externs }
  drawn_eq : (env.lower fn).drawn = final.drawn
  promoted_eq : (env.lower fn).promoted = final.promoted

theorem lower_eq_ok {env : LoweringEnv} {fn : FunctionDef} {unit : CompiledUnit}
    (h : (env.lower fn).result = .ok unit) :
    ∃ entry body final, LoweredAs env fn unit entry body final := by
  unfold LoweringEnv.lower at h
  cases hparams : ({ owner := fn.name } : Scope).declareParams 0 fn.params.length fn.params with
  | error e => simp [hparams] at h
  | ok entry =>
      cases hblock : Lower.block "body" 0 (Lower.statements env 0 fn.body)
          { scope := entry } with
      | error e st => simp [hparams, hblock] at h
      | ok body final =>
          simp only [hparams, hblock, patchReservation_unpatched] at h
          have hmap := hblock
          rw [Lower.statements_eq_map] at hmap
          refine ⟨entry, body, final, hparams, ?_, ?_, ?_, ?_⟩
          · exact Lower.block_lowers
              (fun t _ st code st' ht => Lower.statement_lowers t ht) hmap
          · exact (Except.ok.inj h).symm
          · simp only [LoweringEnv.lower, hparams, hblock]
          · simp only [LoweringEnv.lower, hparams, hblock]

end Arbor
