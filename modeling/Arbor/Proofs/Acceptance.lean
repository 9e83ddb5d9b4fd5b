import Mathlib.Tactic
import Arbor.Proofs.Interleaving
import Arbor.Proofs.Layout

/-!
Which sources are accepted. The rules are stated on the trees alone: what may stand as
an expression, as a target and as a statement, and how deeply statements and
expressions are open inside each other. Compilation gives a program for exactly the
sources that follow them, however many jobs it uses and in whatever order the requests
of its lowerings are served.
-/

namespace Arbor

/-- A call of a function of the source passes as many arguments as it has parameters.
Any other function must not have a reserved name. -/
def CallFits (fns : List FunctionDef) (callee : String) (count : Nat) : Prop :=
  (∃ fn ∈ fns, fn.name = callee ∧ fn.params.length = count) ∨
    ((∀ fn ∈ fns, fn.name ≠ callee) ∧ isReservedSymbol callee = false)

namespace Tree

mutual

def IsExpression (fns : List FunctionDef) : Tree → Prop
  | .constant .. | .name .. => True
  | .binary _ _ left right => left.IsExpression fns ∧ right.IsExpression fns
  | .compare _ _ left right => left.IsExpression fns ∧ right.IsExpression fns
  | .subscript _ value index => value.IsExpression fns ∧ index.IsExpression fns
  | .call _ callee args => CallFits fns callee args.length ∧ AreExpressions fns args
  | .list _ elements => AreExpressions fns elements
  | .dict _ keys values =>
    keys.length = values.length ∧ AreExpressions fns keys ∧ AreExpressions fns values
  | _ => False

def AreExpressions (fns : List FunctionDef) : List Tree → Prop
  | [] => True
  | t :: rest => t.IsExpression fns ∧ AreExpressions fns rest

end

def IsTarget (fns : List FunctionDef) : Tree → Prop
  | .name _ id => id ∉ ["True", "False", "None"]
  | .subscript _ value index => value.IsExpression fns ∧ index.IsExpression fns
  | _ => False

mutual

/-- An expression may stand as a statement of its own. -/
def IsStatement (fns : List FunctionDef) : Tree → Prop
  | .assign _ targets value =>
    targets ≠ [] ∧ (∀ t ∈ targets, t.IsTarget fns) ∧ value.IsExpression fns
  | .augAssign _ target _ value => target.IsTarget fns ∧ value.IsExpression fns
  | .ret _ value => value = .absent ∨ value.IsExpression fns
  | .expr _ value => value.IsExpression fns
  | .ifElse _ test body orelse =>
    test.IsExpression fns ∧ AreStatements fns body ∧ AreStatements fns orelse
  | .whileLoop _ test body => test.IsExpression fns ∧ AreStatements fns body
  | t => t.IsExpression fns

def AreStatements (fns : List FunctionDef) : List Tree → Prop
  | [] => True
  | t :: rest => t.IsStatement fns ∧ AreStatements fns rest

end

mutual

/-- The longest chain of expressions that are open inside each other while the tree is
lowered as one. -/
def expressionChain : Tree → Nat
  | .absent => 0
  | .binary _ _ left right => 1 + max left.expressionChain right.expressionChain
  | .compare _ _ left right => 1 + max left.expressionChain right.expressionChain
  | .subscript _ value index => 1 + max value.expressionChain index.expressionChain
  | .call _ _ args => 1 + expressionChains args
  | .list _ elements => 1 + expressionChains elements
  | .dict _ keys values => 1 + max (expressionChains keys) (expressionChains values)
  | _ => 1

def expressionChains : List Tree → Nat
  | [] => 0
  | t :: rest => max t.expressionChain (expressionChains rest)

end

/-- A target opens nothing itself, only the operands of an element. -/
def targetChain : Tree → Nat
  | .subscript _ value index => max value.expressionChain index.expressionChain
  | _ => 0

def targetChains : List Tree → Nat
  | [] => 0
  | t :: rest => max t.targetChain (targetChains rest)

mutual

/-- The longest chain of statements and expressions that are open inside each other. An
expression that stands as a statement is opened as both. -/
def statementChain : Tree → Nat
  | .assign _ targets value => 1 + max (targetChains targets) value.expressionChain
  | .augAssign _ target _ value => 1 + max target.targetChain value.expressionChain
  | .ret _ value => 1 + value.expressionChain
  | .expr _ value => 1 + value.expressionChain
  | .ifElse _ test body orelse =>
    1 + max test.expressionChain (max (statementChains body) (statementChains orelse))
  | .whileLoop _ test body => 1 + max test.expressionChain (statementChains body)
  | t => 1 + t.expressionChain

def statementChains : List Tree → Nat
  | [] => 0
  | t :: rest => max t.statementChain (statementChains rest)

end

end Tree

/-- The rules for a source. -/
structure Source.Acceptable (s : Source) : Prop where
  present : none ∉ s
  unreserved : ∀ fn ∈ s.functions, isReservedSymbol fn.name = false
  distinct : (s.functions.map (·.name)).Nodup
  params : ∀ fn ∈ s.functions, fn.params.Nodup
  statements : ∀ fn ∈ s.functions, ∀ t ∈ fn.body, t.IsStatement s.functions
  chains : ∀ fn ∈ s.functions, ∀ t ∈ fn.body, t.statementChain ≤ 256

namespace Tree

variable {fns : List FunctionDef}

theorem areExpressions_iff {ts : List Tree} :
    AreExpressions fns ts ↔ ∀ t ∈ ts, t.IsExpression fns := by
  induction ts with
  | nil => simp [AreExpressions]
  | cons t rest ih => simp [AreExpressions, ih]

theorem areStatements_iff {ts : List Tree} :
    AreStatements fns ts ↔ ∀ t ∈ ts, t.IsStatement fns := by
  induction ts with
  | nil => simp [AreStatements]
  | cons t rest ih => simp [AreStatements, ih]

theorem expressionChains_le_iff {ts : List Tree} {n : Nat} :
    expressionChains ts ≤ n ↔ ∀ t ∈ ts, t.expressionChain ≤ n := by
  induction ts with
  | nil => simp [expressionChains]
  | cons t rest ih => simp [expressionChains, ih]

theorem targetChains_le_iff {ts : List Tree} {n : Nat} :
    targetChains ts ≤ n ↔ ∀ t ∈ ts, t.targetChain ≤ n := by
  induction ts with
  | nil => simp [targetChains]
  | cons t rest ih => simp [targetChains, ih]

theorem statementChains_le_iff {ts : List Tree} {n : Nat} :
    statementChains ts ≤ n ↔ ∀ t ∈ ts, t.statementChain ≤ n := by
  induction ts with
  | nil => simp [statementChains]
  | cons t rest ih => simp [statementChains, ih]

end Tree

/-- The names are local. -/
def LoweringState.Holds (names : List String) (st : LoweringState) : Prop :=
  ∀ id ∈ names, st.scope.contains id = true

/-- As long as the names are local, the action succeeds if and only if the condition
holds, and the names stay local. -/
structure Lower.Decides (names : List String) {α : Type} (x : Lower α) (P : Prop) : Prop where
  iff : ∀ st, st.Holds names → ((∃ a st', x st = .ok a st') ↔ P)
  keeps : ∀ st a st', st.Holds names → x st = .ok a st' → st'.Holds names

namespace Lower.Decides

variable {names : List String} {α β : Type} {P Q : Prop}

theorem congr {x : Lower α} (h : Decides names x P) (hiff : P ↔ Q) : Decides names x Q :=
  ⟨fun st hst => (h.iff st hst).trans hiff, h.keeps⟩

theorem bind {x : Lower α} {f : α → Lower β} (hx : Decides names x P)
    (hf : ∀ a, Decides names (f a) Q) : Decides names (x >>= f) (P ∧ Q) where
  iff := by
    intro st hst
    constructor
    · rintro ⟨b, st', h⟩
      obtain ⟨a, st₁, hxs, hfs⟩ := bind_eq_ok h
      have hst₁ := hx.keeps st a st₁ hst hxs
      exact ⟨(hx.iff st hst).mp ⟨a, st₁, hxs⟩, ((hf a).iff st₁ hst₁).mp ⟨b, st', hfs⟩⟩
    · rintro ⟨hP, hQ⟩
      obtain ⟨a, st₁, hxs⟩ := (hx.iff st hst).mpr hP
      obtain ⟨b, st', hfs⟩ := ((hf a).iff st₁ (hx.keeps st a st₁ hst hxs)).mpr hQ
      exact ⟨b, st', by rw [bind_of_ok hxs, hfs]⟩
  keeps := by
    intro st b st' hst h
    obtain ⟨a, st₁, hxs, hfs⟩ := bind_eq_ok h
    exact (hf a).keeps st₁ b st' (hx.keeps st a st₁ hst hxs) hfs

/-- An action that always succeeds and leaves the scope alone decides nothing. -/
theorem always {x : Lower α} (hx : ∀ st, ∃ a st', x st = .ok a st' ∧ st'.scope = st.scope) :
    Decides names x True where
  iff := by
    intro st _
    obtain ⟨a, st', h, -⟩ := hx st
    exact ⟨fun _ => trivial, fun _ => ⟨a, st', h⟩⟩
  keeps := by
    intro st b st' hst h
    obtain ⟨a, st₁, h₁, hscope⟩ := hx st
    rw [h₁] at h
    cases h
    intro id hid
    rw [hscope]
    exact hst id hid

theorem pure (a : α) : Decides names (Pure.pure a : Lower α) True :=
  always fun st => ⟨a, st, rfl, rfl⟩

/-- What only returns a result afterwards. -/
theorem map {x : Lower α} (hx : Decides names x P) (g : α → β) :
    Decides names (x >>= fun a => Pure.pure (g a)) P :=
  (hx.bind fun a => pure (g a)).congr (by simp)

theorem fail (cause : LoweringCause) : Decides names (fail cause : Lower α) False where
  iff := by
    intro st _
    simp only [iff_false]
    rintro ⟨a, st', h⟩
    cases h
  keeps := by
    intro st a st' _ h
    cases h

theorem fail_bind (cause : LoweringCause) (f : α → Lower β) :
    Decides names (Lower.fail cause >>= f) False where
  iff := by
    intro st _
    simp only [iff_false]
    rintro ⟨b, st', h⟩
    cases h
  keeps := by
    intro st b st' _ h
    cases h

theorem unsupported (t : Tree) (reason : UnsupportedReason) :
    Decides names (unsupported t reason : Lower α) False := fail _

theorem drawLabel (env : LoweringEnv) : Decides names (drawLabel env) True :=
  always fun _ => ⟨_, _, rfl, rfl⟩

theorem newRegion (env : LoweringEnv) (word : String) (quadwords : Nat) :
    Decides names (newRegion env word quadwords) True :=
  always fun _ => ⟨_, _, rfl, rfl⟩

theorem within {x : Lower α} (segment : Segment) (hx : Decides names x P) :
    Decides names (within segment x) P where
  iff := by
    intro st hst
    rw [← hx.iff st hst]
    constructor
    · rintro ⟨a, st', h⟩
      exact ⟨a, st', within_eq_ok h⟩
    · rintro ⟨a, st', h⟩
      exact ⟨a, st', by rw [Lower.within, h]⟩
  keeps := fun st a st' hst h => hx.keeps st a st' hst (within_eq_ok h)

theorem nested {x : Lower α} (depth : Nat) (hx : Decides names x P) :
    Decides names (nested depth x) (depth < maxDepth ∧ P) := by
  unfold Lower.nested
  split
  · rename_i hdepth
    exact hx.congr (by simp [hdepth])
  · rename_i hdepth
    exact (fail _).congr (by simp [hdepth])

theorem operands {line : UInt32} {leftField rightField : String} {leaf : Bool}
    {left right : Lower Code} (hleft : Decides names left P) (hright : Decides names right Q) :
    Decides names (operands line leftField rightField leaf left right) (P ∧ Q) :=
  (hleft.within _).bind fun _ => (hright.within _).map _

section Lists

variable {κ : Type} {g : κ → Lower Code} {R : κ → Prop}

theorem pushEach (line : UInt32) (field : String) (ts : List κ)
    (h : ∀ t ∈ ts, Decides names (g t) (R t)) (index : Nat) :
    Decides names (pushEach line field index (ts.map g)) (∀ t ∈ ts, R t) := by
  induction ts generalizing index with
  | nil => exact (pure _).congr (by simp)
  | cons t rest ih =>
      have hhead := (h t List.mem_cons_self).within (.item field index)
      have htail := ih (fun u hu => h u (List.mem_cons_of_mem _ hu)) (index + 1)
      exact (hhead.bind fun _ => htail.map _).congr (by simp)

theorem block (field : String) (ts : List κ) (h : ∀ t ∈ ts, Decides names (g t) (R t))
    (index : Nat) : Decides names (block field index (ts.map g)) (∀ t ∈ ts, R t) := by
  induction ts generalizing index with
  | nil => exact (pure _).congr (by simp)
  | cons t rest ih =>
      have hhead := (h t List.mem_cons_self).within (.item field index)
      have htail := ih (fun u hu => h u (List.mem_cons_of_mem _ hu)) (index + 1)
      exact (hhead.bind fun _ => htail.map _).congr (by simp)

theorem pushPairs (line : UInt32) (keys values : List κ) (hlength : keys.length = values.length)
    (hkeys : ∀ t ∈ keys, Decides names (g t) (R t))
    (hvalues : ∀ t ∈ values, Decides names (g t) (R t)) (index : Nat) :
    Decides names (pushPairs line index (keys.map g) (values.map g))
      ((∀ t ∈ keys, R t) ∧ ∀ t ∈ values, R t) := by
  induction keys generalizing values index with
  | nil =>
      obtain rfl : values = [] := List.length_eq_zero_iff.mp hlength.symm
      exact (pure _).congr (by simp)
  | cons key keys ih =>
      cases values with
      | nil => simp at hlength
      | cons value values =>
          have hkey := (hkeys key List.mem_cons_self).within (.item "keys" index)
          have hvalue := (hvalues value List.mem_cons_self).within (.item "values" index)
          have htail := ih values (by simpa using hlength)
            (fun t ht => hkeys t (List.mem_cons_of_mem _ ht))
            (fun t ht => hvalues t (List.mem_cons_of_mem _ ht)) (index + 1)
          refine (hkey.bind fun _ => hvalue.bind fun _ => htail.map _).congr ?_
          simp only [List.forall_mem_cons]
          tauto

end Lists

end Lower.Decides

/-- The environment knows the arities of the functions and no others. -/
def LoweringEnv.Declares (env : LoweringEnv) (fns : List FunctionDef) : Prop :=
  ∀ callee n, env.arity? callee = some n ↔ ∃ fn ∈ fns, fn.name = callee ∧ fn.params.length = n

namespace Lower

open Decides

variable {env : LoweringEnv} {fns : List FunctionDef} {names : List String}

theorem checkCallee_decides (henv : env.Declares fns) (line : UInt32) (callee : String)
    (count : Nat) : Decides names (checkCallee env line callee count) (CallFits fns callee count) := by
  unfold checkCallee
  cases harity : env.arity? callee with
  | some expected =>
      obtain ⟨fn, hfn, hname, -⟩ := (henv callee expected).mp harity
      have hfits : CallFits fns callee count ↔ expected = count := by
        rw [CallFits, ← henv, harity, Option.some.injEq]
        constructor
        · rintro (hcount | ⟨hother, -⟩)
          · exact hcount
          · exact absurd hname (hother fn hfn)
        · exact Or.inl
      simp only
      split
      · rename_i hcount
        exact (Decides.pure ()).congr (by simp [hfits, hcount])
      · rename_i hcount
        exact (Decides.fail _).congr (by simp [hfits, hcount])
  | none =>
      have hother : ∀ fn ∈ fns, fn.name ≠ callee := by
        intro fn hfn hname
        have hsome := (henv callee fn.params.length).mpr ⟨fn, hfn, hname, rfl⟩
        rw [harity] at hsome
        cases hsome
      have hfits : CallFits fns callee count ↔ isReservedSymbol callee = false := by
        rw [CallFits, ← henv, harity]
        simpa using fun _ => hother
      simp only
      split
      · rename_i hreserved
        exact (Decides.fail _).congr (by simp [hfits, hreserved])
      · rename_i hreserved
        have hadd : Decides names (addExtern callee) True :=
          Decides.always fun _ => ⟨_, _, rfl, rfl⟩
        exact hadd.congr (by simp [hfits, hreserved])

/-- A constant is always accepted. -/
theorem constant_decides (line : UInt32) (c : Constant) :
    Decides names (constant env line c) True := by
  cases c <;> exact Decides.always fun _ => ⟨_, _, rfl, rfl⟩

/-- A name is always accepted: one that is neither built in nor local is a global. -/
theorem name_decides (line : UInt32) (id : String) : Decides names (name line id) True := by
  apply Decides.always
  intro st
  cases hr : st.scope.resolve id with
  | builtin v =>
      have hresolve : resolve id st = .ok (.builtin v) st := by rw [resolve_eq, hr]
      exact ⟨_, st, by rw [name, bind_of_ok hresolve]; rfl, rfl⟩
  | slot storage =>
      have hresolve : resolve id st = .ok (.slot storage) st := by rw [resolve_eq, hr]
      exact ⟨_, st, by rw [name, bind_of_ok hresolve]; rfl, rfl⟩
  | global storage =>
      have hresolve : resolve id st = .ok (.global storage) (st.promote id) := by
        rw [resolve_eq, hr]
      exact ⟨_, st.promote id, by rw [name, bind_of_ok hresolve]; rfl, rfl⟩

/-- What an expression needs when `room` levels are left. -/
def ExpressionFits (fns : List FunctionDef) (room : Nat) (t : Tree) : Prop :=
  t.IsExpression fns ∧ t.expressionChain ≤ room

theorem forall_expressionFits {room : Nat} {ts : List Tree} :
    (∀ t ∈ ts, ExpressionFits fns room t) ↔
      Tree.AreExpressions fns ts ∧ Tree.expressionChains ts ≤ room := by
  rw [Tree.areExpressions_iff, Tree.expressionChains_le_iff]
  simp only [ExpressionFits]
  exact ⟨fun h => ⟨fun t ht => (h t ht).1, fun t ht => (h t ht).2⟩,
    fun h t ht => ⟨h.1 t ht, h.2 t ht⟩⟩

/-- A node opens a level, and what it holds has one level less. -/
theorem Decides.level {α : Type} {x : Lower α} {P : Prop} {depth chain : Nat}
    (hx : Decides names x (P ∧ chain ≤ maxDepth - (depth + 1))) :
    Decides names (Lower.nested depth x) (P ∧ 1 + chain ≤ maxDepth - depth) := by
  apply (hx.nested depth).congr
  constructor
  · rintro ⟨hdepth, hP, hchain⟩
    exact ⟨hP, by omega⟩
  · rintro ⟨hP, hchain⟩
    exact ⟨by omega, hP, by omega⟩

theorem Decides.leaf {α : Type} {x : Lower α} {depth : Nat} (hx : Decides names x True) :
    Decides names (Lower.nested depth x) (True ∧ 1 ≤ maxDepth - depth) := by
  apply (hx.nested depth).congr
  rw [and_true, true_and]
  omega

theorem operands_fit {line : UInt32} {leftField rightField : String} {leaf : Bool}
    {left right : Tree} {room : Nat} {x y : Lower Code}
    (hleft : Decides names x (ExpressionFits fns room left))
    (hright : Decides names y (ExpressionFits fns room right)) :
    Decides names (Lower.operands line leftField rightField leaf x y)
      ((left.IsExpression fns ∧ right.IsExpression fns) ∧
        max left.expressionChain right.expressionChain ≤ room) :=
  (hleft.operands hright).congr (by simp only [ExpressionFits, max_le_iff]; tauto)

/-- An expression is accepted exactly if it is one and its chain fits. The recursion is
on the tree; every case lists what its parts decide. -/
theorem expression_decides (henv : env.Declares fns) (t : Tree) (depth : Nat) :
    Decides names (expression env depth t) (ExpressionFits fns (maxDepth - depth) t) := by
  match t with
  | .absent =>
      rw [expression]
      exact (Decides.fail _).congr (by simp [ExpressionFits, Tree.IsExpression])
  | .constant line c =>
      rw [expression]
      simpa [ExpressionFits, Tree.IsExpression, Tree.expressionChain]
        using (constant_decides line c).leaf
  | .name line id =>
      rw [expression]
      simpa [ExpressionFits, Tree.IsExpression, Tree.expressionChain] using (name_decides line id).leaf
  | .binary line op left right =>
      rw [expression, ExpressionFits, Tree.IsExpression, Tree.expressionChain]
      exact ((operands_fit (expression_decides henv left (depth + 1))
        (expression_decides henv right (depth + 1))).map _).level
  | .compare line op left right =>
      rw [expression, ExpressionFits, Tree.IsExpression, Tree.expressionChain]
      refine (((operands_fit (expression_decides henv left (depth + 1))
        (expression_decides henv right (depth + 1))).bind
          fun _ => (Decides.drawLabel env).map _).congr ?_).level
      simp
  | .call line callee args =>
      have hargs := Decides.pushEach line "args" args
        fun t _ => expression_decides henv t (depth + 1)
      rw [expression, expressions_eq_map, ExpressionFits, Tree.IsExpression, Tree.expressionChain]
      refine (((checkCallee_decides henv line callee _).bind
        fun _ => (hargs 0).map _).congr ?_).level
      rw [forall_expressionFits]
      tauto
  | .list line elements =>
      have helements := Decides.pushEach line "elts" elements
        fun t _ => expression_decides henv t (depth + 1)
      rw [expression, expressions_eq_map, ExpressionFits, Tree.IsExpression, Tree.expressionChain]
      refine (((Decides.newRegion env _ _).bind fun _ => (helements 0).map _).congr ?_).level
      rw [forall_expressionFits]
      tauto
  | .dict line keys values =>
      rw [expression, expressions_eq_map, expressions_eq_map, ExpressionFits, Tree.IsExpression,
        Tree.expressionChain]
      apply Decides.level
      split
      · rename_i hlength
        exact (Decides.fail _).congr (by simp [hlength])
      · rename_i hlength
        have hpairs := Decides.pushPairs line keys values (not_not.mp hlength)
          (fun t _ => expression_decides henv t (depth + 1))
          (fun t _ => expression_decides henv t (depth + 1))
        refine ((Decides.newRegion env _ _).bind fun _ => (hpairs 0).map _).congr ?_
        rw [forall_expressionFits, forall_expressionFits, max_le_iff]
        tauto
  | .subscript line value index =>
      rw [expression, ExpressionFits, Tree.IsExpression, Tree.expressionChain]
      exact ((operands_fit (expression_decides henv value (depth + 1))
        (expression_decides henv index (depth + 1))).map _).level
  | .attribute .. | .functionDef .. | .assign .. | .augAssign .. | .ret .. | .expr ..
  | .ifElse .. | .whileLoop .. =>
      rw [expression]
      · refine ((Decides.unsupported _ _).nested depth).congr ?_
        simp [ExpressionFits, Tree.IsExpression]
      all_goals simp

theorem builtinConstant?_eq_none_iff {id : String} :
    builtinConstant? id = none ↔ id ∉ ["True", "False", "None"] := by
  unfold builtinConstant?
  split_ifs <;> simp_all

/-- A name can be assigned to unless it is a built-in constant. -/
def Assignable : Tree → Prop
  | .name _ id => id ∉ ["True", "False", "None"]
  | _ => True

/-- The names that are local once the targets have been declared. -/
def withTargets (names : List String) : List Tree → List String
  | [] => names
  | .name _ id :: rest => withTargets (id :: names) rest
  | _ :: rest => withTargets names rest

theorem subset_withTargets (names : List String) (targets : List Tree) :
    names ⊆ withTargets names targets := by
  fun_induction withTargets names targets with
  | case1 => exact List.Subset.refl _
  | case2 names _ id rest ih => exact fun x hx => ih (List.mem_cons_of_mem _ hx)
  | case3 names t rest _ ih => exact ih

theorem mem_withTargets {names : List String} {targets : List Tree} {line : UInt32} {id : String}
    (h : Tree.name line id ∈ targets) : id ∈ withTargets names targets := by
  fun_induction withTargets names targets with
  | case1 => cases h
  | case2 names _ other rest ih =>
      rcases List.mem_cons.mp h with heq | hmem
      · cases heq
        exact subset_withTargets _ _ List.mem_cons_self
      · exact ih hmem
  | case3 names t rest hother ih =>
      rcases List.mem_cons.mp h with heq | hmem
      · exact absurd heq.symm (hother line id)
      · exact ih hmem

theorem contains_declareLocal (scope : Scope) (name id : String) :
    (scope.declareLocal name).contains id = true ↔ id = name ∨ scope.contains id = true := by
  unfold Scope.declareLocal
  split
  · rename_i hknown
    constructor
    · exact Or.inr
    · rintro (rfl | h)
      · exact hknown
      · exact h
  · simp only [Scope.contains, Scope.displacement?, List.lookup_append]
    by_cases hid : id = name
    · simp [hid, List.lookup]
    · have hbeq : (id == name) = false := by simpa using hid
      simp [List.lookup, hbeq, hid]

/-- What follows the declaration of a target may count on its name. -/
theorem declareTarget_bind {α : Type} {t : Tree} {f : Unit → Lower α} {Q : Prop}
    (hf : Decides (withTargets names [t]) (f ()) Q) :
    Decides names (declareTarget t >>= f) (Assignable t ∧ Q) := by
  cases t with
  | name line id =>
      rw [declareTarget]
      by_cases hbuiltin : builtinConstant? id = none
      · have hassignable : Assignable (.name line id) := builtinConstant?_eq_none_iff.mp hbuiltin
        rw [if_neg (by simp [hbuiltin])]
        have hholds : ∀ st : LoweringState, st.Holds names → (st.declare id).Holds (id :: names) := by
          intro st hst x hx
          refine (contains_declareLocal st.scope id x).mpr ?_
          rcases List.mem_cons.mp hx with rfl | hx
          · exact Or.inl rfl
          · exact Or.inr (hst x hx)
        have hdeclare : ∀ st, (declareLocal id >>= f : Lower α) st = f () (st.declare id) :=
          fun st => rfl
        constructor
        · intro st hst
          rw [hdeclare, hf.iff _ (hholds st hst)]
          simp [hassignable]
        · intro st a st' hst h
          rw [hdeclare] at h
          intro x hx
          exact hf.keeps _ a st' (hholds st hst) h x (List.mem_cons_of_mem _ hx)
      · have hnot : ¬Assignable (.name line id) := fun h =>
          hbuiltin (builtinConstant?_eq_none_iff.mpr h)
        rw [if_pos (by simpa [Option.isSome_iff_ne_none] using hbuiltin)]
        exact (Decides.fail_bind _ f).congr (by simp [hnot])
  | _ => exact Decides.congr (x := f ()) hf (by simp [Assignable])

theorem declareTargets_bind {α : Type} {targets : List Tree} {f : Unit → Lower α} {Q : Prop}
    (hf : Decides (withTargets names targets) (f ()) Q) :
    Decides names (declareTargets targets >>= f) ((∀ t ∈ targets, Assignable t) ∧ Q) := by
  induction targets generalizing names with
  | nil => exact Decides.congr (x := f ()) hf (by simp)
  | cons t rest ih =>
      have hsplit : withTargets names (t :: rest) = withTargets (withTargets names [t]) rest := by
        cases t <;> rfl
      rw [hsplit] at hf
      rw [declareTargets, bind_assoc]
      exact (declareTarget_bind (ih hf)).congr (by simp [and_assoc])

/-- What storing needs of a target whose name, if it is one, is local. -/
def StoreFits (fns : List FunctionDef) (room : Nat) : Tree → Prop
  | .name .. => True
  | .subscript _ value index => ExpressionFits fns room value ∧ ExpressionFits fns room index
  | _ => False

theorem storeFits_iff {room : Nat} {t : Tree} :
    Assignable t ∧ StoreFits fns room t ↔ t.IsTarget fns ∧ t.targetChain ≤ room := by
  cases t with
  | subscript line value index =>
      simp only [Assignable, StoreFits, ExpressionFits, Tree.IsTarget, Tree.targetChain, max_le_iff]
      tauto
  | _ => simp [Assignable, StoreFits, Tree.IsTarget, Tree.targetChain]

/-- A local name has a slot. -/
theorem exists_slot {st : LoweringState} (hst : st.Holds names) {id : String} (hid : id ∈ names) :
    ∃ d, slot id st = .ok (.frameSlot d) st := by
  obtain ⟨d, hd⟩ := Option.isSome_iff_exists.mp (hst id hid)
  exact ⟨d, by rw [slot_eq, hd]⟩

theorem store_decides (henv : env.Declares fns) {t : Tree} {depth : Nat}
    (hnames : ∀ line id, t = .name line id → id ∈ names) :
    Decides names (store env depth t) (StoreFits fns (maxDepth - depth) t) := by
  cases t with
  | absent => exact Decides.fail _
  | name line id =>
      have hslot : ∀ st : LoweringState, st.Holds names →
          ∃ d, store env depth (.name line id) st = .ok [Emit.mov line (.frameSlot d) Emit.rax] st := by
        intro st hst
        obtain ⟨d, hget⟩ := exists_slot hst (hnames line id rfl)
        exact ⟨d, by rw [store, bind_of_ok hget]; rfl⟩
      constructor
      · intro st hst
        obtain ⟨d, hd⟩ := hslot st hst
        exact ⟨fun _ => trivial, fun _ => ⟨_, _, hd⟩⟩
      · intro st a st' hst h
        obtain ⟨d, hd⟩ := hslot st hst
        rw [hd] at h
        cases h
        exact hst
  | subscript line value index =>
      rw [store]
      exact ((expression_decides henv value depth).operands
        (expression_decides henv index depth)).map _
  | _ =>
      rw [store]
      · exact Decides.unsupported _ _
      all_goals simp

theorem storeEach_decides (henv : env.Declares fns) {targets : List Tree} {depth : Nat}
    (hnames : ∀ line id, Tree.name line id ∈ targets → id ∈ names) (index : Nat) :
    Decides names (storeEach env depth index targets)
      (∀ t ∈ targets, StoreFits fns (maxDepth - depth) t) := by
  induction targets generalizing index with
  | nil => exact (Decides.pure _).congr (by simp)
  | cons t rest ih =>
      have hhead : Decides names (store env depth t) (StoreFits fns (maxDepth - depth) t) :=
        store_decides henv fun line id heq => hnames line id (by simp [heq])
      have htail := ih (fun line id hmem => hnames line id (List.mem_cons_of_mem _ hmem)) (index + 1)
      exact ((hhead.within _).bind fun _ => htail.map _).congr (by simp)

theorem assign_decides (henv : env.Declares fns) (line : UInt32) (targets : List Tree)
    (value : Tree) (depth : Nat) :
    Decides names (assign env depth line targets value)
      ((targets ≠ [] ∧ (∀ t ∈ targets, t.IsTarget fns) ∧ value.IsExpression fns) ∧
        max (Tree.targetChains targets) value.expressionChain ≤ maxDepth - depth) := by
  unfold assign
  split
  · rename_i hempty
    exact (Decides.fail _).congr (by simp_all)
  · rename_i hempty
    have hsome : targets ≠ [] := by simpa using hempty
    refine (declareTargets_bind (((expression_decides henv value depth).within _).bind fun _ =>
      (storeEach_decides henv (fun _ _ hmem => mem_withTargets hmem) 0).map _)).congr ?_
    have htargets : (∀ t ∈ targets, Assignable t) ∧
        (∀ t ∈ targets, StoreFits fns (maxDepth - depth) t) ↔
        (∀ t ∈ targets, t.IsTarget fns) ∧ Tree.targetChains targets ≤ maxDepth - depth := by
      rw [Tree.targetChains_le_iff, ← forall₂_and, ← forall₂_and]
      exact forall₂_congr fun t _ => storeFits_iff
    rw [max_le_iff, ExpressionFits]
    tauto

theorem one_le_expressionChain {t : Tree} (h : t.IsExpression fns) : 1 ≤ t.expressionChain := by
  cases t <;> simp_all [Tree.IsExpression, Tree.expressionChain]

theorem augAssign_decides (henv : env.Declares fns) (line : UInt32) (target : Tree)
    (op : BinaryOperator) (value : Tree) (depth : Nat) :
    Decides names (augAssign env depth line target op value)
      ((target.IsTarget fns ∧ value.IsExpression fns) ∧
        max target.targetChain value.expressionChain ≤ maxDepth - depth) := by
  unfold augAssign
  split
  · rename_i tline base index
    refine (((operands_fit (expression_decides henv base depth)
      (expression_decides henv index depth)).within _).bind fun _ =>
        ((expression_decides henv value depth).within _).map _).congr ?_
    simp only [Tree.IsTarget, Tree.targetChain, ExpressionFits, max_le_iff]
    tauto
  · rename_i hother
    have hnames : ∀ tline id, target = .name tline id → id ∈ withTargets names [target] := by
      rintro tline id rfl
      exact mem_withTargets List.mem_cons_self
    refine (declareTarget_bind (((expression_decides henv target depth).operands
      (expression_decides henv value depth)).bind fun _ =>
        ((store_decides henv hnames).within _).map _)).congr ?_
    cases target with
    | name tline id =>
        -- The name is opened as an expression too, which the value has room for anyway.
        have hone : value.IsExpression fns → 1 ≤ value.expressionChain := one_le_expressionChain
        simp only [Assignable, StoreFits, ExpressionFits, Tree.IsTarget, Tree.IsExpression,
          Tree.expressionChain, Tree.targetChain, max_le_iff, true_and, and_true, zero_le]
        constructor
        · rintro ⟨hid, -, hvalue, hchain⟩
          exact ⟨⟨hid, hvalue⟩, hchain⟩
        · rintro ⟨⟨hid, hvalue⟩, hchain⟩
          exact ⟨hid, (hone hvalue).trans hchain, hvalue, hchain⟩
    | subscript tline base index => exact absurd rfl (hother tline base index)
    | _ => simp [StoreFits, Tree.IsTarget]

/-- What a statement needs when `room` levels are left. -/
def StatementFits (fns : List FunctionDef) (room : Nat) (t : Tree) : Prop :=
  t.IsStatement fns ∧ t.statementChain ≤ room

theorem forall_statementFits {room : Nat} {ts : List Tree} :
    (∀ t ∈ ts, StatementFits fns room t) ↔
      Tree.AreStatements fns ts ∧ Tree.statementChains ts ≤ room := by
  rw [Tree.areStatements_iff, Tree.statementChains_le_iff]
  simp only [StatementFits]
  exact ⟨fun h => ⟨fun t ht => (h t ht).1, fun t ht => (h t ht).2⟩,
    fun h t ht => ⟨h.1 t ht, h.2 t ht⟩⟩

theorem statement_decides (henv : env.Declares fns) (t : Tree) (depth : Nat) :
    Decides names (statement env depth t) (StatementFits fns (maxDepth - depth) t) := by
  match t with
  | .absent =>
      rw [statement]
      exact (Decides.fail _).congr (by simp [StatementFits, Tree.IsStatement, Tree.IsExpression])
  | .assign line targets value =>
      rw [statement, StatementFits, Tree.IsStatement, Tree.statementChain]
      exact (assign_decides henv line targets value (depth + 1)).level
  | .augAssign line target op value =>
      rw [statement, StatementFits, Tree.IsStatement, Tree.statementChain]
      exact (augAssign_decides henv line target op value (depth + 1)).level
  | .ret line value =>
      rw [StatementFits, Tree.IsStatement, Tree.statementChain]
      by_cases hvalue : value = .absent
      · subst hvalue
        rw [statement]
        simpa [Tree.expressionChain] using (Decides.pure _).leaf
      · rw [statement]
        · refine ((((expression_decides henv value (depth + 1)).within _).map _).congr ?_).level
          simp [ExpressionFits, hvalue]
        · exact hvalue
  | .expr line value =>
      rw [statement, StatementFits, Tree.IsStatement, Tree.statementChain]
      exact ((expression_decides henv value (depth + 1)).within _).level
  | .ifElse line test body orelse =>
      have hbody := Decides.block "body" body fun t _ => statement_decides henv t (depth + 1)
      have horelse := Decides.block "orelse" orelse fun t _ => statement_decides henv t (depth + 1)
      rw [statement, statements_eq_map, statements_eq_map, StatementFits, Tree.IsStatement,
        Tree.statementChain]
      refine (((Decides.drawLabel env).bind fun _ =>
        ((expression_decides henv test (depth + 1)).within _).bind fun _ =>
          (hbody 0).bind fun _ => (horelse 0).map _).congr ?_).level
      rw [forall_statementFits, forall_statementFits, ExpressionFits, max_le_iff, max_le_iff]
      tauto
  | .whileLoop line test body =>
      have hbody := Decides.block "body" body fun t _ => statement_decides henv t (depth + 1)
      rw [statement, statements_eq_map, StatementFits, Tree.IsStatement, Tree.statementChain]
      refine (((Decides.drawLabel env).bind fun _ =>
        ((expression_decides henv test (depth + 1)).within _).bind fun _ =>
          (hbody 0).map _).congr ?_).level
      rw [forall_statementFits, ExpressionFits, max_le_iff]
      tauto
  | .functionDef .. =>
      rw [statement]
      refine ((Decides.unsupported _ _).nested depth).congr ?_
      simp [StatementFits, Tree.IsStatement, Tree.IsExpression]
  | .binary .. | .compare .. | .call .. | .list .. | .dict .. | .subscript ..
  | .attribute .. | .name .. | .constant .. =>
      rw [statement, StatementFits, Tree.IsStatement, Tree.statementChain]
      · exact (expression_decides henv _ (depth + 1)).level
      all_goals simp

end Lower

theorem Scope.declareParams_isOk_iff {scope : Scope} {index count : Nat} {params : List String} :
    (∃ entry, scope.declareParams index count params = .ok entry) ↔
      params.Nodup ∧ ∀ name ∈ params, scope.contains name = false := by
  induction params generalizing scope index with
  | nil => simp [declareParams]
  | cons name rest ih =>
      cases hcontains : scope.contains name with
      | true => simp [declareParams, declareParam, hcontains]
      | false =>
          have hadded : ∀ id, Scope.contains
              { scope with slots := scope.slots ++ [(name, paramDisplacement index count)] } id =
                false ↔ id ≠ name ∧ scope.contains id = false := by
            intro id
            by_cases hid : id = name
            · simp [contains, displacement?, List.lookup_append, List.lookup, hid]
            · have hbeq : (id == name) = false := by simpa using hid
              simp [contains, displacement?, List.lookup_append, List.lookup, hbeq, hid]
          simp only [declareParams, declareParam, hcontains, Bool.false_eq_true, if_false, ih, hadded,
            List.nodup_cons, List.mem_cons, forall_eq_or_imp, true_and]
          constructor
          · rintro ⟨hnodup, hrest⟩
            exact ⟨⟨fun hmem => (hrest name hmem).1 rfl, hnodup⟩, fun id hid => (hrest id hid).2⟩
          · rintro ⟨⟨hnew, hnodup⟩, hrest⟩
            exact ⟨hnodup, fun id hid => ⟨fun heq => hnew (heq ▸ hid), hrest id hid⟩⟩

theorem lower_isOk_iff {env : LoweringEnv} {fns : List FunctionDef} (henv : env.Declares fns)
    (fn : FunctionDef) :
    (∃ unit, (env.lower fn).result = .ok unit) ↔
      fn.params.Nodup ∧ ∀ t ∈ fn.body, t.IsStatement fns ∧ t.statementChain ≤ 256 := by
  have hparams : (∃ entry,
      ({ owner := fn.name } : Scope).declareParams 0 fn.params.length fn.params = .ok entry) ↔
        fn.params.Nodup := by
    rw [Scope.declareParams_isOk_iff]
    simp [Scope.contains, Scope.displacement?]
  have hbody : ∀ st : LoweringState,
      (∃ code st', Lower.block "body" 0 (Lower.statements env 0 fn.body) st = .ok code st') ↔
        ∀ t ∈ fn.body, t.IsStatement fns ∧ t.statementChain ≤ 256 := by
    intro st
    rw [Lower.statements_eq_map]
    have hnone : st.Holds [] := by simp [LoweringState.Holds]
    exact (Lower.Decides.block "body" fn.body
      (fun t _ => Lower.statement_decides henv t 0) 0).iff st hnone
  rw [← hparams]
  unfold LoweringEnv.lower
  cases hdeclare : ({ owner := fn.name } : Scope).declareParams 0 fn.params.length fn.params with
  | error e => simp [hdeclare]
  | ok entry =>
      rw [← hbody { scope := entry }]
      cases hblock : Lower.block "body" 0 (Lower.statements env 0 fn.body) { scope := entry } with
      | error e st => simp [hdeclare, hblock]
      | ok body final => simp [hdeclare, hblock, patchReservation_unpatched]

namespace Compile

theorem collect_isOk_iff {results : List (Except CompileError CompiledUnit)} :
    (∃ units, collect results = .ok units) ↔ ∀ r ∈ results, ∃ unit, r = .ok unit := by
  constructor
  · rintro ⟨units, h⟩ r hr
    rw [collect_eq_ok_iff.mp h] at hr
    obtain ⟨unit, -, rfl⟩ := List.mem_map.mp hr
    exact ⟨unit, rfl⟩
  · intro h
    cases hcollect : collect results with
    | ok units => exact ⟨units, rfl⟩
    | error e =>
        obtain ⟨i, hi, -⟩ := collect_eq_error hcollect
        obtain ⟨unit, hunit⟩ := h _ (List.mem_of_getElem? hi)
        cases hunit

/-- New functions with names that are distinct and free can be declared. -/
theorem declareAll_of_new {fns : List FunctionDef} {ctx : Context}
    (hunreserved : ∀ fn ∈ fns, isReservedSymbol fn.name = false) (hdistinct : (fns.map (·.name)).Nodup)
    (hnew : ∀ fn ∈ fns, fn.name ∉ ctx.functions.map (·.1)) :
    ∃ ctx', declareAll (fns.map some) ctx = .ok fns ctx' := by
  induction fns generalizing ctx with
  | nil => exact ⟨ctx, rfl⟩
  | cons fn rest ih =>
      have hfree : isReservedSymbol fn.name = false := hunreserved fn List.mem_cons_self
      have hunknown : ctx.isFunction fn.name = false := by
        rw [← Bool.not_eq_true, isFunction_iff]
        exact hnew fn List.mem_cons_self
      rw [List.map_cons, List.nodup_cons] at hdistinct
      have hlater : ∀ gn ∈ rest,
          gn.name ∉ (ctx.functions ++ [(fn.name, fn.params.length)]).map (·.1) := by
        intro gn hgn hmem
        simp only [List.map_append, List.map_cons, List.map_nil, List.mem_append,
          List.mem_singleton] at hmem
        rcases hmem with hmem | heq
        · exact hnew gn (List.mem_cons_of_mem _ hgn) hmem
        · exact hdistinct.1 (heq ▸ List.mem_map_of_mem hgn)
      obtain ⟨ctx', hrest⟩ : ∃ ctx', declareAll (rest.map some)
          { ctx with functions := ctx.functions ++ [(fn.name, fn.params.length)] } = .ok rest ctx' :=
        ih (fun gn hgn => hunreserved gn (List.mem_cons_of_mem _ hgn)) hdistinct.2 hlater
      have hdeclare := declare_eq fn ctx
      rw [hfree, hunknown, if_neg (by simp), if_neg (by simp)] at hdeclare
      refine ⟨ctx', ?_⟩
      rw [List.map_cons, declareAll, bind_of_ok hdeclare, bind_of_ok hrest]
      rfl

end Compile

open Compile

theorem Source.eq_map_functions {s : Source} (h : none ∉ s) : s = s.functions.map some := by
  induction s with
  | nil => rfl
  | cons entry rest ih =>
      rw [List.mem_cons, not_or] at h
      cases entry with
      | none => exact absurd rfl h.1
      | some fn =>
          change some fn :: rest = some fn :: (Source.functions rest).map some
          rw [← ih h.2]

/-- The functions of a source can be declared, or the source is refused at once. -/
theorem declareAll_isOk_iff {s : Source} :
    (∃ ctx, declareAll s {} = .ok s.functions ctx) ↔ none ∉ s ∧ Declarable s.functions := by
  constructor
  · rintro ⟨ctx, h⟩
    obtain ⟨hs, -, hunreserved, hdistinct, -⟩ := declareAll_eq_ok h
    refine ⟨?_, hunreserved, hdistinct⟩
    rw [hs]
    simp
  · rintro ⟨hpresent, hdeclarable⟩
    obtain ⟨ctx, h⟩ : ∃ ctx, declareAll (s.functions.map some) {} = .ok s.functions ctx :=
      declareAll_of_new hdeclarable.unreserved hdeclarable.distinct (by simp)
    rw [← Source.eq_map_functions hpresent] at h
    exact ⟨ctx, h⟩

theorem envOf_declares {fns : List FunctionDef} (h : (fns.map (·.name)).Nodup) (labels : Nat → Nat) :
    (envOf fns labels).Declares fns := by
  intro callee n
  have hkeys : ((fns.map fun fn => (fn.name, fn.params.length)).map (·.1)).Nodup := by
    simpa [Function.comp_def] using h
  change (fns.map fun fn => (fn.name, fn.params.length)).lookup callee = some n ↔ _
  rw [lookup_eq_some_iff_mem hkeys]
  simp

/-- All functions of a source are lowered, whatever the supplies of label numbers. -/
theorem outcomes_isOk_iff {fns : List FunctionDef} (h : (fns.map (·.name)).Nodup)
    (labels : Nat → Nat → Nat) :
    (∃ units, collect ((outcomesUnder fns labels).map (·.result)) = .ok units) ↔
      ∀ fn ∈ fns, fn.params.Nodup ∧ ∀ t ∈ fn.body, t.IsStatement fns ∧ t.statementChain ≤ 256 := by
  rw [collect_isOk_iff, List.forall_mem_map]
  constructor
  · intro hall fn hfn
    obtain ⟨i, hi⟩ := List.mem_iff_getElem?.mp hfn
    rw [← lower_isOk_iff (envOf_declares h (labels i))]
    exact hall _ (mem_outcomesUnder.mpr ⟨i, fn, hi, rfl⟩)
  · intro hall f hf
    obtain ⟨i, fn, hi, rfl⟩ := mem_outcomesUnder.mp hf
    rw [lower_isOk_iff (envOf_declares h (labels i))]
    exact hall fn (List.mem_of_getElem? hi)

/-- The rules for a source, with those for its functions taken together. -/
theorem Source.acceptable_iff {s : Source} :
    s.Acceptable ↔ (none ∉ s ∧ Declarable s.functions) ∧
      ∀ fn ∈ s.functions, fn.params.Nodup ∧
        ∀ t ∈ fn.body, t.IsStatement s.functions ∧ t.statementChain ≤ 256 := by
  constructor
  · intro h
    exact ⟨⟨h.present, h.unreserved, h.distinct⟩, fun fn hfn =>
      ⟨h.params fn hfn, fun t ht => ⟨h.statements fn hfn t ht, h.chains fn hfn t ht⟩⟩⟩
  · rintro ⟨⟨hpresent, hunreserved, hdistinct⟩, hbodies⟩
    exact {
      present := hpresent
      unreserved := hunreserved
      distinct := hdistinct
      params := fun fn hfn => (hbodies fn hfn).1
      statements := fun fn hfn t ht => ((hbodies fn hfn).2 t ht).1
      chains := fun fn hfn t ht => ((hbodies fn hfn).2 t ht).2 }

/-- A compilation that declares the functions and then lowers them, with any supplies of
label numbers, succeeds on the acceptable sources. -/
theorem Source.isOk_iff_acceptable {s : Source} {compiled : Except CompileError Program}
    (hrefused : ∀ e ctx, declareAll s {} = .error e ctx → compiled = .error e)
    (hlowered : ∀ fns ctx, declareAll s {} = .ok fns ctx → ∃ labels,
      (∃ p, compiled = .ok p) ↔
        ∃ units, collect ((outcomesUnder fns labels).map (·.result)) = .ok units) :
    (∃ p, compiled = .ok p) ↔ s.Acceptable := by
  rw [Source.acceptable_iff, ← declareAll_isOk_iff]
  cases hdeclare : declareAll s {} with
  | error e ctx => simp [hrefused e ctx hdeclare]
  | ok fns ctx =>
      obtain ⟨hs, -, -, hdistinct, -⟩ := declareAll_eq_ok hdeclare
      have hfns : s.functions = fns := by rw [hs, Source.functions_map_some]
      obtain ⟨labels, hiff⟩ := hlowered fns ctx hdeclare
      rw [hiff, outcomes_isOk_iff hdistinct, hfns]
      simp

theorem link_isOk_iff {outcomes : List LoweredFunction} :
    (∃ p, link outcomes = .ok p) ↔ ∃ units, collect (outcomes.map (·.result)) = .ok units := by
  unfold link
  cases collect (outcomes.map (·.result)) <;> simp

theorem Source.compile_isOk (s : Source) (jobs : Nat) :
    (∃ p, s.compile jobs = .ok p) ↔ s.Acceptable := by
  apply Source.isOk_iff_acceptable
  · intro e ctx h
    rw [Source.compile_eq, h]
  · intro fns ctx h
    refine ⟨inOrderLabels fns, ?_⟩
    rw [Source.compile_eq, h]
    exact link_isOk_iff

theorem Source.compileInterleaved_isOk (s : Source) (jobs : Nat) (trace : Trace) :
    (∃ p, s.compileInterleaved jobs trace = .ok p) ↔ s.Acceptable := by
  apply Source.isOk_iff_acceptable
  · intro e ctx h
    rw [Source.compileInterleaved, h]
  · intro fns ctx h
    rw [Source.compileInterleaved, h]
    by_cases hjobs : jobs ≤ 1 ∨ fns.length ≤ 1
    · refine ⟨inOrderLabels fns, ?_⟩
      rw [Source.compile_eq, h]
      simp only [if_pos hjobs]
      exact link_isOk_iff
    · refine ⟨trace.supply, ?_⟩
      simp only [if_neg hjobs]
      cases collect ((outcomesUnder fns trace.supply).map (·.result)) <;> simp

/-- The complement of success is failure with an error. -/
theorem Except.isError_iff_not {ε α : Type} {x : Except ε α} {P : Prop}
    (h : (∃ a, x = .ok a) ↔ P) : (∃ e, x = .error e) ↔ ¬P := by
  rw [← h]
  cases x <;> simp

/-- A source is compiled exactly if it keeps the rules, and otherwise refused with an
error: with any number of jobs, and whatever the order in which the jobs draw their
label numbers and promote names. -/
theorem Source.compiles_iff_acceptable (s : Source) (jobs : Nat) (trace : Trace) :
    ((∃ p, s.compile jobs = .ok p) ↔ s.Acceptable) ∧
      ((∃ e, s.compile jobs = .error e) ↔ ¬s.Acceptable) ∧
      ((∃ p, s.compileInterleaved jobs trace = .ok p) ↔ s.Acceptable) ∧
      ((∃ e, s.compileInterleaved jobs trace = .error e) ↔ ¬s.Acceptable) :=
  ⟨s.compile_isOk jobs, Except.isError_iff_not (s.compile_isOk jobs),
    s.compileInterleaved_isOk jobs trace,
    Except.isError_iff_not (s.compileInterleaved_isOk jobs trace)⟩

end Arbor
