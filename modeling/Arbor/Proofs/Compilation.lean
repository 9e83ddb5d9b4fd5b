import Mathlib.Data.List.Sort
import Mathlib.Data.String.Basic
import Mathlib.Tactic
import Arbor.Lowering.Compilation
import Arbor.Proofs.Derivation

/-!
What a compilation amounts to. Declaring checks the names; after that every
function is lowered with a label supply of its own, and the outcomes are linked:
the earliest failure if there is one, else all units with the union of the names
they promoted. Lowering in turn, with one job or several, is the supply that
counts on from function to function.
-/

namespace Arbor

namespace Names

theorem mem_add {x name : String} {set : Names} : x ∈ add name set ↔ x = name ∨ x ∈ set := by
  induction set with
  | nil => simp [add]
  | cons y ys ih =>
      unfold add
      split
      · simp
      · split
        · next heq => simp [heq]
        · simp only [List.mem_cons, ih]
          tauto

theorem mem_addAll {x : String} {names : List String} {set : Names} :
    x ∈ addAll names set ↔ x ∈ names ∨ x ∈ set := by
  unfold addAll
  induction names generalizing set with
  | nil => simp
  | cons n ns ih =>
      rw [List.foldl_cons, ih, mem_add, List.mem_cons]
      tauto

/-- Adding a name keeps the order strict. -/
theorem pairwise_add {name : String} {set : Names} (h : set.Pairwise (· < ·)) :
    (add name set).Pairwise (· < ·) := by
  induction set with
  | nil => simp [add]
  | cons y ys ih =>
      obtain ⟨hy, hys⟩ := List.pairwise_cons.mp h
      unfold add
      split
      · next hlt =>
          refine List.pairwise_cons.mpr ⟨?_, h⟩
          intro z hz
          rcases List.mem_cons.mp hz with rfl | hz
          · exact hlt
          · exact lt_trans hlt (hy z hz)
      · next hnlt =>
          split
          · exact h
          · next hne =>
              refine List.pairwise_cons.mpr ⟨?_, ih hys⟩
              intro z hz
              rcases mem_add.mp hz with rfl | hz
              · exact lt_of_le_of_ne (not_lt.mp hnlt) (Ne.symm hne)
              · exact hy z hz

theorem pairwise_addAll {names : List String} {set : Names} (h : set.Pairwise (· < ·)) :
    (addAll names set).Pairwise (· < ·) := by
  unfold addAll
  induction names generalizing set with
  | nil => exact h
  | cons n ns ih => exact ih (pairwise_add h)

/-- A set of names is determined by its members. -/
theorem eq_of_mem_iff {a b : Names} (ha : a.Pairwise (· < ·)) (hb : b.Pairwise (· < ·))
    (h : ∀ x, x ∈ a ↔ x ∈ b) : a = b :=
  ha.eq_of_mem_iff hb h

end Names

/-- The declared number of arguments of each function. -/
def arityOf (fns : List FunctionDef) (name : String) : Option Nat :=
  (fns.map fun fn => (fn.name, fn.params.length)).lookup name

theorem exists_of_arityOf {fns : List FunctionDef} {name : String} {n : Nat}
    (h : arityOf fns name = some n) :
    ∃ fn ∈ fns, fn.name = name ∧ fn.params.length = n := by
  obtain ⟨before, after, heq, -⟩ := List.lookup_eq_some_iff.mp h
  have hmem : (name, n) ∈ fns.map fun fn => (fn.name, fn.params.length) := by
    rw [heq]
    simp
  obtain ⟨fn, hfn, hpair⟩ := List.mem_map.mp hmem
  exact ⟨fn, hfn, Prod.mk.inj hpair⟩

/-- The setting in which a function of a source is lowered. -/
def envOf (fns : List FunctionDef) (labels : Nat → Nat) : LoweringEnv :=
  { arity? := arityOf fns, label := labels }

/-- What declaring requires of the functions of a source. -/
structure Declarable (fns : List FunctionDef) : Prop where
  unreserved : ∀ fn ∈ fns, isReservedSymbol fn.name = false
  distinct : (fns.map (·.name)).Nodup

/-- A function is found by its name. -/
theorem Declarable.index_eq {fns : List FunctionDef} (h : Declarable fns) {i j : Nat}
    {fn gn : FunctionDef} (hi : fns[i]? = some fn) (hj : fns[j]? = some gn)
    (hname : fn.name = gn.name) : i = j := by
  have hlt : i < (fns.map (·.name)).length := by
    simpa using (List.getElem?_eq_some_iff.mp hi).1
  apply (List.getElem?_inj hlt h.distinct).mp
  simp [hi, hj, hname]

namespace Compile

theorem isFunction_iff {ctx : Context} {name : String} :
    ctx.isFunction name = true ↔ name ∈ ctx.functions.map (·.1) := by
  unfold Context.isFunction Context.arity?
  induction ctx.functions with
  | nil => simp
  | cons f fs ih =>
      obtain ⟨g, n⟩ := f
      by_cases hname : name = g
      · simp [List.lookup, hname]
      · have hbeq : (name == g) = false := by simpa using hname
        simp only [List.lookup, hbeq, ih, List.map_cons, List.mem_cons, hname, false_or]

theorem declare_eq (fn : FunctionDef) (ctx : Context) :
    declare fn ctx =
      if isReservedSymbol fn.name then .error (.reservedFunction fn.name fn.line) ctx
      else if ctx.isFunction fn.name then .error (.duplicateFunction fn.name fn.line) ctx
      else .ok () { ctx with functions := ctx.functions ++ [(fn.name, fn.params.length)] } := by
  unfold declare
  cases hreserved : isReservedSymbol fn.name <;> cases hknown : ctx.isFunction fn.name <;>
    simp [bind, EStateM.bind, get, getThe, MonadStateOf.get, EStateM.get, hknown,
      Context.declareFunction] <;> rfl

/-- Declaring succeeds with the functions of the source in order, all of them
new, and changes nothing but the table of functions. -/
theorem declareAll_eq_ok {s : Source} {ctx ctx' : Context} {fns : List FunctionDef}
    (h : declareAll s ctx = .ok fns ctx') :
    s = fns.map some ∧
      ctx' = { ctx with
        functions := ctx.functions ++ fns.map fun fn => (fn.name, fn.params.length) } ∧
      (∀ fn ∈ fns, isReservedSymbol fn.name = false) ∧
      (fns.map (·.name)).Nodup ∧
      (∀ fn ∈ fns, fn.name ∉ ctx.functions.map (·.1)) := by
  induction s generalizing ctx fns with
  | nil =>
      cases h
      simp
  | cons entry rest ih =>
      cases entry with
      | none => cases h
      | some fn =>
          obtain ⟨⟨⟩, ctx₁, hdeclare, h⟩ := bind_eq_ok h
          obtain ⟨fns', ctx₂, hrest, h⟩ := bind_eq_ok h
          obtain ⟨rfl, rfl⟩ := pure_eq_ok h
          rw [declare_eq] at hdeclare
          split at hdeclare
          · cases hdeclare
          · next hreserved =>
              split at hdeclare
              · cases hdeclare
              · next hknown =>
                  cases hdeclare
                  obtain ⟨rfl, rfl, hunreserved, hnodup, hfresh⟩ := ih hrest
                  rw [isFunction_iff] at hknown
                  simp only [List.map_append, List.map_cons, List.map_nil, List.mem_append,
                    List.mem_singleton, not_or] at hfresh
                  refine ⟨rfl, by simp, ?_, ?_, ?_⟩
                  · intro g hg
                    rcases List.mem_cons.mp hg with rfl | hg
                    · simpa using hreserved
                    · exact hunreserved g hg
                  · rw [List.map_cons, List.nodup_cons]
                    refine ⟨?_, hnodup⟩
                    intro hmem
                    obtain ⟨g, hg, heq⟩ := List.mem_map.mp hmem
                    exact (hfresh g hg).2 heq
                  · intro g hg
                    rcases List.mem_cons.mp hg with rfl | hg
                    · exact hknown
                    · exact (hfresh g hg).1

/-- The functions lowered one after another, from label number `next` on. -/
def lowerInOrder (arity? : String → Option Nat) : Nat → List FunctionDef → List LoweredFunction
  | _, [] => []
  | next, fn :: rest =>
    let lowered := LoweringEnv.lower { arity? := arity?, label := fun k => next + k } fn
    lowered :: lowerInOrder arity? (next + lowered.drawn) rest

/-- The names that some function promoted, added to a set. -/
def gather (globals : Names) (outcomes : List LoweredFunction) : Names :=
  outcomes.foldl (fun set f => set.addAll f.promoted) globals

/-- The units with the gathered globals, or the earliest failure. -/
def link (outcomes : List LoweredFunction) : Except CompileError Program :=
  match collect (outcomes.map (·.result)) with
  | .ok units => .ok { units := units, globals := gather [] outcomes }
  | .error e => .error e

theorem attempt_eq (fn : FunctionDef) (ctx : Context) :
    attempt fn ctx = .ok (ctx.env.lower fn).result (ctx.absorb (ctx.env.lower fn)) := rfl

theorem attemptAll_eq (fns : List FunctionDef) (ctx : Context) :
    ∃ ctx', attemptAll fns ctx =
        .ok ((lowerInOrder ctx.arity? ctx.nextLabel fns).map (·.result)) ctx' ∧
      ctx'.globals = gather ctx.globals (lowerInOrder ctx.arity? ctx.nextLabel fns) := by
  induction fns generalizing ctx with
  | nil => exact ⟨ctx, rfl, rfl⟩
  | cons fn rest ih =>
      obtain ⟨ctx', hrest, hglobals⟩ := ih (ctx.absorb (ctx.env.lower fn))
      refine ⟨ctx', ?_, hglobals⟩
      rw [attemptAll, bind_of_ok (attempt_eq fn ctx), bind_of_ok hrest]
      rfl

theorem function_of_ok {fn : FunctionDef} {ctx : Context} {unit : CompiledUnit}
    (h : (ctx.env.lower fn).result = .ok unit) :
    function fn ctx = .ok unit (ctx.absorb (ctx.env.lower fn)) := by
  rw [function, bind_of_ok (attempt_eq fn ctx), h]
  rfl

theorem function_of_error {fn : FunctionDef} {ctx : Context} {e : CompileError}
    (h : (ctx.env.lower fn).result = .error e) :
    function fn ctx = .error e (ctx.absorb (ctx.env.lower fn)) := by
  rw [function, bind_of_ok (attempt_eq fn ctx), h]
  rfl

theorem collect_lowerInOrder_of_ok {fn : FunctionDef} {rest : List FunctionDef} {ctx : Context}
    {unit : CompiledUnit} (h : (ctx.env.lower fn).result = .ok unit) :
    collect ((lowerInOrder ctx.arity? ctx.nextLabel (fn :: rest)).map (·.result)) =
      match collect ((lowerInOrder ctx.arity? (ctx.nextLabel + (ctx.env.lower fn).drawn)
        rest).map (·.result)) with
      | .ok units => .ok (unit :: units)
      | .error e => .error e := by
  change collect ((ctx.env.lower fn).result :: _) = _
  rw [h]
  rfl

theorem collect_lowerInOrder_of_error {fn : FunctionDef} {rest : List FunctionDef}
    {ctx : Context} {e : CompileError} (h : (ctx.env.lower fn).result = .error e) :
    collect ((lowerInOrder ctx.arity? ctx.nextLabel (fn :: rest)).map (·.result)) =
      .error e := by
  change collect ((ctx.env.lower fn).result :: _) = _
  rw [h]
  rfl

/-- Stopping at the first failure finds the same outcome as lowering everything
and then looking for the earliest failure. -/
theorem inTurn_eq (fns : List FunctionDef) (ctx : Context) :
    ∃ ctx', inTurn fns ctx =
        (match collect ((lowerInOrder ctx.arity? ctx.nextLabel fns).map (·.result)) with
        | .ok units => .ok units ctx'
        | .error e => .error e ctx') ∧
      (∀ units, inTurn fns ctx = .ok units ctx' →
        ctx'.globals = gather ctx.globals (lowerInOrder ctx.arity? ctx.nextLabel fns)) := by
  induction fns generalizing ctx with
  | nil => exact ⟨ctx, rfl, fun _ _ => rfl⟩
  | cons fn rest ih =>
      cases hresult : (ctx.env.lower fn).result with
      | error e =>
          have hturn : inTurn (fn :: rest) ctx =
              .error e (ctx.absorb (ctx.env.lower fn)) := by
            rw [inTurn, bind_of_error (function_of_error hresult)]
          refine ⟨ctx.absorb (ctx.env.lower fn), ?_, ?_⟩
          · rw [collect_lowerInOrder_of_error hresult, hturn]
          · intro units h
            rw [hturn] at h
            cases h
      | ok unit =>
          obtain ⟨ctx', hrest, hglobals⟩ := ih (ctx.absorb (ctx.env.lower fn))
          have hstart : lowerInOrder (ctx.absorb (ctx.env.lower fn)).arity?
              (ctx.absorb (ctx.env.lower fn)).nextLabel rest =
              lowerInOrder ctx.arity? (ctx.nextLabel + (ctx.env.lower fn).drawn) rest := rfl
          rw [hstart] at hrest hglobals
          have hturn : inTurn (fn :: rest) ctx =
              (inTurn rest >>= fun units => pure (unit :: units))
                (ctx.absorb (ctx.env.lower fn)) := by
            rw [inTurn, bind_of_ok (function_of_ok hresult)]
          refine ⟨ctx', ?_, ?_⟩
          · rw [collect_lowerInOrder_of_ok hresult, hturn]
            cases hcollect : collect ((lowerInOrder ctx.arity?
                (ctx.nextLabel + (ctx.env.lower fn).drawn) rest).map (·.result)) with
            | ok units =>
                rw [hcollect] at hrest
                rw [bind_of_ok hrest]
                rfl
            | error e =>
                rw [hcollect] at hrest
                rw [bind_of_error hrest]
          · intro units h
            rw [hturn] at h
            obtain ⟨units', ctx₁, hinner, h⟩ := bind_eq_ok h
            obtain ⟨_, rfl⟩ := pure_eq_ok h
            exact hglobals units' hinner

theorem collect_eq_ok_iff {results : List (Except CompileError CompiledUnit)}
    {units : List CompiledUnit} : collect results = .ok units ↔ results = units.map .ok := by
  induction results generalizing units with
  | nil =>
      cases units <;> simp [collect]
  | cons r rest ih =>
      cases r with
      | error e => cases units <;> simp [collect]
      | ok unit =>
          cases hrest : collect rest with
          | error e =>
              have hne : ∀ us : List CompiledUnit, rest ≠ us.map .ok := by
                intro us h
                rw [ih.mpr h] at hrest
                cases hrest
              cases units with
              | nil => simp [collect, hrest]
              | cons u us => simp [collect, hrest, hne us]
          | ok us' =>
              have hus' := ih.mp hrest
              cases units with
              | nil => simp [collect, hrest]
              | cons u us =>
                  simp only [collect, hrest, Except.ok.injEq, List.cons.injEq, List.map_cons]
                  rw [← ih, hrest, Except.ok.injEq]

/-- The failure collected is the earliest one. -/
theorem collect_eq_error {results : List (Except CompileError CompiledUnit)} {e : CompileError}
    (h : collect results = .error e) :
    ∃ i : Nat, results[i]? = some (.error e) ∧
      ∀ j < i, ∃ unit, results[j]? = some (.ok unit) := by
  induction results with
  | nil => cases h
  | cons r rest ih =>
      cases r with
      | error e' =>
          cases h
          exact ⟨0, rfl, by simp⟩
      | ok unit =>
          cases hrest : collect rest with
          | ok units => simp [collect, hrest] at h
          | error e' =>
              simp only [collect, hrest, Except.error.injEq] at h
              subst h
              obtain ⟨i, hi, hbefore⟩ := ih hrest
              refine ⟨i + 1, hi, ?_⟩
              intro j hj
              cases j with
              | zero => exact ⟨unit, rfl⟩
              | succ j => exact hbefore j (by omega)

theorem mem_gather {x : String} {globals : Names} {outcomes : List LoweredFunction} :
    x ∈ gather globals outcomes ↔ x ∈ globals ∨ ∃ f ∈ outcomes, x ∈ f.promoted := by
  unfold gather
  induction outcomes generalizing globals with
  | nil => simp
  | cons f rest ih =>
      rw [List.foldl_cons, ih, Names.mem_addAll]
      simp only [List.mem_cons, exists_eq_or_imp]
      tauto

theorem pairwise_gather {globals : Names} {outcomes : List LoweredFunction}
    (h : globals.Pairwise (· < ·)) : (gather globals outcomes).Pairwise (· < ·) := by
  unfold gather
  induction outcomes generalizing globals with
  | nil => exact h
  | cons f rest ih => exact ih (Names.pairwise_addAll h)

/-- Each function lowered with its own label supply. -/
def outcomesUnder (fns : List FunctionDef) (labels : Nat → Nat → Nat) : List LoweredFunction :=
  fns.mapIdx fun i fn => (envOf fns (labels i)).lower fn

theorem outcomesUnder_getElem? (fns : List FunctionDef) (labels : Nat → Nat → Nat) (i : Nat) :
    (outcomesUnder fns labels)[i]? = fns[i]?.map fun fn => (envOf fns (labels i)).lower fn := by
  rw [outcomesUnder, List.getElem?_mapIdx]

theorem outcomesUnder_of_getElem? {fns : List FunctionDef} {i : Nat} {fn : FunctionDef}
    (hfn : fns[i]? = some fn) (labels : Nat → Nat → Nat) :
    (outcomesUnder fns labels)[i]? = some ((envOf fns (labels i)).lower fn) := by
  rw [outcomesUnder_getElem?, hfn]
  rfl

theorem mem_outcomesUnder {fns : List FunctionDef} {labels : Nat → Nat → Nat}
    {f : LoweredFunction} :
    f ∈ outcomesUnder fns labels ↔
      ∃ i fn, fns[i]? = some fn ∧ (envOf fns (labels i)).lower fn = f := by
  rw [List.mem_iff_getElem?]
  simp only [outcomesUnder_getElem?, Option.map_eq_some_iff]

/-- How many numbers the first `i` of the outcomes drew. -/
def drawnBefore (outcomes : List LoweredFunction) (i : Nat) : Nat :=
  ((outcomes.take i).map (·.drawn)).sum

theorem lowerInOrder_getElem? (arity? : String → Option Nat) (next : Nat)
    (fns : List FunctionDef) (i : Nat) :
    (lowerInOrder arity? next fns)[i]? = fns[i]?.map fun fn =>
      LoweringEnv.lower
        { arity? := arity?
          label := fun k => next + drawnBefore (lowerInOrder arity? next fns) i + k } fn := by
  induction fns generalizing next i with
  | nil => simp [lowerInOrder]
  | cons fn rest ih =>
      cases i with
      | zero => simp [lowerInOrder, drawnBefore]
      | succ i =>
          simp only [lowerInOrder, List.getElem?_cons_succ, ih, drawnBefore, List.take_succ_cons,
            List.map_cons, List.sum_cons, Nat.add_assoc]

/-- The label supplies of functions lowered in turn from number 0. -/
def inOrderLabels (fns : List FunctionDef) (i k : Nat) : Nat :=
  drawnBefore (lowerInOrder (arityOf fns) 0 fns) i + k

theorem lowerInOrder_eq_outcomesUnder (fns : List FunctionDef) :
    lowerInOrder (arityOf fns) 0 fns = outcomesUnder fns (inOrderLabels fns) := by
  apply List.ext_getElem?
  intro i
  rw [lowerInOrder_getElem?, outcomesUnder_getElem?]
  simp only [envOf, Nat.zero_add]
  rfl

end Compile

open Compile

private theorem finish_eq {action : Compile (List CompiledUnit)} {ctx ctx' : Context}
    {results : List (Except CompileError CompiledUnit)} {globals : Names}
    (h : action ctx = match collect results with
      | .ok units => .ok units ctx'
      | .error e => .error e ctx')
    (hglobals : ∀ units, collect results = .ok units → ctx'.globals = globals) :
    (match (action >>= fun units => do
        return ({ units := units, globals := (← get).globals } : Program)) ctx with
      | .ok program _ => .ok program
      | .error e _ => .error e : Except CompileError Program) =
    match collect results with
    | .ok units => .ok { units := units, globals := globals }
    | .error e => .error e := by
  cases hcollect : collect results with
  | error e =>
      rw [hcollect] at h
      rw [bind_of_error h]
  | ok units =>
      rw [hcollect] at h
      rw [bind_of_ok h]
      change Except.ok (Program.mk units ctx'.globals) = _
      rw [hglobals units hcollect]

/-- Compiling is declaring, lowering in turn and linking, whatever the number of jobs. -/
theorem Source.compile_eq (s : Source) (jobs : Nat) :
    s.compile jobs =
      match declareAll s {} with
      | .ok fns _ => link (outcomesUnder fns (inOrderLabels fns))
      | .error e _ => .error e := by
  unfold Source.compile Compile.source
  cases hdeclare : declareAll s {} with
  | error e ctx => rw [bind_of_error hdeclare]
  | ok fns ctx =>
      rw [bind_of_ok hdeclare]
      obtain ⟨rfl, hctx, -⟩ := declareAll_eq_ok hdeclare
      have harity : ctx.arity? = arityOf fns := by
        rw [hctx]
        rfl
      have hnext : ctx.nextLabel = 0 := by rw [hctx]
      have hglobals : ctx.globals = [] := by rw [hctx]
      change _ = link (outcomesUnder fns (inOrderLabels fns))
      rw [← lowerInOrder_eq_outcomesUnder, link]
      split_ifs
      · obtain ⟨ctx', hturn, hgather⟩ := inTurn_eq fns ctx
        rw [harity, hnext] at hturn hgather
        rw [hglobals] at hgather
        apply finish_eq hturn
        intro units hcollect
        rw [hcollect] at hturn
        exact hgather units hturn
      · obtain ⟨ctx', hall, hgather⟩ := attemptAll_eq fns ctx
        rw [harity, hnext] at hall hgather
        rw [hglobals] at hgather
        have hindependent : independently fns ctx =
            match collect ((lowerInOrder (arityOf fns) 0 fns).map (·.result)) with
            | .ok units => .ok units ctx'
            | .error e => .error e ctx' := by
          rw [independently, bind_of_ok hall]
          cases collect ((lowerInOrder (arityOf fns) 0 fns).map (·.result)) <;> rfl
        exact finish_eq hindependent (fun _ _ => hgather)

/-- A program made of the functions of a source: each was lowered with a label
supply of its own, and no label number was drawn twice. -/
structure Links (fns : List FunctionDef) (labels : Nat → Nat → Nat) (p : Program) : Prop where
  declarable : Declarable fns
  linked : link (outcomesUnder fns labels) = .ok p
  distinct : ∀ i j k l fn gn, fns[i]? = some fn → fns[j]? = some gn →
    k < ((envOf fns (labels i)).lower fn).drawn → l < ((envOf fns (labels j)).lower gn).drawn →
    labels i k = labels j l → i = j ∧ k = l

namespace Links

variable {fns : List FunctionDef} {labels : Nat → Nat → Nat} {p : Program}

theorem results_eq (h : Links fns labels p) :
    (outcomesUnder fns labels).map (·.result) = p.units.map .ok := by
  have hlink := h.linked
  unfold link at hlink
  cases hcollect : collect ((outcomesUnder fns labels).map (·.result)) with
  | error e => simp [hcollect] at hlink
  | ok units =>
      simp only [hcollect, Except.ok.injEq] at hlink
      rw [← hlink]
      exact collect_eq_ok_iff.mp hcollect

theorem globals_eq (h : Links fns labels p) :
    p.globals = gather [] (outcomesUnder fns labels) := by
  have hlink := h.linked
  unfold link at hlink
  cases hcollect : collect ((outcomesUnder fns labels).map (·.result)) with
  | error e => simp [hcollect] at hlink
  | ok units =>
      simp only [hcollect, Except.ok.injEq] at hlink
      rw [← hlink]

theorem units_length (h : Links fns labels p) : p.units.length = fns.length := by
  have hlength := congrArg List.length h.results_eq
  simpa [outcomesUnder] using hlength.symm

/-- The unit at a position is the lowered function of that position. -/
theorem lowered (h : Links fns labels p) {i : Nat} {fn : FunctionDef} {unit : CompiledUnit}
    (hfn : fns[i]? = some fn) (hunit : p.units[i]? = some unit) :
    ((envOf fns (labels i)).lower fn).result = .ok unit := by
  have hi := congrArg (·[i]?) h.results_eq
  simpa [outcomesUnder_getElem?, hfn, hunit] using hi

theorem exists_unit (h : Links fns labels p) {i : Nat} {fn : FunctionDef}
    (hfn : fns[i]? = some fn) : ∃ unit, p.units[i]? = some unit := by
  have hlt : i < p.units.length := by
    rw [h.units_length]
    exact (List.getElem?_eq_some_iff.mp hfn).1
  exact ⟨p.units[i], List.getElem?_eq_getElem hlt⟩

theorem exists_function (h : Links fns labels p) {i : Nat} {unit : CompiledUnit}
    (hunit : p.units[i]? = some unit) : ∃ fn, fns[i]? = some fn := by
  have hlt : i < fns.length := by
    rw [← h.units_length]
    exact (List.getElem?_eq_some_iff.mp hunit).1
  exact ⟨fns[i], List.getElem?_eq_getElem hlt⟩

theorem mem_globals (h : Links fns labels p) {x : String} :
    x ∈ p.globals ↔ ∃ i fn, fns[i]? = some fn ∧
      x ∈ ((envOf fns (labels i)).lower fn).promoted := by
  rw [h.globals_eq, mem_gather]
  simp only [mem_outcomesUnder, List.not_mem_nil, false_or]
  constructor
  · rintro ⟨_, ⟨i, fn, hfn, rfl⟩, hx⟩
    exact ⟨i, fn, hfn, hx⟩
  · rintro ⟨i, fn, hfn, hx⟩
    exact ⟨_, ⟨i, fn, hfn, rfl⟩, hx⟩

theorem globals_pairwise (h : Links fns labels p) : p.globals.Pairwise (· < ·) := by
  rw [h.globals_eq]
  exact pairwise_gather List.Pairwise.nil

end Links

theorem drawnBefore_succ (outcomes : List LoweredFunction) (i : Nat) :
    drawnBefore outcomes (i + 1) =
      drawnBefore outcomes i + (outcomes[i]?.toList.map (·.drawn)).sum := by
  simp only [drawnBefore, List.take_add_one, List.map_append, List.sum_append]

theorem drawnBefore_le_of_lt {outcomes : List LoweredFunction} {i j : Nat} (hij : i < j)
    {f : LoweredFunction} (hf : outcomes[i]? = some f) :
    drawnBefore outcomes i + f.drawn ≤ drawnBefore outcomes j := by
  induction j, hij using Nat.le_induction with
  | base =>
      rw [drawnBefore_succ, hf]
      simp
  | succ j hj ih =>
      rw [drawnBefore_succ]
      omega

/-- Numbers drawn in turn are never drawn twice. -/
theorem inOrderLabels_distinct (fns : List FunctionDef) {i j k l : Nat} {fn gn : FunctionDef}
    (hfn : fns[i]? = some fn) (hgn : fns[j]? = some gn)
    (hk : k < ((envOf fns (inOrderLabels fns i)).lower fn).drawn)
    (hl : l < ((envOf fns (inOrderLabels fns j)).lower gn).drawn)
    (heq : inOrderLabels fns i k = inOrderLabels fns j l) : i = j ∧ k = l := by
  have hf := outcomesUnder_of_getElem? hfn (inOrderLabels fns)
  have hg := outcomesUnder_of_getElem? hgn (inOrderLabels fns)
  simp only [inOrderLabels, lowerInOrder_eq_outcomesUnder] at heq
  rcases lt_trichotomy i j with hlt | rfl | hgt
  · have := drawnBefore_le_of_lt hlt hf
    omega
  · exact ⟨rfl, by omega⟩
  · have := drawnBefore_le_of_lt hgt hg
    omega

/-- An accepted source gives a program of its functions. -/
theorem Source.compile_links {s : Source} {jobs : Nat} {p : Program}
    (h : s.compile jobs = .ok p) :
    ∃ fns, s = fns.map some ∧ Links fns (inOrderLabels fns) p := by
  rw [Source.compile_eq] at h
  cases hdeclare : declareAll s {} with
  | error e ctx => simp [hdeclare] at h
  | ok fns ctx =>
      simp only [hdeclare] at h
      obtain ⟨hs, -, hunreserved, hnodup, -⟩ := declareAll_eq_ok hdeclare
      refine ⟨fns, hs, ⟨hunreserved, hnodup⟩, h, ?_⟩
      intro i j k l fn gn hfn hgn hk hl heq
      exact inOrderLabels_distinct fns hfn hgn hk hl heq

end Arbor
