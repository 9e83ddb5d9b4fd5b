import Mathlib.Tactic
import Arbor.Proofs.Compilation

/-!
Functions lowered side by side. Two things are shared: the counter that label
numbers come from and the set of global names. Everything else a lowering does is
its own, so a parallel compilation is determined by the order in which the requests
of all functions are served. Whatever that order is, no number is handed out twice
and the global names are those that some function promoted.
-/

namespace Arbor

open Compile

/-- What the lowering of a function asks of the compilation around it. -/
inductive Request where
  | drawLabel
  | promote (name : String)
deriving DecidableEq, Repr

def Context.serve (ctx : Context) : Request → Context
  | .drawLabel => ctx.drawLabel.2
  | .promote name => ctx.promote name

/-- Requests in the order they are served, each with the position of the function
that made it. -/
abbrev Trace := List (Nat × Request)

namespace Trace

/-- The shared context after all requests are served. -/
def serve (ctx : Context) : Trace → Context
  | [] => ctx
  | (_, request) :: rest => serve (ctx.serve request) rest

/-- The numbers handed out, each with the function that received it. -/
def handed (ctx : Context) : Trace → List (Nat × Nat)
  | [] => []
  | (i, .drawLabel) :: rest => (i, ctx.drawLabel.1) :: handed (ctx.serve .drawLabel) rest
  | (_, .promote name) :: rest => handed (ctx.serve (.promote name)) rest

/-- The numbers that the function at position `i` receives from a fresh context. -/
def received (trace : Trace) (i : Nat) : List Nat :=
  ((trace.handed {}).filter (·.1 = i)).map (·.2)

/-- The label supply of each function when a fresh context serves the requests. -/
def supply (trace : Trace) (i k : Nat) : Nat := (trace.received i).getD k 0

/-- The names that the function at position `i` promotes. -/
def promotedBy (trace : Trace) (i : Nat) : List String :=
  trace.filterMap fun
    | (j, .promote name) => if j = i then some name else none
    | (_, .drawLabel) => none

end Trace

/-- The requests are those of the functions' lowerings: each function draws as many
numbers and promotes the names that its own lowering does. Any order is admitted. -/
structure Interleaving (fns : List FunctionDef) (trace : Trace) : Prop where
  member : ∀ e ∈ trace, e.1 < fns.length
  draws : ∀ i fn, fns[i]? = some fn →
    (trace.received i).length = ((envOf fns (trace.supply i)).lower fn).drawn
  promotions : ∀ i fn, fns[i]? = some fn → ∀ name,
    name ∈ trace.promotedBy i ↔ name ∈ ((envOf fns (trace.supply i)).lower fn).promoted

/-- Two functions that draw one number each, the second one first. -/
def crossing : List FunctionDef :=
  [{ name := "below", params := ["a"],
     body := [.ret 2 (.compare 2 .less (.name 2 "a") (.name 2 "bound"))] },
    { name := "fresh", body := [.ret 4 (.list 4 [.name 4 "bound"])] }]

def crossingTrace : Trace :=
  [(1, .drawLabel), (0, .promote "bound"), (0, .drawLabel), (1, .promote "bound")]

theorem crossing_interleaving : Interleaving crossing crossingTrace where
  member := by decide
  draws := by rintro (_ | _ | _) fn ⟨⟩ <;> rfl
  promotions := by rintro (_ | _ | _) fn ⟨⟩ <;> exact fun _ => Iff.rfl

/-- The functions of a source, without its missing entries. -/
def Source.functions (s : Source) : List FunctionDef := s.filterMap id

/-- Compiles with a fresh context. With more than one job the functions are lowered
side by side, and their requests are served in the order of the trace. -/
def Source.compileInterleaved (s : Source) (jobs : Nat) (trace : Trace) :
    Except CompileError Program :=
  match declareAll s {} with
  | .error e _ => .error e
  | .ok fns _ =>
    if jobs ≤ 1 ∨ fns.length ≤ 1 then s.compile jobs
    else
      match collect ((outcomesUnder fns trace.supply).map (·.result)) with
      | .ok units => .ok { units := units, globals := (trace.serve {}).globals }
      | .error e => .error e

namespace Trace

theorem nextLabel_le_serve (ctx : Context) (trace : Trace) :
    ctx.nextLabel ≤ (trace.serve ctx).nextLabel := by
  induction trace generalizing ctx with
  | nil => exact Nat.le_refl _
  | cons e rest ih =>
      obtain ⟨i, request⟩ := e
      cases request with
      | promote name => exact ih (ctx.serve (.promote name))
      | drawLabel => exact Nat.le_of_succ_le (ih (ctx.serve .drawLabel))

theorem handed_bounds {ctx : Context} {trace : Trace} {e : Nat × Nat}
    (h : e ∈ trace.handed ctx) :
    ctx.nextLabel ≤ e.2 ∧ e.2 < (trace.serve ctx).nextLabel := by
  induction trace generalizing ctx with
  | nil => simp [handed] at h
  | cons head rest ih =>
      obtain ⟨i, request⟩ := head
      cases request with
      | promote name => exact ih h
      | drawLabel =>
          rcases List.mem_cons.mp h with rfl | hmem
          · exact ⟨Nat.le_refl _, nextLabel_le_serve (ctx.serve .drawLabel) rest⟩
          · obtain ⟨hlo, hhi⟩ := ih hmem
            exact ⟨Nat.le_of_succ_le hlo, hhi⟩

/-- Numbers are handed out in ascending order. -/
theorem handed_pairwise (ctx : Context) (trace : Trace) :
    (trace.handed ctx).Pairwise (fun a b => a.2 < b.2) := by
  induction trace generalizing ctx with
  | nil => exact List.Pairwise.nil
  | cons head rest ih =>
      obtain ⟨i, request⟩ := head
      cases request with
      | promote name => exact ih (ctx.serve (.promote name))
      | drawLabel =>
          refine List.pairwise_cons.mpr ⟨?_, ih (ctx.serve .drawLabel)⟩
          intro e he
          exact (handed_bounds he).1

theorem received_pairwise (trace : Trace) (i : Nat) :
    (trace.received i).Pairwise (· < ·) := by
  unfold received
  rw [List.pairwise_map]
  exact (handed_pairwise {} trace).filter _

theorem mem_received {trace : Trace} {i n : Nat} :
    n ∈ trace.received i ↔ (i, n) ∈ trace.handed {} := by
  simp [received]

/-- A number is handed to one function only. -/
theorem handed_unique {trace : Trace} {i j n : Nat} (hi : (i, n) ∈ trace.handed {})
    (hj : (j, n) ∈ trace.handed {}) : i = j := by
  have hnodup : ((trace.handed {}).map (·.2)).Nodup :=
    List.pairwise_map.mpr ((handed_pairwise {} trace).imp Nat.ne_of_lt)
  exact congrArg Prod.fst (List.inj_on_of_nodup_map hnodup hi hj rfl)

/-- No number is handed out twice, neither to one function nor to two. -/
theorem supply_distinct {trace : Trace} {i j k l : Nat} (hk : k < (trace.received i).length)
    (hl : l < (trace.received j).length) (heq : trace.supply i k = trace.supply j l) :
    i = j ∧ k = l := by
  simp only [supply, List.getD_eq_getElem?_getD, List.getElem?_eq_getElem hk,
    List.getElem?_eq_getElem hl, Option.getD_some] at heq
  have hi := mem_received.mp (List.getElem_mem hk)
  have hj := mem_received.mp (List.getElem_mem hl)
  rw [heq] at hi
  obtain rfl := handed_unique hi hj
  have hnodup : (trace.received i).Nodup := (received_pairwise trace i).imp Nat.ne_of_lt
  exact ⟨rfl, (hnodup.getElem_inj_iff).mp heq⟩

end Trace

namespace Trace

theorem mem_serve_globals {ctx : Context} {trace : Trace} {x : String} :
    x ∈ (trace.serve ctx).globals ↔ x ∈ ctx.globals ∨ ∃ i, (i, .promote x) ∈ trace := by
  induction trace generalizing ctx with
  | nil => simp [serve]
  | cons e rest ih =>
      obtain ⟨j, request⟩ := e
      rw [serve, ih]
      cases request with
      | drawLabel => simp [Context.serve, Context.drawLabel]
      | promote name =>
          simp only [Context.serve, Context.promote, Names.mem_add, List.mem_cons, Prod.mk.injEq,
            Request.promote.injEq, exists_or, exists_eq_left]
          tauto

theorem mem_promotedBy {trace : Trace} {i : Nat} {x : String} :
    x ∈ trace.promotedBy i ↔ (i, .promote x) ∈ trace := by
  rw [promotedBy, List.mem_filterMap]
  constructor
  · rintro ⟨⟨j, request⟩, hmem, heq⟩
    cases request with
    | drawLabel => cases heq
    | promote name =>
        simp only [Option.ite_none_right_eq_some, Option.some.injEq] at heq
        obtain ⟨rfl, rfl⟩ := heq
        exact hmem
  · intro hmem
    exact ⟨_, hmem, by simp⟩

theorem serve_globals_pairwise {ctx : Context} (trace : Trace)
    (h : ctx.globals.Pairwise (· < ·)) : (trace.serve ctx).globals.Pairwise (· < ·) := by
  induction trace generalizing ctx with
  | nil => exact h
  | cons e rest ih =>
      obtain ⟨j, request⟩ := e
      cases request with
      | drawLabel => exact ih h
      | promote name => exact ih (Names.pairwise_add h)

end Trace

namespace Interleaving

variable {fns : List FunctionDef} {trace : Trace}

/-- The shared set of names ends as what linking gathers from the functions. -/
theorem globals_eq (h : Interleaving fns trace) :
    (trace.serve {}).globals = gather [] (outcomesUnder fns trace.supply) := by
  apply Names.eq_of_mem_iff (trace.serve_globals_pairwise List.Pairwise.nil)
    (pairwise_gather List.Pairwise.nil)
  intro x
  rw [Trace.mem_serve_globals, mem_gather]
  simp only [mem_outcomesUnder, List.not_mem_nil, false_or]
  constructor
  · rintro ⟨i, hmem⟩
    have hi : i < fns.length := h.member _ hmem
    have hfn := List.getElem?_eq_getElem hi
    exact ⟨_, ⟨i, fns[i], hfn, rfl⟩, (h.promotions i _ hfn x).mp (Trace.mem_promotedBy.mpr hmem)⟩
  · rintro ⟨_, ⟨i, fn, hfn, rfl⟩, hx⟩
    exact ⟨i, Trace.mem_promotedBy.mp ((h.promotions i fn hfn x).mpr hx)⟩

theorem distinct (h : Interleaving fns trace) {i j k l : Nat} {fn gn : FunctionDef}
    (hfn : fns[i]? = some fn) (hgn : fns[j]? = some gn)
    (hk : k < ((envOf fns (trace.supply i)).lower fn).drawn)
    (hl : l < ((envOf fns (trace.supply j)).lower gn).drawn)
    (heq : trace.supply i k = trace.supply j l) : i = j ∧ k = l := by
  rw [← h.draws i fn hfn] at hk
  rw [← h.draws j gn hgn] at hl
  exact Trace.supply_distinct hk hl heq

end Interleaving

theorem Source.functions_map_some (fns : List FunctionDef) :
    Source.functions (fns.map some) = fns := by
  simp [Source.functions, List.filterMap_map]

/-- With one job the functions are lowered in turn, otherwise with the supplies of
the trace; either way the outcomes are linked. -/
theorem Source.compileInterleaved_eq {s : Source} (jobs : Nat) {trace : Trace}
    (h : Interleaving s.functions trace) :
    s.compileInterleaved jobs trace =
      match declareAll s {} with
      | .ok fns _ =>
        link (outcomesUnder fns
          (if jobs ≤ 1 ∨ fns.length ≤ 1 then inOrderLabels fns else trace.supply))
      | .error e _ => .error e := by
  unfold Source.compileInterleaved
  cases hdeclare : declareAll s {} with
  | error e ctx => rfl
  | ok fns ctx =>
      obtain ⟨rfl, -⟩ := declareAll_eq_ok hdeclare
      rw [Source.functions_map_some] at h
      by_cases hjobs : jobs ≤ 1 ∨ fns.length ≤ 1
      · simp only [if_pos hjobs, Source.compile_eq, hdeclare]
      · simp only [if_neg hjobs, link]
        cases collect ((outcomesUnder fns trace.supply).map (·.result)) with
        | error e => rfl
        | ok units => simp only [h.globals_eq]

/-- An accepted source gives a program of its functions, in whatever order the
requests of their lowerings were served. -/
theorem Source.compileInterleaved_links {s : Source} {jobs : Nat} {trace : Trace} {p : Program}
    (h : Interleaving s.functions trace) (hp : s.compileInterleaved jobs trace = .ok p) :
    ∃ fns labels, s = fns.map some ∧ Links fns labels p := by
  rw [Source.compileInterleaved_eq jobs h] at hp
  cases hdeclare : declareAll s {} with
  | error e ctx => simp [hdeclare] at hp
  | ok fns ctx =>
      simp only [hdeclare] at hp
      obtain ⟨rfl, -, hunreserved, hnodup, -⟩ := declareAll_eq_ok hdeclare
      rw [Source.functions_map_some] at h
      split_ifs at hp with hjobs
      · refine ⟨fns, inOrderLabels fns, rfl, ⟨hunreserved, hnodup⟩, hp, ?_⟩
        intro i j k l fn gn hfn hgn hk hl heq
        exact inOrderLabels_distinct fns hfn hgn hk hl heq
      · refine ⟨fns, trace.supply, rfl, ⟨hunreserved, hnodup⟩, hp, ?_⟩
        intro i j k l fn gn hfn hgn hk hl heq
        exact h.distinct hfn hgn hk hl heq

/-- The requests of one function, its draws first. -/
def LoweredFunction.requests (f : LoweredFunction) (i : Nat) : Trace :=
  List.replicate f.drawn (i, .drawLabel) ++ f.promoted.map fun name => (i, .promote name)

/-- The requests of functions lowered in turn, the first at position `i`. -/
def inTurnTrace (i : Nat) : List LoweredFunction → Trace
  | [] => []
  | f :: rest => f.requests i ++ inTurnTrace (i + 1) rest

namespace Trace

theorem handed_append (ctx : Context) (a b : Trace) :
    (a ++ b).handed ctx = a.handed ctx ++ b.handed (a.serve ctx) := by
  induction a generalizing ctx with
  | nil => rfl
  | cons e rest ih =>
      obtain ⟨i, request⟩ := e
      cases request with
      | drawLabel => simp only [List.cons_append, handed, serve, ih]
      | promote name => simp only [List.cons_append, handed, serve, ih]

theorem handed_draws (ctx : Context) (i n : Nat) :
    handed ctx (List.replicate n (i, .drawLabel)) =
        (List.range' ctx.nextLabel n).map (fun k => (i, k)) ∧
      (serve ctx (List.replicate n (i, .drawLabel))).nextLabel = ctx.nextLabel + n := by
  induction n generalizing ctx with
  | zero => exact ⟨rfl, rfl⟩
  | succ n ih =>
      obtain ⟨hhanded, hnext⟩ := ih (ctx.serve .drawLabel)
      rw [List.replicate_succ, handed, serve, hhanded, hnext, List.range'_succ]
      refine ⟨rfl, ?_⟩
      change ctx.nextLabel + 1 + n = ctx.nextLabel + (n + 1)
      omega

theorem handed_promotions (ctx : Context) (i : Nat) (names : List String) :
    handed ctx (names.map fun name => (i, .promote name)) = [] ∧
      (serve ctx (names.map fun name => (i, .promote name))).nextLabel = ctx.nextLabel := by
  induction names generalizing ctx with
  | nil => exact ⟨rfl, rfl⟩
  | cons name names ih => exact ih (ctx.serve (.promote name))

theorem serve_append (ctx : Context) (a b : Trace) :
    (a ++ b).serve ctx = b.serve (a.serve ctx) := by
  induction a generalizing ctx with
  | nil => rfl
  | cons e rest ih => exact ih _

theorem handed_requests (ctx : Context) (f : LoweredFunction) (i : Nat) :
    (f.requests i).handed ctx = (List.range' ctx.nextLabel f.drawn).map (fun k => (i, k)) ∧
      ((f.requests i).serve ctx).nextLabel = ctx.nextLabel + f.drawn := by
  obtain ⟨hdraws, hnext⟩ := handed_draws ctx i f.drawn
  obtain ⟨hpromotions, hnext'⟩ := handed_promotions
    (serve ctx (List.replicate f.drawn (i, .drawLabel))) i f.promoted
  rw [LoweredFunction.requests, handed_append, serve_append, hdraws, hpromotions, hnext', hnext]
  exact ⟨List.append_nil _, rfl⟩

theorem le_of_mem_handed_inTurnTrace {ctx : Context} {outcomes : List LoweredFunction} {i : Nat}
    {e : Nat × Nat} (h : e ∈ (inTurnTrace i outcomes).handed ctx) : i ≤ e.1 := by
  induction outcomes generalizing ctx i with
  | nil => cases h
  | cons f rest ih =>
      rw [inTurnTrace, handed_append, (handed_requests ctx f i).1, List.mem_append] at h
      rcases h with h | h
      · obtain ⟨k, -, rfl⟩ := List.mem_map.mp h
        exact Nat.le_refl i
      · exact Nat.le_of_succ_le (ih h)

/-- Served in turn, a function receives the numbers that follow those drawn before. -/
theorem handed_inTurnTrace (ctx : Context) (outcomes : List LoweredFunction) (i j : Nat) :
    (((inTurnTrace i outcomes).handed ctx).filter (·.1 = i + j)).map (·.2) =
      (outcomes[j]?.map fun f =>
        List.range' (ctx.nextLabel + drawnBefore outcomes j) f.drawn).getD [] := by
  induction outcomes generalizing ctx i j with
  | nil => rfl
  | cons f rest ih =>
      obtain ⟨hhanded, hnext⟩ := handed_requests ctx f i
      rw [inTurnTrace, handed_append, hhanded, List.filter_append, List.map_append]
      cases j with
      | zero =>
          have hrest : ((inTurnTrace (i + 1) rest).handed ((f.requests i).serve ctx)).filter
              (·.1 = i + 0) = [] := by
            rw [List.filter_eq_nil_iff]
            intro e he
            have := le_of_mem_handed_inTurnTrace he
            simp only [decide_eq_true_eq]
            omega
          rw [hrest]
          simp [drawnBefore, List.filter_map, Function.comp_def]
      | succ j =>
          have hfirst : ((List.range' ctx.nextLabel f.drawn).map fun k => (i, k)).filter
              (·.1 = i + (j + 1)) = [] := by
            rw [List.filter_eq_nil_iff]
            intro e he
            obtain ⟨k, -, rfl⟩ := List.mem_map.mp he
            simp
          have hindex : i + (j + 1) = i + 1 + j := by omega
          rw [hfirst, hindex, ih, hnext]
          simp only [List.map_nil, List.nil_append, List.getElem?_cons_succ, drawnBefore,
            List.take_succ_cons, List.map_cons, List.sum_cons, Nat.add_assoc]

theorem mem_inTurnTrace {outcomes : List LoweredFunction} {i : Nat} {e : Nat × Request} :
    e ∈ inTurnTrace i outcomes ↔
      ∃ (j : Nat) (f : LoweredFunction), outcomes[j]? = some f ∧ e ∈ f.requests (i + j) := by
  induction outcomes generalizing i with
  | nil => simp [inTurnTrace]
  | cons f rest ih =>
      rw [inTurnTrace, List.mem_append, ih]
      constructor
      · rintro (h | ⟨j, g, hg, h⟩)
        · exact ⟨0, f, rfl, h⟩
        · have hindex : i + (j + 1) = i + 1 + j := by omega
          exact ⟨j + 1, g, hg, by rwa [hindex]⟩
      · rintro ⟨j, g, hg, h⟩
        cases j with
        | zero =>
            cases hg
            exact Or.inl h
        | succ j =>
            have hindex : i + (j + 1) = i + 1 + j := by omega
            rw [hindex] at h
            exact Or.inr ⟨j, g, hg, h⟩

theorem fst_of_mem_requests {f : LoweredFunction} {i : Nat} {e : Nat × Request}
    (h : e ∈ f.requests i) : e.1 = i := by
  rcases List.mem_append.mp h with h | h
  · rw [List.eq_of_mem_replicate h]
  · obtain ⟨name, -, rfl⟩ := List.mem_map.mp h
    rfl

theorem promote_mem_requests {f : LoweredFunction} {i : Nat} {name : String} :
    (i, .promote name) ∈ f.requests i ↔ name ∈ f.promoted := by
  simp [LoweredFunction.requests]

end Trace

end Arbor
