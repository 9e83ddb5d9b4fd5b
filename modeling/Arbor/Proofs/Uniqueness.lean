import Mathlib.Data.List.Perm.Basic
import Mathlib.Tactic
import Arbor.Assembly.Listing
import Arbor.Proofs.Interleaving
import Arbor.Proofs.Layout
import Arbor.Proofs.Symbols

/-!
Every symbol a program defines is defined once. A phrase introduces labels and
regions numbered by what it draws itself, each number with words that differ, so
the introduced symbols are distinct as soon as the label supply never repeats.
Function names are unreserved and cannot meet them; storage of globals starts
with a word no number follows.
-/

namespace Arbor

namespace Code

/-- The labels that code defines, in order. -/
def labels (code : Code) : List String := code.filterMap (·.label)

@[simp] theorem labels_nil : labels [] = [] := rfl

@[simp] theorem labels_append (a b : Code) : labels (a ++ b) = labels a ++ labels b := by
  simp [labels]

@[simp] theorem labels_cons_make (m : Mnemonic) (os : List Operand) (line : UInt32)
    (code : Code) : labels (.make m os line :: code) = labels code := by
  simp [labels, Instruction.make]

@[simp] theorem labels_cons_labelled (name : String) (line : UInt32) (code : Code) :
    labels (.labelled name line :: code) = name :: labels code := by
  simp [labels, Instruction.labelled]

end Code

namespace Emit

open Code

@[simp] theorem labels_mov (line : UInt32) (dst src : Operand) (code : Code) :
    labels (mov line dst src :: code) = labels code := labels_cons_make ..

@[simp] theorem labels_push (line : UInt32) (o : Operand) (code : Code) :
    labels (push line o :: code) = labels code := labels_cons_make ..

@[simp] theorem labels_pop (line : UInt32) (o : Operand) (code : Code) :
    labels (pop line o :: code) = labels code := labels_cons_make ..

@[simp] theorem labels_lea (line : UInt32) (o : Operand) (symbol : String) (code : Code) :
    labels (lea line o symbol :: code) = labels code := labels_cons_make ..

@[simp] theorem labels_jump (line : UInt32) (m : Mnemonic) (label : String) (code : Code) :
    labels (jump line m label :: code) = labels code := labels_cons_make ..

@[simp] theorem labels_storeElement (line : UInt32) (code : Code) :
    labels (storeElement line :: code) = labels code := labels_mov ..

@[simp] theorem labels_rightOperand (line : UInt32) (leaf : Bool) (right : Code) :
    labels (rightOperand line leaf right) = labels right := by
  cases leaf <;> simp [rightOperand]

@[simp] theorem labels_applyOperator (line : UInt32) (op : BinaryOperator) :
    labels (applyOperator line op) = [] := by
  cases op <;> simp [applyOperator]

@[simp] theorem labels_applyCompare (line : UInt32) (op : CompareOperator) (id : Nat) :
    labels (applyCompare line op id) =
      [numbered "true" id, numbered "false" id, numbered "end" id] := by
  simp [applyCompare]

@[simp] theorem labels_callPushed (line : UInt32) (callee : String) (count : Nat) :
    labels (callPushed line callee count) = [] := by
  unfold callPushed
  split <;> simp

@[simp] theorem labels_popWords (line : UInt32) (region : String) (n : Nat) :
    labels (popWords line region n) = [] := by
  induction n with
  | zero => rfl
  | succ n ih => simp [popWords, ih]

@[simp] theorem labels_fillRegion (line : UInt32) (region : String) (count staged : Nat) :
    labels (fillRegion line region count staged) = [] := by
  simp [fillRegion]

@[simp] theorem labels_loadElement (line : UInt32) : labels (loadElement line) = [] := by
  simp [loadElement]

@[simp] theorem labels_epilogue (line : UInt32) : labels (epilogue line) = [] := by
  simp [epilogue]

@[simp] theorem labels_branchIfZero (line : UInt32) (label : String) :
    labels (branchIfZero line label) = [] := by
  simp [branchIfZero]

theorem labels_conditional (line : UInt32) (id : Nat) (test body orelse : Code) :
    labels (conditional line id test body orelse) =
      labels test ++ (labels body ++ numbered "else" id ::
        (labels orelse ++ [numbered "end" id])) := by
  simp [conditional]

theorem labels_loop (line : UInt32) (id : Nat) (test body : Code) :
    labels (loop line id test body) =
      numbered "loop" id :: (labels test ++ (labels body ++ [numbered "end" id])) := by
  simp [loop]

theorem labels_functionCode (fn : FunctionDef) (slots : Nat) (body : Code) :
    labels (functionCode fn slots body) = fn.name :: labels body := by
  unfold functionCode prologue reserve fallthrough
  split <;> simp

end Emit

/-- The symbols are numbered by the draws `lo, …, hi - 1` of a label supply, and no
draw numbers two of them with the same word. -/
def Introduces (label : Nat → Nat) (lo hi : Nat) (symbols : List String) : Prop :=
  lo ≤ hi ∧ ∃ marks : List (String × Nat),
    symbols.Perm (marks.map fun m => numbered m.1 (label m.2)) ∧ marks.Nodup ∧
    ∀ m ∈ marks, m.1 ∈ numberedWords ∧ lo ≤ m.2 ∧ m.2 < hi

namespace Introduces

variable {label : Nat → Nat} {lo mid hi : Nat} {a b : List String}

theorem nil (label : Nat → Nat) (n : Nat) : Introduces label n n [] :=
  ⟨Nat.le_refl n, [], by simp, by simp, by simp⟩

theorem perm (h : Introduces label lo hi a) (hperm : b.Perm a) : Introduces label lo hi b := by
  obtain ⟨hle, marks, hmarks, hrest⟩ := h
  exact ⟨hle, marks, hperm.trans hmarks, hrest⟩

/-- Consecutive draws introduce different symbols. -/
theorem append (ha : Introduces label lo mid a) (hb : Introduces label mid hi b) :
    Introduces label lo hi (a ++ b) := by
  obtain ⟨hle, marks, hmarks, hnodup, hrange⟩ := ha
  obtain ⟨hle', marks', hmarks', hnodup', hrange'⟩ := hb
  refine ⟨hle.trans hle', marks ++ marks', ?_, ?_, ?_⟩
  · rw [List.map_append]
    exact hmarks.append hmarks'
  · apply hnodup.append hnodup'
    intro m hm hm'
    have := (hrange m hm).2.2
    have := (hrange' m hm').2.1
    omega
  · intro m hm
    rcases List.mem_append.mp hm with hm | hm
    · obtain ⟨hword, hlo, hmid⟩ := hrange m hm
      exact ⟨hword, hlo, by omega⟩
    · obtain ⟨hword, hmid, hhi⟩ := hrange' m hm
      exact ⟨hword, by omega, hhi⟩

/-- One draw numbers several words. -/
theorem draw (label : Nat → Nat) (n : Nat) (words : List String) (hnodup : words.Nodup)
    (hwords : ∀ w ∈ words, w ∈ numberedWords) :
    Introduces label n (n + 1) (words.map fun w => numbered w (label n)) := by
  refine ⟨Nat.le_succ n, words.map fun w => (w, n), ?_, ?_, ?_⟩
  · rw [List.map_map]
    exact List.Perm.refl _
  · exact hnodup.map (fun _ _ heq => (Prod.mk.inj heq).1)
  · intro m hm
    obtain ⟨w, hw, rfl⟩ := List.mem_map.mp hm
    exact ⟨hwords w hw, Nat.le_refl n, Nat.lt_succ_self n⟩

/-- A supply that does not repeat gives distinct symbols. -/
theorem nodup (h : Introduces label lo hi a)
    (hlabel : ∀ k l, lo ≤ k → k < hi → lo ≤ l → l < hi → label k = label l → k = l) :
    a.Nodup := by
  obtain ⟨-, marks, hmarks, hnodup, hrange⟩ := h
  rw [hmarks.nodup_iff]
  apply hnodup.map_on
  intro m hm m' hm' heq
  obtain ⟨hword, hid⟩ := numbered_inj heq
  obtain ⟨-, hlo, hhi⟩ := hrange m hm
  obtain ⟨-, hlo', hhi'⟩ := hrange m' hm'
  exact Prod.ext hword (hlabel _ _ hlo hhi hlo' hhi' hid)

theorem mem (h : Introduces label lo hi a) {symbol : String} (hmem : symbol ∈ a) :
    ∃ word k, word ∈ numberedWords ∧ lo ≤ k ∧ k < hi ∧ symbol = numbered word (label k) := by
  obtain ⟨-, marks, hmarks, -, hrange⟩ := h
  obtain ⟨m, hm, rfl⟩ := List.mem_map.mp (hmarks.mem_iff.mp hmem)
  obtain ⟨hword, hlo, hhi⟩ := hrange m hm
  exact ⟨m.1, m.2, hword, hlo, hhi, rfl⟩

end Introduces

/-- From one collected state to the next: the labels met on the way and the symbols of
the regions collected are all new. -/
def Adds (env : LoweringEnv) (st : LoweringState) (names : List String)
    (st' : LoweringState) : Prop :=
  ∃ regions : List DataRegion, st'.data = st.data ++ regions ∧
    Introduces env.label st.drawn st'.drawn (names ++ regions.map (·.symbol))

namespace Adds

variable {env : LoweringEnv} {st st₁ st' : LoweringState} {a b c : List String}

theorem refl (env : LoweringEnv) (st : LoweringState) : Adds env st [] st :=
  ⟨[], by simp, by simpa using Introduces.nil env.label st.drawn⟩

/-- A step before that neither draws nor collects a region adds nothing. -/
theorem start (h : Adds env st₁ a st') (hdata : st₁.data = st.data)
    (hdrawn : st₁.drawn = st.drawn) : Adds env st a st' := by
  unfold Adds
  rw [← hdata, ← hdrawn]
  exact h

theorem trans (ha : Adds env st a st₁) (hb : Adds env st₁ b st') (hc : c.Perm (a ++ b)) :
    Adds env st c st' := by
  obtain ⟨ra, hra, hia⟩ := ha
  obtain ⟨rb, hrb, hib⟩ := hb
  refine ⟨ra ++ rb, by rw [hrb, hra, List.append_assoc], (hia.append hib).perm ?_⟩
  have hregroup : (a ++ b ++ (ra.map (·.symbol) ++ rb.map (·.symbol))).Perm
      (a ++ ra.map (·.symbol) ++ (b ++ rb.map (·.symbol))) := by
    rw [List.perm_iff_count]
    intro symbol
    simp only [List.count_append]
    omega
  rw [List.map_append]
  exact (hc.append_right _).trans hregroup

/-- Two pieces of code, one after the other. -/
theorem append (ha : Adds env st a st₁) (hb : Adds env st₁ b st') : Adds env st (a ++ b) st' :=
  ha.trans hb (List.Perm.refl _)

theorem draw (env : LoweringEnv) (st : LoweringState) (words : List String)
    (hnodup : words.Nodup) (hwords : ∀ w ∈ words, w ∈ numberedWords) :
    Adds env st (words.map fun w => numbered w (env.label st.drawn)) st.draw :=
  ⟨[], by simp [LoweringState.draw], by
    simpa [LoweringState.draw] using Introduces.draw env.label st.drawn words hnodup hwords⟩

theorem region (env : LoweringEnv) (st : LoweringState) {word : String} {region : DataRegion}
    (hword : word ∈ numberedWords) (hsymbol : region.symbol = numbered word (env.label st.drawn)) :
    Adds env st [] (st.draw.withRegion region) := by
  refine ⟨[region], rfl, ?_⟩
  have h := Introduces.draw env.label st.drawn [word] (by simp) (by simpa using hword)
  simpa [hsymbol] using h

end Adds

open Emit Code in
/-- The symbols that lowering a phrase introduces are numbered by its own draws. -/
theorem Lowers.adds {env : LoweringEnv} {phrase : Phrase} {st st' : LoweringState} {code : Code}
    (h : Lowers env phrase st code st') : Adds env st (labels code) st' := by
  induction h with
  | constant | builtin | slot | storeName | bareReturn =>
      simpa using Adds.refl env _
  | global => exact (Adds.refl env _).start rfl rfl
  | string => simpa using Adds.region env _ (by decide) rfl
  | pushesNil | pairsNil | targetsNil | blockNil => exact Adds.refl env _
  | binary _ _ hleft hright => simpa using hleft.append hright
  | compare _ _ hleft hright =>
      simpa using (hleft.append hright).append
        (Adds.draw env _ ["true", "false", "end"] (by decide) (by decide))
  | call _ _ hargs => simpa using hargs
  | externalCall _ _ _ hargs =>
      rw [labels_append, labels_callPushed, List.append_nil]
      exact hargs.start rfl rfl
  | list _ helements =>
      simpa using (Adds.region env _ (by decide) rfl).append helements
  | dict _ _ hpairs =>
      simpa using (Adds.region env _ (by decide) rfl).append hpairs
  | subscript _ _ hvalue hindex => simpa using hvalue.append hindex
  | pushesCons _ _ hhead htail => simpa using hhead.append htail
  | pairsCons _ _ _ hkey hvalue htail => simpa using hkey.append (hvalue.append htail)
  | storeElement _ _ hvalue hindex => simpa using hvalue.append hindex
  | targetsCons _ _ hhead htail => simpa using hhead.append htail
  | assign _ _ _ _ hvalue hstores =>
      rw [labels_append]
      exact (hvalue.append hstores).start (by simp) (by simp)
  | augElement _ _ _ hbase hindex hvalue => simpa using hbase.append (hindex.append hvalue)
  | augName _ _ _ _ hname hvalue hstore =>
      rw [labels_append, labels_append, labels_append, labels_rightOperand,
        labels_applyOperator, List.append_nil]
      exact ((hname.append hvalue).append hstore).start rfl rfl
  | ret _ hvalue => simpa using hvalue
  | expr _ hvalue => exact hvalue
  | ifElse _ _ _ htest hbody horelse =>
      refine (Adds.draw env _ ["else", "end"] (by decide) (by decide)).trans
        (htest.append (hbody.append horelse)) ?_
      rw [labels_conditional, List.perm_iff_count]
      intro symbol
      simp only [List.count_append, List.count_cons, List.map_cons, List.map_nil, List.count_nil]
      omega
  | whileLoop _ _ htest hbody =>
      refine (Adds.draw env _ ["loop", "end"] (by decide) (by decide)).trans
        (htest.append hbody) ?_
      rw [labels_loop, List.perm_iff_count]
      intro symbol
      simp only [List.count_append, List.count_cons, List.map_cons, List.map_nil, List.count_nil]
      omega
  | bare _ hexpression => exact hexpression
  | blockCons _ _ hhead htail => simpa using hhead.append htail

/-- The functions a unit imports are neither functions of the source nor reserved. -/
theorem Lowers.externs_foreign {env : LoweringEnv} {phrase : Phrase} {st st' : LoweringState}
    {code : Code} (h : Lowers env phrase st code st')
    (hst : ∀ name ∈ st.externs, env.arity? name = none ∧ isReservedSymbol name = false) :
    ∀ name ∈ st'.externs, env.arity? name = none ∧ isReservedSymbol name = false := by
  refine h.preserves (P := fun st => ∀ name ∈ st.externs,
    env.arity? name = none ∧ isReservedSymbol name = false) ?_ hst
  refine ⟨fun _ h => h, fun _ _ _ h => h, ?_, fun _ _ _ _ h => h, fun _ _ _ h => h⟩
  intro st name harity hreserved h name' hname'
  rcases Names.mem_add.mp hname' with rfl | hmem
  · exact ⟨harity, hreserved⟩
  · exact h name' hmem

/-- The symbols a unit defines: the labels of its code and its regions. -/
def CompiledUnit.definedSymbols (unit : CompiledUnit) : List String :=
  unit.code.labels ++ unit.data.map (·.symbol)

/-- The symbols the listing of a program defines, `_start` included. -/
def Program.definedSymbols (p : Program) : List String :=
  p.units.flatMap (·.definedSymbols) ++ (p.globals.map globalSymbol ++ ["_start"])

namespace Links

variable {fns : List FunctionDef} {labels : Nat → Nat → Nat} {p : Program}

/-- A unit defines its function's name and what the lowering introduced. -/
theorem definedSymbols_eq (h : Links fns labels p) {i : Nat} {fn : FunctionDef}
    {unit : CompiledUnit} (hfn : fns[i]? = some fn) (hunit : p.units[i]? = some unit) :
    ∃ symbols, unit.definedSymbols = fn.name :: symbols ∧
      Introduces (labels i) 0 ((envOf fns (labels i)).lower fn).drawn symbols := by
  obtain ⟨entry, body, final, hlowered⟩ := lower_eq_ok (h.lowered hfn hunit)
  obtain ⟨regions, hregions, hintroduces⟩ := hlowered.lowers.adds
  refine ⟨body.labels ++ regions.map (·.symbol), ?_, ?_⟩
  · rw [hlowered.unit_eq]
    have hdata : final.data = regions := hregions
    rw [CompiledUnit.definedSymbols, Emit.labels_functionCode, hdata, List.cons_append]
  · rw [hlowered.drawn_eq]
    exact hintroduces

/-- Where a symbol of a unit comes from. -/
theorem mem_definedSymbols (h : Links fns labels p) {i : Nat} {fn : FunctionDef}
    {unit : CompiledUnit} (hfn : fns[i]? = some fn) (hunit : p.units[i]? = some unit)
    {symbol : String} (hmem : symbol ∈ unit.definedSymbols) :
    symbol = fn.name ∨ ∃ word k, word ∈ numberedWords ∧
      k < ((envOf fns (labels i)).lower fn).drawn ∧ symbol = numbered word (labels i k) := by
  obtain ⟨symbols, heq, hintroduces⟩ := h.definedSymbols_eq hfn hunit
  rw [heq] at hmem
  rcases List.mem_cons.mp hmem with rfl | hmem
  · exact Or.inl rfl
  · obtain ⟨word, k, hword, -, hk, rfl⟩ := hintroduces.mem hmem
    exact Or.inr ⟨word, k, hword, hk, rfl⟩

theorem name_ne_numbered (h : Links fns labels p) {i : Nat} {fn : FunctionDef}
    (hfn : fns[i]? = some fn) {word : String} (hword : word ∈ numberedWords) (id : Nat) :
    fn.name ≠ numbered word id := by
  intro heq
  have hfree := h.declarable.unreserved fn (List.mem_of_getElem? hfn)
  rw [heq, isReservedSymbol_numbered hword] at hfree
  cases hfree

theorem unit_definedSymbols_nodup (h : Links fns labels p) {i : Nat} {unit : CompiledUnit}
    (hunit : p.units[i]? = some unit) : unit.definedSymbols.Nodup := by
  obtain ⟨fn, hfn⟩ := h.exists_function hunit
  obtain ⟨symbols, heq, hintroduces⟩ := h.definedSymbols_eq hfn hunit
  rw [heq, List.nodup_cons]
  constructor
  · intro hmem
    obtain ⟨word, k, hword, -, -, hname⟩ := hintroduces.mem hmem
    exact h.name_ne_numbered hfn hword _ hname
  · apply hintroduces.nodup
    intro k l _ hk _ hl hid
    exact (h.distinct i i k l fn fn hfn hfn hk hl hid).2

/-- Two units share no symbol. -/
theorem definedSymbols_disjoint (h : Links fns labels p) {i j : Nat} (hij : i ≠ j)
    {unit other : CompiledUnit} (hunit : p.units[i]? = some unit)
    (hother : p.units[j]? = some other) :
    unit.definedSymbols.Disjoint other.definedSymbols := by
  obtain ⟨fn, hfn⟩ := h.exists_function hunit
  obtain ⟨gn, hgn⟩ := h.exists_function hother
  intro symbol hmem hmem'
  rcases h.mem_definedSymbols hfn hunit hmem with rfl | ⟨word, k, hword, hk, rfl⟩
  · rcases h.mem_definedSymbols hgn hother hmem' with hname | ⟨word, l, hword, -, hname⟩
    · exact hij (h.declarable.index_eq hfn hgn hname)
    · exact h.name_ne_numbered hfn hword _ hname
  · rcases h.mem_definedSymbols hgn hother hmem' with hname | ⟨word', l, -, hl, hname⟩
    · exact h.name_ne_numbered hgn hword _ hname.symm
    · have hid := (numbered_inj hname).2
      exact hij (h.distinct i j k l fn gn hfn hgn hk hl hid).1

theorem units_definedSymbols_nodup (h : Links fns labels p) :
    (p.units.flatMap (·.definedSymbols)).Nodup := by
  rw [List.nodup_flatMap]
  constructor
  · intro unit hunit
    obtain ⟨i, hi⟩ := List.mem_iff_getElem?.mp hunit
    exact h.unit_definedSymbols_nodup hi
  · rw [List.pairwise_iff_getElem]
    intro i j hi hj hij
    exact h.definedSymbols_disjoint (Nat.ne_of_lt hij) (List.getElem?_eq_getElem hi)
      (List.getElem?_eq_getElem hj)

/-- A unit's symbol is never the storage of a global. -/
theorem definedSymbols_ne_globalSymbol (h : Links fns labels p) {unit : CompiledUnit}
    (hunit : unit ∈ p.units) {symbol : String} (hmem : symbol ∈ unit.definedSymbols)
    (name : String) : symbol ≠ globalSymbol name := by
  obtain ⟨i, hi⟩ := List.mem_iff_getElem?.mp hunit
  obtain ⟨fn, hfn⟩ := h.exists_function hi
  rcases h.mem_definedSymbols hfn hi hmem with rfl | ⟨word, k, hword, -, rfl⟩
  · intro heq
    have hfree := h.declarable.unreserved fn (List.mem_of_getElem? hfn)
    rw [heq, isReservedSymbol_globalSymbol] at hfree
    cases hfree
  · exact numbered_ne_globalSymbol hword _ name

theorem definedSymbols_ne_start (h : Links fns labels p) {unit : CompiledUnit}
    (hunit : unit ∈ p.units) {symbol : String} (hmem : symbol ∈ unit.definedSymbols) :
    symbol ≠ "_start" := by
  obtain ⟨i, hi⟩ := List.mem_iff_getElem?.mp hunit
  obtain ⟨fn, hfn⟩ := h.exists_function hi
  rcases h.mem_definedSymbols hfn hi hmem with rfl | ⟨word, k, hword, -, rfl⟩
  · intro heq
    have hfree := h.declarable.unreserved fn (List.mem_of_getElem? hfn)
    rw [heq, isReservedSymbol_start] at hfree
    cases hfree
  · exact numbered_ne_start hword _

theorem globals_nodup (h : Links fns labels p) : (p.globals.map globalSymbol).Nodup := by
  have hnodup : p.globals.Nodup := h.globals_pairwise.imp ne_of_lt
  exact hnodup.map globalSymbol_injective

theorem nodup_definedSymbols (h : Links fns labels p) : p.definedSymbols.Nodup := by
  have hstart : (p.globals.map globalSymbol ++ ["_start"]).Nodup := by
    refine h.globals_nodup.append (List.nodup_singleton _) ?_
    intro symbol hmem hmem'
    obtain ⟨name, -, rfl⟩ := List.mem_map.mp hmem
    exact globalSymbol_ne_start name (List.mem_singleton.mp hmem')
  refine h.units_definedSymbols_nodup.append hstart ?_
  intro symbol hmem hmem'
  obtain ⟨unit, hunit, hsymbol⟩ := List.mem_flatMap.mp hmem
  rcases List.mem_append.mp hmem' with hglobal | hentry
  · obtain ⟨name, -, heq⟩ := List.mem_map.mp hglobal
    exact h.definedSymbols_ne_globalSymbol hunit hsymbol name heq.symm
  · exact h.definedSymbols_ne_start hunit hsymbol (List.mem_singleton.mp hentry)

theorem arity?_eq_none_iff {name : String} :
    arityOf fns name = none ↔ ∀ fn ∈ fns, fn.name ≠ name := by
  unfold arityOf
  rw [List.lookup_eq_none_iff]
  simp only [List.mem_map, bne_iff_ne, forall_exists_index, and_imp, forall_apply_eq_imp_iff₂]
  exact forall₂_congr fun _ _ => ne_comm

/-- What a unit imports is defined nowhere in the program. -/
theorem externs_not_defined (h : Links fns labels p) {unit : CompiledUnit}
    (hunit : unit ∈ p.units) {name : String} (hname : name ∈ unit.externs) :
    name ∉ p.definedSymbols := by
  obtain ⟨i, hi⟩ := List.mem_iff_getElem?.mp hunit
  obtain ⟨fn, hfn⟩ := h.exists_function hi
  obtain ⟨entry, body, final, hlowered⟩ := lower_eq_ok (h.lowered hfn hi)
  rw [hlowered.unit_eq] at hname
  obtain ⟨harity, hfree⟩ := hlowered.lowers.externs_foreign (by simp) name hname
  have hreserved : ∀ symbol, isReservedSymbol symbol = true → name ≠ symbol := by
    rintro symbol hsymbol rfl
    rw [hfree] at hsymbol
    cases hsymbol
  intro hmem
  rcases List.mem_append.mp hmem with hmem | hmem
  · obtain ⟨other, hother, hsymbol⟩ := List.mem_flatMap.mp hmem
    obtain ⟨j, hj⟩ := List.mem_iff_getElem?.mp hother
    obtain ⟨gn, hgn⟩ := h.exists_function hj
    rcases h.mem_definedSymbols hgn hj hsymbol with heq | ⟨word, k, hword, -, heq⟩
    · exact arity?_eq_none_iff.mp harity gn (List.mem_of_getElem? hgn) heq.symm
    · exact hreserved _ (isReservedSymbol_numbered hword _) heq
  · rcases List.mem_append.mp hmem with hmem | hmem
    · obtain ⟨g, -, heq⟩ := List.mem_map.mp hmem
      exact hreserved _ (isReservedSymbol_globalSymbol g) heq.symm
    · exact hreserved _ isReservedSymbol_start (List.mem_singleton.mp hmem)

/-- The symbols that take space in the data area are among the defined ones. -/
theorem requests_nodup (h : Links fns labels p) : ((Layout.requests p).map (·.1)).Nodup := by
  have hsymbols : (Layout.requests p).map (·.1) =
      p.globals.map globalSymbol ++ p.units.flatMap fun unit => unit.data.map (·.symbol) := by
    simp [Layout.requests, List.map_flatMap, Function.comp_def]
  have hsublist : (p.units.flatMap fun unit => unit.data.map (·.symbol)).Sublist
      (p.units.flatMap (·.definedSymbols)) :=
    List.Sublist.flatMap_right _ fun unit _ => List.sublist_append_right _ _
  rw [hsymbols]
  refine h.globals_nodup.append (h.units_definedSymbols_nodup.sublist hsublist) ?_
  intro symbol hglobal hregion
  obtain ⟨unit, hunit, hsymbol⟩ := List.mem_flatMap.mp hregion
  obtain ⟨name, -, rfl⟩ := List.mem_map.mp hglobal
  exact h.definedSymbols_ne_globalSymbol hunit (List.mem_append_right _ hsymbol) name rfl

theorem load_eq (h : Links fns labels p) (limits : Limits) :
    Machine.load p limits = .ok (Machine.fresh (Image.ofProgram p limits)) :=
  Machine.load_eq h.requests_nodup limits

end Links

/-- In whatever order the requests of the lowerings are served, a compiled program
defines every symbol once and imports none that it defines. Its data area can
therefore always be laid out. -/
theorem compileInterleaved_symbols_nodup {s : Source} {jobs : Nat} {trace : Trace} {p : Program}
    (htrace : Interleaving s.functions trace) (hp : s.compileInterleaved jobs trace = .ok p) :
    p.definedSymbols.Nodup ∧
      (∀ unit ∈ p.units, ∀ name ∈ unit.externs, name ∉ p.definedSymbols) ∧
      ∀ limits, ∃ m, Machine.load p limits = .ok m := by
  obtain ⟨fns, labels, -, hlinks⟩ := Source.compileInterleaved_links htrace hp
  refine ⟨hlinks.nodup_definedSymbols, ?_, ?_⟩
  · intro unit hunit name hname
    exact hlinks.externs_not_defined hunit hname
  · intro limits
    exact ⟨_, hlinks.load_eq limits⟩

theorem crossing_symbols_nodup :
    ∃ p, Source.compileInterleaved (crossing.map some) 2 crossingTrace = .ok p ∧
      p.definedSymbols.Nodup := by
  have htrace : Interleaving (Source.functions (crossing.map some)) crossingTrace :=
    crossing_interleaving
  obtain ⟨p, hp⟩ :
      ∃ p, Source.compileInterleaved (crossing.map some) 2 crossingTrace = .ok p := ⟨_, rfl⟩
  exact ⟨p, hp, (compileInterleaved_symbols_nodup htrace hp).1⟩

end Arbor
