import Mathlib.Tactic
import Arbor.Proofs.Uniqueness

/-!
Lowered code is closed. A jump goes to a label of the same code, an address taken
is that of a region of the unit, a word of storage is a promoted global or lies
inside a reserved region, and a call names a function of the source or one that the
unit imports. Operands that are written can be written.
-/

namespace Arbor

/-- What code may refer to. -/
structure Surroundings where
  labels : List String
  data : List DataRegion
  globals : List String
  callable : String → Prop

/-- An operand that stands for a value or a word of storage. -/
inductive Operand.Placed (σ : Surroundings) : Operand → Prop where
  | reg (r : Reg) : Placed σ (.ofReg r)
  | imm (v : Word) : Placed σ (.imm v)
  | slot (d : Word) : Placed σ (.frameSlot d)
  | element (base index : Reg) (d : Word) (hindex : index ≠ .none) :
      Placed σ (.element base index d)
  | global {name : String} (hname : name ∈ σ.globals) : Placed σ (.global (globalSymbol name) 0)
  | word {symbol : String} {quadwords k : Nat} (hregion : .reserve symbol quadwords ∈ σ.data)
      (hk : k < quadwords) : Placed σ (.global symbol (8 * Int64.ofNat k))

/-- Whether the mnemonic goes to a label. -/
def Mnemonic.isJump (m : Mnemonic) : Bool := m == .jmp || m.isConditionalJump

/-- Whether the mnemonic takes operands that are values or words of storage. -/
def Mnemonic.isPlain (m : Mnemonic) : Bool := !(m.isJump || m == .call || m == .lea)

inductive Instruction.Closed (σ : Surroundings) : Instruction → Prop where
  | label (name : String) (line : UInt32) : Closed σ (.labelled name line)
  | jump {m : Mnemonic} {label : String} {line : UInt32} (hm : m.isJump)
      (hlabel : label ∈ σ.labels) : Closed σ (.make m [.sym label] line)
  | call {callee : String} {line : UInt32} (hcallee : σ.callable callee) :
      Closed σ (.make .call [.sym callee] line)
  | lea {region : DataRegion} {line : UInt32} (hregion : region ∈ σ.data) :
      Closed σ (.make .lea [.ofReg .rax, .sym region.symbol] line)
  | plain {m : Mnemonic} {os : List Operand} {line : UInt32} (hm : m.isPlain)
      (hos : ∀ o ∈ os, o.Placed σ) (hdst : ∀ o ∈ os.head?, o.kind ≠ .immediate)
      (hxchg : m = .xchg → ∀ o ∈ os, o.kind ≠ .immediate) : Closed σ (.make m os line)

def Code.Closed (σ : Surroundings) (code : Code) : Prop := ∀ i ∈ code, i.Closed σ

namespace Code

variable {σ : Surroundings}

@[simp] theorem closed_nil : Closed σ [] := by simp [Closed]

@[simp] theorem closed_cons {i : Instruction} {code : Code} :
    Closed σ (i :: code) ↔ i.Closed σ ∧ Closed σ code := by simp [Closed]

@[simp] theorem closed_append {a b : Code} : Closed σ (a ++ b) ↔ Closed σ a ∧ Closed σ b := by
  simp only [Closed, List.mem_append]
  exact ⟨fun h => ⟨fun i hi => h i (.inl hi), fun i hi => h i (.inr hi)⟩,
    fun h i hi => hi.elim (h.1 i) (h.2 i)⟩

end Code

namespace Emit

open Code

variable {σ : Surroundings} {line : UInt32}

@[simp] theorem closed_label {name : String} : (Instruction.labelled name line).Closed σ :=
  .label name line

/-- A move from a placed operand to a register or a word of storage. -/
theorem closed_mov {dst src : Operand} (hdst : dst.Placed σ) (hsrc : src.Placed σ)
    (hkind : dst.kind ≠ .immediate) : (mov line dst src).Closed σ := by
  apply Instruction.Closed.plain rfl
  · simp [hdst, hsrc]
  · simpa using hkind
  · intro h
    cases h

theorem closed_unary {m : Mnemonic} {r : Reg} (hm : m.isPlain) :
    (Instruction.make m [.ofReg r] line).Closed σ := by
  apply Instruction.Closed.plain hm
  · simpa using Operand.Placed.reg r
  · simp [Operand.ofReg]
  · simp [Operand.ofReg]

theorem closed_registers {m : Mnemonic} {a b : Reg} (hm : m.isPlain) :
    (Instruction.make m [.ofReg a, .ofReg b] line).Closed σ := by
  apply Instruction.Closed.plain hm
  · simpa using ⟨Operand.Placed.reg a, Operand.Placed.reg b⟩
  · simp [Operand.ofReg]
  · simp [Operand.ofReg]

theorem closed_nullary {m : Mnemonic} (hm : m.isPlain) :
    (Instruction.make m [] line).Closed σ := by
  apply Instruction.Closed.plain hm <;> simp

theorem closed_adjust {m : Mnemonic} {v : Word} (hm : m.isPlain) (hne : m ≠ .xchg) :
    (Instruction.make m [rsp, .imm v] line).Closed σ := by
  apply Instruction.Closed.plain hm
  · simpa using ⟨Operand.Placed.reg .rsp, Operand.Placed.imm v⟩
  · simp [rsp, Operand.ofReg]
  · intro h
    exact absurd h hne

theorem closed_mov_reg {r : Reg} {src : Operand} (hsrc : src.Placed σ) :
    (mov line (.ofReg r) src).Closed σ :=
  closed_mov (.reg r) hsrc (by simp [Operand.ofReg])

@[simp] theorem closed_push {r : Reg} : (push line (.ofReg r)).Closed σ := closed_unary rfl

@[simp] theorem closed_pop {r : Reg} : (pop line (.ofReg r)).Closed σ := closed_unary rfl

@[simp] theorem closed_mov_imm {r : Reg} {v : Word} : (mov line (.ofReg r) (.imm v)).Closed σ :=
  closed_mov_reg (.imm v)

@[simp] theorem closed_mov_regs {a b : Reg} : (mov line (.ofReg a) (.ofReg b)).Closed σ :=
  closed_mov_reg (.reg b)

@[simp] theorem closed_loadElement : Closed σ (loadElement line) := by
  simpa [loadElement, rax] using closed_mov_reg (.element .rbx .rax 8 (by decide))

@[simp] theorem closed_storeElement : (storeElement line).Closed σ :=
  closed_mov (.element .rbx .rcx 8 (by decide)) (.reg .rax) (by simp [Operand.element])

theorem closed_rightOperand {leaf : Bool} {right : Code} (h : Closed σ right) :
    Closed σ (rightOperand line leaf right) := by
  cases leaf <;> simpa [rightOperand, rax, rbx] using h

theorem closed_applyOperator {op : BinaryOperator} : Closed σ (applyOperator line op) := by
  cases op <;> simp only [applyOperator, closed_cons, closed_nil, and_true]
  case add => exact closed_registers rfl
  case sub => exact ⟨closed_registers rfl, closed_registers rfl⟩
  case mult => exact closed_registers rfl
  case div => exact ⟨closed_registers rfl, closed_nullary rfl, closed_unary rfl⟩
  case mod =>
    exact ⟨closed_registers rfl, closed_nullary rfl, closed_unary rfl, closed_mov_regs⟩

theorem closed_jump {m : Mnemonic} {label : String} (hm : m.isJump) (hlabel : label ∈ σ.labels) :
    (jump line m label).Closed σ := .jump hm hlabel

theorem jumpFor_isJump (op : CompareOperator) : (jumpFor op).isJump = true := by
  cases op <;> rfl

theorem closed_applyCompare {op : CompareOperator} {id : Nat}
    (h : labels (applyCompare line op id) ⊆ σ.labels) : Closed σ (applyCompare line op id) := by
  simp only [labels_applyCompare, List.cons_subset, List.nil_subset, and_true] at h
  obtain ⟨htrue, hfalse, hend⟩ := h
  simp only [applyCompare, closed_cons, closed_nil, and_true]
  exact ⟨closed_registers rfl, closed_jump (jumpFor_isJump op) htrue, closed_jump rfl hfalse,
    closed_label, closed_mov_imm, closed_jump rfl hend, closed_label, closed_mov_imm, closed_label⟩

theorem closed_callPushed {callee : String} {count : Nat} (h : σ.callable callee) :
    Closed σ (callPushed line callee count) := by
  unfold callPushed
  refine closed_cons.mpr ⟨.call h, ?_⟩
  split
  · exact closed_nil
  · exact closed_cons.mpr ⟨closed_adjust rfl (by decide), closed_nil⟩

theorem closed_popWords {region : String} {quadwords n : Nat}
    (hregion : .reserve region quadwords ∈ σ.data) (hn : n < quadwords) :
    Closed σ (popWords line region n) := by
  induction n with
  | zero => exact closed_nil
  | succ n ih =>
      have hword : (mov line (.global region (8 * Int64.ofNat (n + 1))) rax).Closed σ :=
        closed_mov (.word hregion hn) (.reg .rax) (by simp [Operand.global])
      simp only [popWords, closed_cons]
      exact ⟨closed_pop, hword, ih (by omega)⟩

theorem closed_fillRegion {region : String} {quadwords count staged : Nat}
    (hregion : .reserve region quadwords ∈ σ.data) (hstaged : staged < quadwords) :
    Closed σ (fillRegion line region count staged) := by
  have hlength : (mov line (.global region 0) rax).Closed σ :=
    closed_mov (.word hregion (Nat.zero_lt_of_lt hstaged)) (.reg .rax) (by simp [Operand.global])
  have hlea : (lea line rax region).Closed σ := .lea hregion
  simp only [fillRegion, closed_cons, closed_append, closed_nil, and_true]
  exact ⟨closed_mov_imm, hlength, closed_popWords hregion hstaged, hlea⟩

@[simp] theorem closed_epilogue : Closed σ (epilogue line) := by
  simp only [epilogue, closed_cons, closed_nil, and_true]
  exact ⟨closed_mov_regs, closed_pop, closed_nullary rfl⟩

theorem closed_branchIfZero {label : String} (h : label ∈ σ.labels) :
    Closed σ (branchIfZero line label) := by
  simp only [branchIfZero, closed_cons, closed_nil, and_true]
  exact ⟨closed_registers rfl, closed_jump rfl h⟩

theorem closed_conditional {id : Nat} {test body orelse : Code}
    (h : labels (conditional line id test body orelse) ⊆ σ.labels) (htest : Closed σ test)
    (hbody : Closed σ body) (horelse : Closed σ orelse) :
    Closed σ (conditional line id test body orelse) := by
  rw [labels_conditional] at h
  have helse : numbered "else" id ∈ σ.labels := h (by simp)
  have hend : numbered "end" id ∈ σ.labels := h (by simp)
  simp only [conditional, closed_append, closed_cons, closed_nil, and_true]
  exact ⟨⟨⟨htest, closed_branchIfZero helse⟩, hbody⟩, closed_jump rfl hend, closed_label, horelse,
    closed_label⟩

theorem closed_loop {id : Nat} {test body : Code}
    (h : labels (loop line id test body) ⊆ σ.labels) (htest : Closed σ test)
    (hbody : Closed σ body) : Closed σ (loop line id test body) := by
  rw [labels_loop] at h
  have hloop : numbered "loop" id ∈ σ.labels := h (by simp)
  have hend : numbered "end" id ∈ σ.labels := h (by simp)
  simp only [loop, closed_append, closed_cons, closed_nil, and_true]
  exact ⟨closed_label, ⟨⟨htest, closed_branchIfZero hend⟩, hbody⟩, closed_jump rfl hloop,
    closed_label⟩

theorem closed_functionCode {fn : FunctionDef} {slots : Nat} {body : Code} (h : Closed σ body) :
    Closed σ (functionCode fn slots body) := by
  simp only [functionCode, prologue, fallthrough, closed_append, closed_cons, closed_nil, and_true]
  refine ⟨⟨closed_label, closed_push, closed_mov_regs⟩, ?_, h, closed_mov_imm, closed_epilogue⟩
  unfold reserve
  split
  · exact closed_nil
  · exact closed_cons.mpr ⟨closed_adjust rfl (by decide), closed_nil⟩

end Emit

/-- The surroundings know everything collected so far. -/
structure Surroundings.Knows (σ : Surroundings) (env : LoweringEnv) (st : LoweringState) :
    Prop where
  data : st.data ⊆ σ.data
  globals : st.promoted ⊆ σ.globals
  externs : ∀ name ∈ st.externs, σ.callable name
  functions : ∀ name n, env.arity? name = some n → σ.callable name

/-- Nothing collected is ever dropped. -/
structure LoweringState.Within (st st' : LoweringState) : Prop where
  data : st.data ⊆ st'.data
  promoted : st.promoted ⊆ st'.promoted
  externs : st.externs ⊆ st'.externs

theorem Lowers.within {env : LoweringEnv} {phrase : Phrase} {st st' : LoweringState} {code : Code}
    (h : Lowers env phrase st code st') : st.Within st' := by
  refine h.preserves (P := fun now => st.Within now) ?_
    ⟨List.Subset.refl _, List.Subset.refl _, List.Subset.refl _⟩
  constructor
  · exact fun _ hst => ⟨hst.data, hst.promoted, hst.externs⟩
  · intro _ _ _ hst
    exact ⟨List.subset_append_of_subset_left _ hst.data, hst.promoted, hst.externs⟩
  · intro _ name _ _ hst
    exact ⟨hst.data, hst.promoted, fun x hx => Names.mem_add.mpr (.inr (hst.externs hx))⟩
  · intro _ id _ _ hst
    exact ⟨hst.data, fun x hx => Names.mem_add.mpr (.inr (hst.promoted hx)), hst.externs⟩
  · exact fun _ _ _ hst => ⟨hst.data, hst.promoted, hst.externs⟩

theorem Surroundings.Knows.earlier {σ : Surroundings} {env : LoweringEnv} {phrase : Phrase}
    {st st' : LoweringState} {code : Code} (h : σ.Knows env st')
    (hlowers : Lowers env phrase st code st') : σ.Knows env st where
  data := List.Subset.trans hlowers.within.data h.data
  globals := List.Subset.trans hlowers.within.promoted h.globals
  externs := fun name hname => h.externs name (hlowers.within.externs hname)
  functions := h.functions

open Emit Code in
/-- Lowered code refers only to its own labels and to what its lowering collected. -/
theorem Lowers.closed {env : LoweringEnv} {phrase : Phrase} {st st' : LoweringState} {code : Code}
    (h : Lowers env phrase st code st') {σ : Surroundings} (hknows : σ.Knows env st')
    (hlabels : labels code ⊆ σ.labels) : Closed σ code := by
  induction h with
  | constant | builtin | bareReturn => simp [rax]
  | slot => exact closed_cons.mpr ⟨closed_mov_reg (.slot _), closed_nil⟩
  | @global line id st _ _ =>
      have hid : id ∈ σ.globals := hknows.globals (Names.mem_add.mpr (.inl rfl))
      exact closed_cons.mpr ⟨closed_mov_reg (.global hid), closed_nil⟩
  | @string line bytes st =>
      have hregion := hknows.data (List.mem_append_right _ (List.mem_singleton.mpr rfl))
      exact closed_cons.mpr ⟨.lea hregion, closed_nil⟩
  | pushesNil | pairsNil | targetsNil | blockNil => exact closed_nil
  | binary hleft hright ihleft ihright =>
      simp only [labels_append, labels_rightOperand, List.append_subset] at hlabels
      obtain ⟨⟨hl, hr⟩, -⟩ := hlabels
      simp only [closed_append]
      exact ⟨⟨ihleft (hknows.earlier hright) hl, closed_rightOperand (ihright hknows hr)⟩,
        closed_applyOperator⟩
  | @compare _ _ _ _ _ _ _ _ st₂ hleft hright ihleft ihright =>
      simp only [labels_append, labels_rightOperand, List.append_subset] at hlabels
      obtain ⟨⟨hl, hr⟩, hcompare⟩ := hlabels
      have hknows' : σ.Knows env st₂ :=
        ⟨hknows.data, hknows.globals, hknows.externs, hknows.functions⟩
      simp only [closed_append]
      exact ⟨⟨ihleft (hknows'.earlier hright) hl, closed_rightOperand (ihright hknows' hr)⟩,
        closed_applyCompare hcompare⟩
  | call harity _ ihargs =>
      simp only [labels_append, List.append_subset] at hlabels
      exact closed_append.mpr ⟨ihargs hknows hlabels.1,
        closed_callPushed (hknows.functions _ _ harity)⟩
  | externalCall _ _ hargs ihargs =>
      simp only [labels_append, List.append_subset] at hlabels
      have hcallee := (hknows.earlier hargs).externs _ (Names.mem_add.mpr (.inl rfl))
      exact closed_append.mpr ⟨ihargs hknows hlabels.1, closed_callPushed hcallee⟩
  | list helements ihelements =>
      simp only [labels_append, List.append_subset] at hlabels
      have hregion := (hknows.earlier helements).data
        (List.mem_append_right _ (List.mem_singleton.mpr rfl))
      exact closed_append.mpr ⟨ihelements hknows hlabels.1,
        closed_fillRegion hregion (Nat.lt_succ_self _)⟩
  | dict _ hpairs ihpairs =>
      simp only [labels_append, List.append_subset] at hlabels
      have hregion := (hknows.earlier hpairs).data
        (List.mem_append_right _ (List.mem_singleton.mpr rfl))
      exact closed_append.mpr ⟨ihpairs hknows hlabels.1, closed_fillRegion hregion (by omega)⟩
  | subscript _ hindex ihvalue ihindex =>
      simp only [labels_append, labels_rightOperand, List.append_subset] at hlabels
      obtain ⟨⟨hv, hi⟩, -⟩ := hlabels
      simp only [closed_append]
      exact ⟨⟨ihvalue (hknows.earlier hindex) hv, closed_rightOperand (ihindex hknows hi)⟩,
        closed_loadElement⟩
  | pushesCons _ htail ihhead ihtail =>
      simp only [labels_append, labels_push, List.append_subset] at hlabels
      simp only [closed_append, closed_cons]
      exact ⟨ihhead (hknows.earlier htail) hlabels.1, closed_push, ihtail hknows hlabels.2⟩
  | pairsCons _ hvalue htail ihkey ihvalue ihtail =>
      simp only [labels_append, labels_push, List.append_subset] at hlabels
      have hknows' := hknows.earlier htail
      simp only [closed_append, closed_cons]
      exact ⟨ihkey (hknows'.earlier hvalue) hlabels.1, closed_push,
        ihvalue hknows' hlabels.2.1, closed_push, ihtail hknows hlabels.2.2⟩
  | storeName =>
      exact closed_cons.mpr
        ⟨closed_mov (.slot _) (.reg .rax) (by simp [Operand.frameSlot]), closed_nil⟩
  | storeElement _ hindex ihvalue ihindex =>
      simp only [labels_append, labels_push, labels_rightOperand, List.append_subset] at hlabels
      obtain ⟨⟨hv, hi⟩, -⟩ := hlabels
      simp only [closed_append, closed_cons, closed_nil, and_true]
      exact ⟨closed_push, ⟨ihvalue (hknows.earlier hindex) hv,
        closed_rightOperand (ihindex hknows hi)⟩, closed_mov_regs, closed_pop, closed_storeElement⟩
  | targetsCons _ htail ihhead ihtail =>
      simp only [labels_append, List.append_subset] at hlabels
      exact closed_append.mpr ⟨ihhead (hknows.earlier htail) hlabels.1, ihtail hknows hlabels.2⟩
  | assign _ _ _ hstores ihvalue ihstores =>
      simp only [labels_append, List.append_subset] at hlabels
      exact closed_append.mpr ⟨ihvalue (hknows.earlier hstores) hlabels.1,
        ihstores hknows hlabels.2⟩
  | augElement _ hindex hvalue ihbase ihindex ihvalue =>
      simp only [labels_append, labels_push, labels_rightOperand, List.append_subset] at hlabels
      obtain ⟨⟨hb, hi⟩, ⟨⟨-, hv⟩, -⟩, -⟩ := hlabels
      have hknows' := hknows.earlier hvalue
      simp only [closed_append, closed_cons, closed_nil, and_true]
      exact ⟨⟨ihbase (hknows'.earlier hindex) hb, closed_rightOperand (ihindex hknows' hi)⟩,
        closed_push, closed_push, ⟨⟨closed_loadElement, closed_rightOperand (ihvalue hknows hv)⟩,
        closed_applyOperator⟩, closed_pop, closed_pop, closed_storeElement⟩
  | augName _ _ hvalue hstore ihname ihvalue ihstore =>
      simp only [labels_append, labels_rightOperand, List.append_subset] at hlabels
      obtain ⟨⟨⟨hn, hv⟩, -⟩, hs⟩ := hlabels
      have hknows' := hknows.earlier hstore
      simp only [closed_append]
      exact ⟨⟨⟨ihname (hknows'.earlier hvalue) hn, closed_rightOperand (ihvalue hknows' hv)⟩,
        closed_applyOperator⟩, ihstore hknows hs⟩
  | ret _ ihvalue =>
      simp only [labels_append, List.append_subset] at hlabels
      exact closed_append.mpr ⟨ihvalue hknows hlabels.1, closed_epilogue⟩
  | expr _ ihvalue => exact ihvalue hknows hlabels
  | ifElse _ hbody horelse ihtest ihbody ihorelse =>
      have hparts := hlabels
      rw [labels_conditional] at hparts
      simp only [List.append_subset, List.cons_subset] at hparts
      obtain ⟨ht, hb, -, ho, -⟩ := hparts
      have hknows' := hknows.earlier horelse
      exact closed_conditional hlabels (ihtest (hknows'.earlier hbody) ht) (ihbody hknows' hb)
        (ihorelse hknows ho)
  | whileLoop _ hbody ihtest ihbody =>
      have hparts := hlabels
      rw [labels_loop] at hparts
      simp only [List.append_subset, List.cons_subset] at hparts
      obtain ⟨-, ht, hb, -⟩ := hparts
      exact closed_loop hlabels (ihtest (hknows.earlier hbody) ht) (ihbody hknows hb)
  | bare _ ihexpression => exact ihexpression hknows hlabels
  | blockCons _ htail ihhead ihtail =>
      simp only [labels_append, List.append_subset] at hlabels
      exact closed_append.mpr ⟨ihhead (hknows.earlier htail) hlabels.1, ihtail hknows hlabels.2⟩

/-- What the code of a unit may refer to in its program. -/
def Program.surroundings (p : Program) (unit : CompiledUnit) : Surroundings where
  labels := unit.code.labels
  data := unit.data
  globals := p.globals
  callable := fun name => p.defines name ∨ name ∈ unit.externs

namespace Links

variable {fns : List FunctionDef} {labels : Nat → Nat → Nat} {p : Program}

theorem unit_name (h : Links fns labels p) {i : Nat} {fn : FunctionDef} {unit : CompiledUnit}
    (hfn : fns[i]? = some fn) (hunit : p.units[i]? = some unit) : unit.name = fn.name := by
  obtain ⟨entry, body, final, hlowered⟩ := lower_eq_ok (h.lowered hfn hunit)
  rw [hlowered.unit_eq]

theorem unit_names (h : Links fns labels p) : p.units.map (·.name) = fns.map (·.name) := by
  apply List.ext_getElem?
  intro i
  rw [List.getElem?_map, List.getElem?_map]
  cases hfn : fns[i]? with
  | none =>
      have hlength : p.units.length ≤ i := by
        rw [h.units_length]
        exact List.getElem?_eq_none_iff.mp hfn
      rw [List.getElem?_eq_none_iff.mpr hlength]
      rfl
  | some fn =>
      obtain ⟨unit, hunit⟩ := h.exists_unit hfn
      rw [hunit, Option.map_some, Option.map_some, h.unit_name hfn hunit]

theorem defines_of_arityOf (h : Links fns labels p) {name : String} {n : Nat}
    (hname : arityOf fns name = some n) : p.defines name := by
  obtain ⟨fn, hmem, rfl, -⟩ := exists_of_arityOf hname
  obtain ⟨i, hfn⟩ := List.mem_iff_getElem?.mp hmem
  obtain ⟨unit, hunit⟩ := h.exists_unit hfn
  rw [Program.defines, List.any_eq_true]
  exact ⟨unit, List.mem_of_getElem? hunit, by simp [h.unit_name hfn hunit]⟩

/-- Every unit of a compiled program is closed. -/
theorem unit_closed (h : Links fns labels p) {unit : CompiledUnit} (hunit : unit ∈ p.units) :
    unit.code.Closed (p.surroundings unit) := by
  obtain ⟨i, hi⟩ := List.mem_iff_getElem?.mp hunit
  obtain ⟨fn, hfn⟩ := h.exists_function hi
  obtain ⟨entry, body, final, hlowered⟩ := lower_eq_ok (h.lowered hfn hi)
  have hknows : (p.surroundings unit).Knows (envOf fns (labels i)) final := by
    refine ⟨?_, ?_, ?_, ?_⟩
    · rw [hlowered.unit_eq]
      exact List.Subset.refl _
    · intro x hx
      exact h.mem_globals.mpr ⟨i, fn, hfn, by rwa [hlowered.promoted_eq]⟩
    · intro name hname
      rw [hlowered.unit_eq]
      exact Or.inr hname
    · intro name n hname
      exact Or.inl (h.defines_of_arityOf hname)
  have hcode : unit.code = Emit.functionCode fn final.scope.frameSlots body := by
    rw [hlowered.unit_eq]
  rw [hcode]
  apply Emit.closed_functionCode
  apply hlowered.lowers.closed hknows
  rw [Program.surroundings, hcode, Emit.labels_functionCode]
  exact List.subset_cons_self _ _

end Links

end Arbor
