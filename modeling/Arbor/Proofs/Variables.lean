import Mathlib.Tactic
import Arbor.Proofs.Frames
import Arbor.Proofs.Symbols

/-!
The variables of a function, in its text and in its code. The text mentions names in
an order of its own: an assignment declares its name targets, then comes its value, then
the targets are stored to one after another. Lowering keeps to this order, and the
instructions that touch a frame slot or the word of a global are the reads and
assignments of the text, each with the storage that its name has by then.
-/

namespace Arbor

/-- What the text does with a name. -/
inductive Mention where
  | declare (id : String)
  | load (line : UInt32) (id : String)
  | store (line : UInt32) (id : String)
deriving DecidableEq, Repr

/-- Keys and values in turn. -/
def Mention.inTurn : List (List Mention) → List (List Mention) → List Mention
  | key :: keys, value :: values => key ++ (value ++ inTurn keys values)
  | _, _ => []

namespace Tree

/-- The name targets of an assignment. -/
def declarations : List Tree → List Mention
  | [] => []
  | .name _ id :: rest => .declare id :: declarations rest
  | _ :: rest => declarations rest

mutual

/-- The names an expression or a statement mentions, in the order of lowering. -/
def mentions : Tree → List Mention
  | .name line id => [.load line id]
  | .binary _ _ left right => left.mentions ++ right.mentions
  | .compare _ _ left right => left.mentions ++ right.mentions
  | .subscript _ value index => value.mentions ++ index.mentions
  | .call _ _ args => (mentionsEach args).flatten
  | .list _ elements => (mentionsEach elements).flatten
  | .dict _ keys values => Mention.inTurn (mentionsEach keys) (mentionsEach values)
  | .assign _ targets value => declarations targets ++ (value.mentions ++ stores targets)
  | .augAssign _ (.name line id) _ value =>
    .declare id :: .load line id :: (value.mentions ++ [.store line id])
  | .augAssign _ target _ value => target.mentions ++ value.mentions
  | .ret _ value => value.mentions
  | .expr _ value => value.mentions
  | .ifElse _ test body orelse =>
    test.mentions ++ ((mentionsEach body).flatten ++ (mentionsEach orelse).flatten)
  | .whileLoop _ test body => test.mentions ++ (mentionsEach body).flatten
  | _ => []

def mentionsEach : List Tree → List (List Mention)
  | [] => []
  | t :: rest => t.mentions :: mentionsEach rest

/-- An element target is found by its container and index, which are read. -/
def stores : List Tree → List Mention
  | [] => []
  | .name line id :: rest => .store line id :: stores rest
  | t :: rest => t.mentions ++ stores rest

end

end Tree

/-- A use of a variable in the text. `isLocal` says whether its name is local by then. -/
structure Reference where
  id : String
  line : UInt32
  isStore : Bool
  isLocal : Bool
deriving DecidableEq, Repr

namespace Mention

/-- The local names after a mention. -/
def extend (scope : List String) : Mention → List String
  | .declare id => declareName scope id
  | .load .. | .store .. => scope

/-- The local names after some mentions, in order of first declaration. -/
def declared (scope : List String) (ms : List Mention) : List String := ms.foldl extend scope

/-- The use of a variable that a mention is. A built-in constant is no variable. -/
def use? (scope : List String) : Mention → Option Reference
  | .declare _ => none
  | .load line id =>
    if (builtinConstant? id).isSome then none else some ⟨id, line, false, decide (id ∈ scope)⟩
  | .store line id => some ⟨id, line, true, decide (id ∈ scope)⟩

def references (scope : List String) : List Mention → List Reference
  | [] => []
  | m :: rest => (m.use? scope).toList ++ references (m.extend scope) rest

theorem declared_append (scope : List String) (a b : List Mention) :
    declared scope (a ++ b) = declared (declared scope a) b := List.foldl_append

theorem references_append (scope : List String) (a b : List Mention) :
    references scope (a ++ b) = references scope a ++ references (declared scope a) b := by
  induction a generalizing scope with
  | nil => rfl
  | cons m rest ih =>
      rw [List.cons_append, references, references, ih, List.append_assoc]
      rfl

/-- A use is told by the mentions before it. -/
theorem mem_references_iff {scope : List String} {ms : List Mention} {r : Reference} :
    r ∈ references scope ms ↔
      ∃ before m after, ms = before ++ m :: after ∧ m.use? (declared scope before) = some r := by
  constructor
  · intro h
    induction ms generalizing scope with
    | nil => cases h
    | cons m rest ih =>
        rw [references, List.mem_append, Option.mem_toList] at h
        rcases h with h | h
        · exact ⟨[], m, rest, rfl, h⟩
        · obtain ⟨before, m', after, rfl, huse⟩ := ih h
          exact ⟨m :: before, m', after, rfl, huse⟩
  · rintro ⟨before, m, after, rfl, huse⟩
    rw [references_append, references, huse]
    simp

theorem mem_declared_iff {scope : List String} {ms : List Mention} {id : String} :
    id ∈ declared scope ms ↔ id ∈ scope ∨ .declare id ∈ ms := by
  induction ms generalizing scope with
  | nil => simp [declared]
  | cons m rest ih =>
      have hrest : declared scope (m :: rest) = declared (m.extend scope) rest := rfl
      rw [hrest, ih, List.mem_cons]
      cases m with
      | declare id' =>
          simp only [extend, declareName, Mention.declare.injEq]
          split
          · next hmem => grind
          · grind
      | load | store => simp [extend]

/-- A name is local once it is a parameter or declared. -/
theorem use?_isLocal_iff {scope : List String} {before : List Mention} {m : Mention}
    {r : Reference} (huse : m.use? (declared scope before) = some r) :
    r.isLocal = true ↔ r.id ∈ scope ∨ .declare r.id ∈ before := by
  rw [← mem_declared_iff]
  cases m with
  | declare id => cases huse
  | load line id =>
      simp only [use?] at huse
      split at huse
      · cases huse
      · cases huse
        exact decide_eq_true_iff
  | store line id =>
      cases huse
      exact decide_eq_true_iff

end Mention

namespace FunctionDef

def mentions (fn : FunctionDef) : List Mention := (Tree.mentionsEach fn.body).flatten

/-- The parameters and then the other local names, in order of first declaration. -/
def locals (fn : FunctionDef) : List String := Mention.declared fn.params fn.mentions

def references (fn : FunctionDef) : List Reference := Mention.references fn.params fn.mentions

theorem mem_locals_of_isLocal {fn : FunctionDef} {r : Reference} (hr : r ∈ fn.references)
    (hlocal : r.isLocal = true) : r.id ∈ fn.locals := by
  obtain ⟨before, m, after, hmentions, huse⟩ := Mention.mem_references_iff.mp hr
  rw [locals, Mention.mem_declared_iff, hmentions, List.mem_append]
  exact ((Mention.use?_isLocal_iff huse).mp hlocal).imp_right .inl

end FunctionDef

namespace Operand

/-- Whether the operand is the word of a variable: a frame slot, or the storage of a global. -/
def isVariable (o : Operand) : Bool :=
  o.isFrameSlot || (o.kind == .memory && ['g', '_'].isPrefixOf o.symbol.toList)

@[simp] theorem isVariable_ofReg (r : Reg) : (ofReg r).isVariable = false := rfl

@[simp] theorem isVariable_imm (v : Word) : (imm v).isVariable = false := rfl

@[simp] theorem isVariable_sym (name : String) : (sym name).isVariable = false := rfl

@[simp] theorem isVariable_frameSlot (d : Word) : (frameSlot d).isVariable = true := rfl

@[simp] theorem isVariable_global (name : String) (d : Word) :
    (global (globalSymbol name) d).isVariable = true := by
  simp [isVariable, global, globalSymbol_toList, List.isPrefixOf]

theorem isVariable_region {word : String} (hword : word ∈ numberedWords) (id : Nat) (d : Word) :
    (global (numbered word id) d).isVariable = false := by
  simp only [isVariable, isFrameSlot, global, numbered_toList]
  simp only [numberedWords, List.mem_cons, List.not_mem_nil, or_false] at hword
  rcases hword with rfl | rfl | rfl | rfl | rfl | rfl | rfl | rfl <;> rfl

end Operand

namespace Code

/-- The instructions that touch the word of a variable. -/
def accesses (code : Code) : Code := code.filter fun i => i.operands.any (·.isVariable)

@[simp] theorem accesses_nil : accesses [] = [] := rfl

@[simp] theorem accesses_append (a b : Code) : accesses (a ++ b) = accesses a ++ accesses b :=
  List.filter_append ..

@[simp] theorem accesses_cons_labelled (name : String) (line : UInt32) (code : Code) :
    accesses (.labelled name line :: code) = accesses code := rfl

theorem accesses_cons_make {m : Mnemonic} {os : List Operand} (line : UInt32) (code : Code)
    (hos : os.any (·.isVariable) = false) : accesses (.make m os line :: code) = accesses code :=
  List.filter_cons_of_neg (by simp [Instruction.make, hos])

end Code

namespace Emit

open Code

theorem accesses_load {o : Operand} (ho : o.isVariable = true) {line : UInt32} :
    accesses [mov line rax o] = [mov line rax o] :=
  List.filter_cons_of_pos (by simp [mov, Instruction.make, ho])

theorem accesses_store {o : Operand} (ho : o.isVariable = true) {line : UInt32} :
    accesses [mov line o rax] = [mov line o rax] :=
  List.filter_cons_of_pos (by simp [mov, Instruction.make, ho])

@[simp] theorem accesses_mov_registers (line : UInt32) (a b : Reg) (code : Code) :
    accesses (mov line (.ofReg a) (.ofReg b) :: code) = accesses code := accesses_cons_make _ _ rfl

@[simp] theorem accesses_mov_imm (line : UInt32) (a : Reg) (v : Word) (code : Code) :
    accesses (mov line (.ofReg a) (.imm v) :: code) = accesses code := accesses_cons_make _ _ rfl

@[simp] theorem accesses_push (line : UInt32) (r : Reg) (code : Code) :
    accesses (push line (.ofReg r) :: code) = accesses code := accesses_cons_make _ _ rfl

@[simp] theorem accesses_pop (line : UInt32) (r : Reg) (code : Code) :
    accesses (pop line (.ofReg r) :: code) = accesses code := accesses_cons_make _ _ rfl

@[simp] theorem accesses_lea (line : UInt32) (r : Reg) (symbol : String) (code : Code) :
    accesses (lea line (.ofReg r) symbol :: code) = accesses code := accesses_cons_make _ _ rfl

@[simp] theorem accesses_jump (line : UInt32) (m : Mnemonic) (label : String) (code : Code) :
    accesses (jump line m label :: code) = accesses code := accesses_cons_make _ _ rfl

@[simp] theorem accesses_storeElement (line : UInt32) (code : Code) :
    accesses (storeElement line :: code) = accesses code := accesses_cons_make _ _ rfl

@[simp] theorem accesses_loadElement (line : UInt32) : accesses (loadElement line) = [] := rfl

@[simp] theorem accesses_rightOperand (line : UInt32) (leaf : Bool) (right : Code) :
    accesses (rightOperand line leaf right) = accesses right := by
  cases leaf <;> simp [rightOperand, rax, rbx]

@[simp] theorem accesses_applyOperator (line : UInt32) (op : BinaryOperator) :
    accesses (applyOperator line op) = [] := by
  cases op <;> rfl

@[simp] theorem accesses_applyCompare (line : UInt32) (op : CompareOperator) (id : Nat) :
    accesses (applyCompare line op id) = [] := rfl

@[simp] theorem accesses_callPushed (line : UInt32) (callee : String) (count : Nat) :
    accesses (callPushed line callee count) = [] := by
  unfold callPushed
  split <;> rfl

theorem accesses_popWords (line : UInt32) {word : String} (hword : word ∈ numberedWords)
    (id n : Nat) : accesses (popWords line (numbered word id) n) = [] := by
  induction n with
  | zero => rfl
  | succ n ih =>
      rw [popWords, rax, accesses_pop, mov, accesses_cons_make _ _ ?_, ih]
      simp [Operand.isVariable_region hword]

/-- Literals are filled apart from the variables. -/
theorem accesses_fillRegion (line : UInt32) {word : String} (hword : word ∈ numberedWords)
    (id count staged : Nat) : accesses (fillRegion line (numbered word id) count staged) = [] := by
  have hlength : accesses [mov line (.global (numbered word id) 0) rax] = [] :=
    accesses_cons_make _ _ (by simp [Operand.isVariable_region hword, rax])
  rw [fillRegion, rax, accesses_mov_imm, ← List.singleton_append, accesses_append,
    accesses_append, accesses_popWords line hword]
  simpa [rax] using hlength

@[simp] theorem accesses_epilogue (line : UInt32) : accesses (epilogue line) = [] := rfl

@[simp] theorem accesses_branchIfZero (line : UInt32) (label : String) :
    accesses (branchIfZero line label) = [] := rfl

@[simp] theorem accesses_conditional (line : UInt32) (id : Nat) (test body orelse : Code) :
    accesses (conditional line id test body orelse) =
      accesses test ++ (accesses body ++ accesses orelse) := by
  simp [conditional]

@[simp] theorem accesses_loop (line : UInt32) (id : Nat) (test body : Code) :
    accesses (loop line id test body) = accesses test ++ accesses body := by
  simp [loop]

theorem accesses_functionCode (fn : FunctionDef) (slots : Nat) (body : Code) :
    accesses (functionCode fn slots body) = accesses body := by
  have hreserve : accesses (reserve fn.line slots) = [] := by
    unfold reserve
    split <;> rfl
  simp [functionCode, hreserve, prologue, fallthrough, rax, rbp, rsp]

end Emit

namespace Reference

/-- Where a variable lives, when `place` gives the displacements of the local ones. -/
def storage (place : String → Word) (r : Reference) : Operand :=
  if r.isLocal then .frameSlot (place r.id) else .global (globalSymbol r.id) 0

/-- The one instruction that a use of a variable is lowered to. -/
def lowered (place : String → Word) (r : Reference) : Instruction :=
  if r.isStore then Emit.mov r.line (r.storage place) Emit.rax
  else Emit.mov r.line Emit.rax (r.storage place)

end Reference

/-- The instructions that the uses of variables among some mentions are lowered to. -/
def Mention.lowered (place : String → Word) (scope : List String) (ms : List Mention) : Code :=
  (references scope ms).map (Reference.lowered place)

theorem Mention.lowered_append (place : String → Word) (scope : List String) (a b : List Mention) :
    lowered place scope (a ++ b) = lowered place scope a ++ lowered place (declared scope a) b := by
  rw [lowered, references_append, List.map_append]
  rfl

theorem Scope.mem_locals_of_displacement? {s : Scope} {id : String} {d : Word}
    (h : s.displacement? id = some d) : id ∈ s.locals := by
  by_contra hmem
  rw [displacement?_eq_none_iff.mpr hmem] at h
  cases h

/-- The displacements given are those of the scope. -/
def Scope.Places (s : Scope) (place : String → Word) : Prop :=
  ∀ id d, s.displacement? id = some d → place id = d

/-- Code that does what the mentions say, from one scope to the next: it declares the same names,
and it touches the variables that they use. Only locals are stored to. -/
structure Traced (place : String → Word) (s : Scope) (ms : List Mention) (code : Code)
    (s' : Scope) : Prop where
  locals : s'.locals = Mention.declared s.locals ms
  accesses : s'.Places place → code.accesses = Mention.lowered place s.locals ms
  stored : ∀ r ∈ Mention.references s.locals ms, r.isStore = true → r.isLocal = true
  earlier : s'.Places place → s.Places place

namespace Traced

open Mention

variable {place : String → Word} {s s₁ s₂ : Scope} {ms ms' : List Mention} {a b : Code}

theorem quiet (hcode : a.accesses = []) : Traced place s [] a s :=
  ⟨rfl, fun _ => hcode, by simp [references], id⟩

theorem append (ha : Traced place s ms a s₁) (hb : Traced place s₁ ms' b s₂) :
    Traced place s (ms ++ ms') (a ++ b) s₂ where
  locals := by rw [hb.locals, ha.locals, declared_append]
  accesses := by
    intro hplaces
    rw [Code.accesses_append, ha.accesses (hb.earlier hplaces), hb.accesses hplaces, ha.locals,
      lowered_append]
  stored := by
    intro r hr
    rw [references_append, List.mem_append, ← ha.locals] at hr
    exact hr.elim (ha.stored r) (hb.stored r)
  earlier := fun hplaces => ha.earlier (hb.earlier hplaces)

theorem of_accesses (h : Traced place s ms a s₁) (hcode : b.accesses = a.accesses) :
    Traced place s ms b s₁ :=
  ⟨h.locals, fun hplaces => hcode.trans (h.accesses hplaces), h.stored, h.earlier⟩

theorem builtin {id : String} {v : Word} (hid : builtinConstant? id = some v) (line : UInt32)
    (hcode : a.accesses = []) : Traced place s [.load line id] a s := by
  refine ⟨rfl, fun _ => ?_, by simp [references, use?, hid], fun hplaces => hplaces⟩
  simp [hcode, lowered, references, use?, hid]

theorem load_slot {id : String} {d : Word} (hid : builtinConstant? id = none)
    (hslot : s.displacement? id = some d) (line : UInt32) :
    Traced place s [.load line id] [Emit.mov line Emit.rax (.frameSlot d)] s := by
  have hlocal : id ∈ s.locals := Scope.mem_locals_of_displacement? hslot
  refine ⟨rfl, fun hplaces => ?_, by simp [references, use?, hid], fun hplaces => hplaces⟩
  rw [Emit.accesses_load rfl]
  simp [lowered, references, use?, hid, Reference.lowered, Reference.storage, hlocal,
    hplaces id d hslot]

theorem load_global {id : String} (hid : builtinConstant? id = none)
    (hslot : s.displacement? id = none) (line : UInt32) :
    Traced place s [.load line id] [Emit.mov line Emit.rax (.global (globalSymbol id) 0)] s := by
  have hlocal : id ∉ s.locals := Scope.displacement?_eq_none_iff.mp hslot
  refine ⟨rfl, fun _ => ?_, by simp [references, use?, hid], fun hplaces => hplaces⟩
  rw [Emit.accesses_load (Operand.isVariable_global id 0)]
  simp [lowered, references, use?, hid, Reference.lowered, Reference.storage, hlocal]

theorem store_slot {id : String} {d : Word} (hslot : s.displacement? id = some d) (line : UInt32) :
    Traced place s [.store line id] [Emit.mov line (.frameSlot d) Emit.rax] s := by
  have hlocal : id ∈ s.locals := Scope.mem_locals_of_displacement? hslot
  refine ⟨rfl, fun hplaces => ?_, by simp [references, use?, hlocal], fun hplaces => hplaces⟩
  rw [Emit.accesses_store rfl]
  simp [lowered, references, use?, Reference.lowered, Reference.storage, hlocal,
    hplaces id d hslot]

theorem declare (s : Scope) (id : String) :
    Traced place s [.declare id] [] (s.declareLocal id) where
  locals := Scope.declareLocal_locals s id
  accesses := fun _ => rfl
  stored := by simp [references, use?]
  earlier := by
    intro hplaces id' d hslot
    refine hplaces id' d ?_
    unfold Scope.declareLocal
    split
    · exact hslot
    · rw [Scope.displacement?, List.lookup_append, ← Scope.displacement?, hslot]
      rfl

theorem declarations (st : LoweringState) (ts : List Tree) :
    Traced place st.scope (Tree.declarations ts) [] (st.declareTargets ts).scope := by
  fun_induction LoweringState.declareTargets st ts with
  | case1 => exact quiet rfl
  | case2 st line id rest ih => exact (declare st.scope id).append ih
  | case3 st t rest hname ih =>
      rw [Tree.declarations]
      · exact ih
      · exact hname

end Traced

def Phrase.mentions : Phrase → List Mention
  | .expression t | .statement t => t.mentions
  | .pushes _ ts | .block ts => (Tree.mentionsEach ts).flatten
  | .pairs _ keys values => Mention.inTurn (Tree.mentionsEach keys) (Tree.mentionsEach values)
  | .target t => Tree.stores [t]
  | .targets ts => Tree.stores ts

theorem Tree.stores_cons (t : Tree) (ts : List Tree) :
    stores (t :: ts) = stores [t] ++ stores ts := by
  cases t <;> simp [stores]

open Emit Code in
/-- Lowered code declares and uses names as its text does. -/
theorem Lowers.traced {env : LoweringEnv} {phrase : Phrase} {st st' : LoweringState} {code : Code}
    (h : Lowers env phrase st code st') (place : String → Word) :
    Traced place st.scope phrase.mentions code st'.scope := by
  induction h with
  | constant | string | bareReturn => exact .quiet rfl
  | pushesNil | pairsNil | targetsNil | blockNil => exact .quiet rfl
  | builtin hbuiltin => exact .builtin hbuiltin _ rfl
  | slot hbuiltin hslot => exact .load_slot hbuiltin hslot _
  | global hbuiltin hslot => exact .load_global hbuiltin hslot _
  | binary _ _ hleft hright => exact (hleft.append hright).of_accesses (by simp)
  | compare _ _ hleft hright => exact (hleft.append hright).of_accesses (by simp)
  | call _ _ hargs => exact hargs.of_accesses (by simp)
  | externalCall _ _ _ hargs => exact hargs.of_accesses (by simp)
  | list _ helements =>
      have hword : "list" ∈ numberedWords := by decide
      exact helements.of_accesses (by simp [accesses_fillRegion _ hword])
  | dict _ _ hpairs =>
      have hword : "dict" ∈ numberedWords := by decide
      exact hpairs.of_accesses (by simp [accesses_fillRegion _ hword])
  | subscript _ _ hvalue hindex => exact (hvalue.append hindex).of_accesses (by simp)
  | pushesCons _ _ hhead htail => exact (hhead.append htail).of_accesses (by simp [rax])
  | pairsCons _ _ _ hkey hvalue htail =>
      exact (hkey.append (hvalue.append htail)).of_accesses (by simp [rax])
  | storeName hslot => exact .store_slot hslot _
  | storeElement _ _ hvalue hindex =>
      rw [Phrase.mentions, Tree.stores, Tree.stores, List.append_nil]
      · exact (hvalue.append hindex).of_accesses (by simp [rax, rcx])
      · simp
  | targetsCons _ _ hhead htail =>
      rw [Phrase.mentions, Tree.stores_cons]
      exact hhead.append htail
  | assign _ _ _ _ hvalue hstores =>
      exact (Traced.declarations _ _).append (hvalue.append hstores)
  | augElement _ _ _ hbase hindex hvalue =>
      exact ((hbase.append hindex).append hvalue).of_accesses (by simp [rax, rbx, rcx])
  | augName _ _ _ _ hname hvalue hstore =>
      exact ((Traced.declare _ _).append (hname.append (hvalue.append hstore))).of_accesses
        (by simp)
  | ret _ hvalue => exact hvalue.of_accesses (by simp)
  | expr _ hvalue | bare _ hvalue => exact hvalue
  | ifElse _ _ _ htest hbody horelse =>
      exact (htest.append (hbody.append horelse)).of_accesses (by simp)
  | whileLoop _ _ htest hbody => exact (htest.append hbody).of_accesses (by simp)
  | blockCons _ _ hhead htail => exact hhead.append htail

namespace LoweredAs

variable {env : LoweringEnv} {fn : FunctionDef} {unit : CompiledUnit} {entry : Scope} {body : Code}
  {final : LoweringState}

theorem traced (h : LoweredAs env fn unit entry body final) (place : String → Word) :
    Traced place entry fn.mentions body final.scope := h.lowers.traced place

theorem entry_locals (h : LoweredAs env fn unit entry body final) : entry.locals = fn.params :=
  (Scope.declareParams_framed h.params).2

theorem locals_eq (h : LoweredAs env fn unit entry body final) :
    final.scope.locals = fn.locals := by
  rw [(h.traced fun _ => 0).locals, h.entry_locals]
  rfl

theorem isLocal_of_isStore (h : LoweredAs env fn unit entry body final) {r : Reference}
    (hr : r ∈ fn.references) (hstore : r.isStore = true) : r.isLocal = true := by
  apply (h.traced fun _ => 0).stored r
  · rw [h.entry_locals]
    exact hr
  · exact hstore

/-- The code of a function touches its variables as the text uses them. -/
theorem accesses_eq (h : LoweredAs env fn unit entry body final) {place : String → Word}
    (hplaces : final.scope.Places place) :
    unit.code.accesses = fn.references.map (Reference.lowered place) := by
  rw [h.unit_eq, Emit.accesses_functionCode, (h.traced place).accesses hplaces, h.entry_locals]
  rfl

end LoweredAs

/-- The unit at the position of a function is what the function is lowered to. -/
theorem Source.compile_loweredAs {source : Source} {jobs : Nat} {p : Program}
    (hcompile : source.compile jobs = .ok p) {u : Nat} {fn : FunctionDef} {unit : CompiledUnit}
    (hfn : source[u]? = some (some fn)) (hunit : p.units[u]? = some unit) :
    ∃ fns env entry body final, Links fns (Compile.inOrderLabels fns) p ∧
      LoweredAs env fn unit entry body final := by
  obtain ⟨fns, rfl, hlinks⟩ := Source.compile_links hcompile
  have hfn' : fns[u]? = some fn := by simpa using hfn
  obtain ⟨entry, body, final, hlowered⟩ := lower_eq_ok (hlinks.lowered hfn' hunit)
  exact ⟨fns, _, entry, body, final, hlinks, hlowered⟩

end Arbor
