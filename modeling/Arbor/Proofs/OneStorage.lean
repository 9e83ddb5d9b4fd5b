import Mathlib.Tactic
import Arbor.Proofs.FrameLayout

/-!
One variable, one storage. A name is global until the function declares it and local
from then on, and a local keeps its slot, so a variable has at most two places. It has
two exactly if the function reads it before the assignment that declares it.
-/

namespace Arbor

/-- The function reads a name that it declares only later. -/
def FunctionDef.ReadsAhead (fn : FunctionDef) (id : String) : Prop :=
  id ∉ fn.params ∧ ∃ before line after, fn.mentions = before ++ .load line id :: after ∧
    .declare id ∉ before ∧ .declare id ∈ after

theorem Tree.exists_store_of_declaration {targets : List Tree} {id : String}
    (h : .declare id ∈ declarations targets) : ∃ line, .store line id ∈ stores targets := by
  fun_induction declarations targets with
  | case1 => cases h
  | case2 line id' rest ih =>
      rw [stores]
      rcases List.mem_cons.mp h with heq | hrest
      · cases heq
        exact ⟨line, List.mem_cons_self⟩
      · obtain ⟨line', hline⟩ := ih hrest
        exact ⟨line', List.mem_cons_of_mem _ hline⟩
  | case3 t rest hname ih =>
      obtain ⟨line, hline⟩ := ih h
      rw [stores_cons]
      exact ⟨line, List.mem_append_right _ hline⟩

/-- What is declared is also stored to. -/
def Mention.Settled (ms : List Mention) : Prop :=
  ∀ id, .declare id ∈ ms → ∃ line, .store line id ∈ ms

namespace Mention.Settled

variable {a b : List Mention}

theorem append (ha : Settled a) (hb : Settled b) : Settled (a ++ b) := by
  intro id hid
  rcases List.mem_append.mp hid with hid | hid
  · obtain ⟨line, hline⟩ := ha id hid
    exact ⟨line, List.mem_append_left b hline⟩
  · obtain ⟨line, hline⟩ := hb id hid
    exact ⟨line, List.mem_append_right a hline⟩

theorem nil : Settled [] := by
  intro id hid
  cases hid

theorem load (line : UInt32) (id : String) : Settled [.load line id] := by
  intro id' hid
  simp at hid

theorem store (line : UInt32) (id : String) : Settled [.store line id] := by
  intro id' hid
  simp at hid

/-- The name targets of an assignment are stored to after its value. -/
theorem assign {targets : List Tree} (hb : Settled b) (hstores : Settled (Tree.stores targets)) :
    Settled (Tree.declarations targets ++ (b ++ Tree.stores targets)) := by
  intro id hid
  rcases List.mem_append.mp hid with hid | hid
  · obtain ⟨line, hline⟩ := Tree.exists_store_of_declaration hid
    exact ⟨line, by simp [hline]⟩
  · obtain ⟨line, hline⟩ := (hb.append hstores) id hid
    exact ⟨line, List.mem_append_right _ hline⟩

end Mention.Settled

theorem Lowers.mentions_settled {env : LoweringEnv} {phrase : Phrase} {st st' : LoweringState}
    {code : Code} (h : Lowers env phrase st code st') : Mention.Settled phrase.mentions := by
  induction h with
  | constant | string | bareReturn | pushesNil | pairsNil | targetsNil | blockNil => exact .nil
  | builtin | slot | global => exact .load _ _
  | storeName => exact .store _ _
  | binary _ _ hleft hright | compare _ _ hleft hright | subscript _ _ hleft hright =>
      exact hleft.append hright
  | call _ _ hargs | externalCall _ _ _ hargs | list _ hargs | dict _ _ hargs => exact hargs
  | pushesCons _ _ hhead htail | blockCons _ _ hhead htail => exact hhead.append htail
  | pairsCons _ _ _ hkey hvalue htail => exact hkey.append (hvalue.append htail)
  | storeElement _ _ hvalue hindex =>
      rw [Phrase.mentions, Tree.stores, Tree.stores, List.append_nil]
      · exact hvalue.append hindex
      · simp
  | targetsCons _ _ hhead htail =>
      rw [Phrase.mentions, Tree.stores_cons]
      exact hhead.append htail
  | assign _ _ _ _ hvalue hstores => exact .assign hvalue hstores
  | augElement _ _ _ hbase hindex hvalue => exact (hbase.append hindex).append hvalue
  | @augName _ line id _ _ _ _ _ _ _ _ _ _ _ _ _ _ hvalue _ =>
      have hvalue' := (Mention.Settled.load line id).append hvalue
      exact @Mention.Settled.assign _ [.name line id] hvalue' (.store line id)
  | ret _ hvalue | expr _ hvalue | bare _ hvalue => exact hvalue
  | ifElse _ _ _ htest hbody horelse => exact htest.append (hbody.append horelse)
  | whileLoop _ _ htest hbody => exact htest.append hbody

namespace LoweredAs

variable {env : LoweringEnv} {fn : FunctionDef} {unit : CompiledUnit} {entry : Scope} {body : Code}
  {final : LoweringState}

/-- A name that is read ahead of its declaration is used as a global and as a local. -/
theorem exists_references_of_readsAhead (h : LoweredAs env fn unit entry body final) {id : String}
    (hid : builtinConstant? id = none) (hahead : fn.ReadsAhead id) :
    ∃ r ∈ fn.references, ∃ r' ∈ fn.references,
      r.id = id ∧ r'.id = id ∧ r.isLocal = false ∧ r'.isLocal = true := by
  obtain ⟨hparam, before, line, after, hmentions, hbefore, hafter⟩ := hahead
  have hundeclared : id ∉ Mention.declared fn.params before := by
    rw [Mention.mem_declared_iff, not_or]
    exact ⟨hparam, hbefore⟩
  have hread : ⟨id, line, false, false⟩ ∈ fn.references := by
    refine Mention.mem_references_iff.mpr ⟨before, _, after, hmentions, ?_⟩
    simp [Mention.use?, hid, hundeclared]
  have hdeclare : .declare id ∈ fn.mentions := by
    rw [hmentions]
    exact List.mem_append_right _ (List.mem_cons_of_mem _ hafter)
  obtain ⟨line', hstore⟩ := h.lowers.mentions_settled id hdeclare
  obtain ⟨before', after', hsplit⟩ := List.append_of_mem hstore
  have hwrite : ⟨id, line', true, decide (id ∈ Mention.declared fn.params before')⟩ ∈
      fn.references := Mention.mem_references_iff.mpr ⟨before', _, after', hsplit, rfl⟩
  exact ⟨_, hread, _, hwrite, rfl, rfl, rfl, h.isLocal_of_isStore hwrite rfl⟩

/-- A use as a global before a use as a local is a read ahead of the declaration. -/
theorem readsAhead_of_references (h : LoweredAs env fn unit entry body final) {r r' : Reference}
    (hr : r ∈ fn.references) (hr' : r' ∈ fn.references) (hid : r'.id = r.id)
    (hglobal : r.isLocal = false) (hlocal : r'.isLocal = true) : fn.ReadsAhead r.id := by
  obtain ⟨before, m, after, hmentions, huse⟩ := Mention.mem_references_iff.mp hr
  obtain ⟨before', m', after', hmentions', huse'⟩ := Mention.mem_references_iff.mp hr'
  have hundeclared := (Mention.use?_isLocal_iff huse).not.mp (by simp [hglobal])
  rw [not_or] at hundeclared
  obtain ⟨hparam, hbefore⟩ := hundeclared
  have hdeclared : .declare r.id ∈ before' := by
    have := (Mention.use?_isLocal_iff huse').mp hlocal
    rw [hid] at this
    exact this.resolve_left hparam
  have hload : ∃ line, m = .load line r.id := by
    cases m with
    | declare id => cases huse
    | load line id =>
        simp only [Mention.use?] at huse
        split at huse
        · cases huse
        · cases huse
          exact ⟨line, rfl⟩
    | store line id =>
        cases huse
        have := h.isLocal_of_isStore hr rfl
        rw [hglobal] at this
        cases this
  obtain ⟨line, rfl⟩ := hload
  refine ⟨hparam, before, line, after, hmentions, hbefore, ?_⟩
  have hmem : Mention.declare r.id ∈ fn.mentions := by
    rw [hmentions']
    exact List.mem_append_left _ hdeclared
  rw [hmentions, List.mem_append, List.mem_cons] at hmem
  rcases hmem with hmem | hmem | hmem
  · exact absurd hmem hbefore
  · cases hmem
  · exact hmem

end LoweredAs

/-- One variable, one storage. The instructions of a compiled function that touch variables are
the reads and assignments of its text in order. A use of a name goes to the one word of the
global until the function declares the name, and to the name's one frame slot from then on, so
all uses of a name go to one storage unless the function reads it ahead of its declaration. -/
theorem compile_oneStorage {source : Source} {jobs : Nat} {p : Program}
    (hcompile : source.compile jobs = .ok p) {u : Nat} {fn : FunctionDef} {unit : CompiledUnit}
    (hfn : source[u]? = some (some fn)) (hunit : p.units[u]? = some unit) :
    unit.code.accesses = fn.references.map (Reference.lowered fn.place) ∧
      (∀ before m after r, fn.mentions = before ++ m :: after →
        m.use? (Mention.declared fn.params before) = some r →
        r.storage fn.place = if r.id ∈ fn.params ∨ .declare r.id ∈ before
          then .frameSlot (fn.place r.id) else .global (globalSymbol r.id) 0) ∧
      ∀ id, builtinConstant? id = none →
        ((∃ storage, ∀ r ∈ fn.references, r.id = id → r.storage fn.place = storage) ↔
          ¬fn.ReadsAhead id) := by
  obtain ⟨-, env, entry, body, final, -, hlowered⟩ :=
    Source.compile_loweredAs hcompile hfn hunit
  refine ⟨hlowered.accesses_eq hlowered.places, ?_, ?_⟩
  · intro before m after r _ huse
    simp only [Reference.storage, Mention.use?_isLocal_iff huse]
  · intro id hid
    constructor
    · rintro ⟨storage, hstorage⟩ hahead
      obtain ⟨r, hr, r', hr', hrid, hrid', hglobal, hlocal⟩ :=
        hlowered.exists_references_of_readsAhead hid hahead
      have heq := (hstorage r hr hrid).trans (hstorage r' hr' hrid').symm
      simp [Reference.storage, hglobal, hlocal, Operand.global, Operand.frameSlot] at heq
    · intro hahead
      by_cases hlocal : ∃ r ∈ fn.references, r.id = id ∧ r.isLocal = true
      · obtain ⟨r', hr', rfl, hlocal⟩ := hlocal
        refine ⟨.frameSlot (fn.place r'.id), fun r hr hid => ?_⟩
        cases hr_local : r.isLocal with
        | false =>
            have := hlowered.readsAhead_of_references hr hr' hid.symm hr_local hlocal
            exact absurd (hid ▸ this) hahead
        | true => simp [Reference.storage, hr_local, hid]
      · refine ⟨.global (globalSymbol id) 0, fun r hr hid => ?_⟩
        have hr_global : r.isLocal = false :=
          Bool.eq_false_iff.mpr fun hr_local => hlocal ⟨r, hr, hid, hr_local⟩
        simp [Reference.storage, hr_global, hid]

/-- Counts down by a rate that the loop sets only after it has read it. -/
def payout : FunctionDef where
  name := "payout"
  params := ["total"]
  body := [
    .whileLoop 2 (.compare 2 .greater (.name 2 "total") (.name 2 "floor")) [
      .augAssign 3 (.name 3 "total") .sub (.name 3 "rate"),
      .assign 4 [.name 4 "rate"] (.constant 4 (.int 1))],
    .ret 5 (.name 5 "total")]

def payoutProgram : Program := (Source.compile [some payout] 1).toOption.getD {}

def payoutUnit : CompiledUnit := payoutProgram.units.headD { name := "" }

theorem payout_oneStorage :
    Source.compile [some payout] 1 = .ok payoutProgram ∧
    payoutProgram.units[0]? = some payoutUnit ∧
    payoutUnit.code.accesses = payout.references.map (Reference.lowered payout.place) ∧
    (∀ id ∈ ["total", "floor"],
      ∃ storage, ∀ r ∈ payout.references, r.id = id → r.storage payout.place = storage) ∧
    ¬∃ storage, ∀ r ∈ payout.references, r.id = "rate" → r.storage payout.place = storage := by
  have hcompile : Source.compile [some payout] 1 = .ok payoutProgram := rfl
  have hfn : ([some payout] : Source)[0]? = some (some payout) := rfl
  have hunit : payoutProgram.units[0]? = some payoutUnit := rfl
  obtain ⟨haccesses, -, hone⟩ := compile_oneStorage hcompile hfn hunit
  refine ⟨hcompile, hunit, haccesses, ?_, ?_⟩
  · intro id hid
    have hbuiltin : ∀ id ∈ ["total", "floor"], builtinConstant? id = none := by decide
    refine (hone id (hbuiltin id hid)).mpr ?_
    rintro ⟨hparam, before, line, after, hmentions, -, hafter⟩
    have hdeclared : .declare id ∈ payout.mentions := by
      rw [hmentions]
      exact List.mem_append_right _ (List.mem_cons_of_mem _ hafter)
    have hundeclared : ∀ id ∈ ["total", "floor"],
        id ∈ payout.params ∨ .declare id ∉ payout.mentions := by decide
    exact (hundeclared id hid).elim hparam fun h => h hdeclared
  · have hahead : payout.ReadsAhead "rate" :=
      ⟨by decide, payout.mentions.take 4, 3, payout.mentions.drop 5, by decide, by decide,
        by decide⟩
    exact fun h => (hone "rate" (by decide)).mp h hahead

/-- Reads the global `x` and then assigns to a local of the same name. -/
def eclipse : FunctionDef where
  name := "eclipse"
  params := []
  body := [
    .expr 2 (.name 2 "x"),
    .assign 3 [.name 3 "x"] (.constant 3 (.int 5)),
    .ret 4 (.name 4 "x")]

def eclipseProgram : Program := (Source.compile [some eclipse] 1).toOption.getD {}

def eclipseUnit : CompiledUnit := eclipseProgram.units.headD { name := "" }

/-- One name can have two storages: nothing is touched by all the uses of `x`. -/
theorem eclipse_two_storages :
    Source.compile [some eclipse] 1 = .ok eclipseProgram ∧
    eclipseProgram.units[0]? = some eclipseUnit ∧ builtinConstant? "x" = none ∧
    (∀ m ∈ eclipse.mentions, m ∈ [.load 2 "x", .declare "x", .store 3 "x", .load 4 "x"]) ∧
    eclipseUnit.code.accesses.map (·.operands) =
      [[Emit.rax, .global (globalSymbol "x") 0], [.frameSlot (-8), Emit.rax],
        [Emit.rax, .frameSlot (-8)]] ∧
    ¬∃ storage : Operand, storage.isVariable = true ∧
      ∀ i ∈ eclipseUnit.code.accesses, storage ∈ i.operands := by
  have haccesses : eclipseUnit.code.accesses.map (·.operands) =
      [[Emit.rax, .global (globalSymbol "x") 0], [.frameSlot (-8), Emit.rax],
        [Emit.rax, .frameSlot (-8)]] := by decide
  refine ⟨rfl, rfl, by decide, by decide, haccesses, ?_⟩
  rintro ⟨storage, hvariable, hall⟩
  have hoperands : ∀ os ∈ eclipseUnit.code.accesses.map (·.operands), storage ∈ os := by
    intro os hos
    obtain ⟨i, hi, rfl⟩ := List.mem_map.mp hos
    exact hall i hi
  rw [haccesses] at hoperands
  simp only [List.mem_cons, List.not_mem_nil, or_false, forall_eq_or_imp, forall_eq] at hoperands
  obtain ⟨rfl | rfl, h, -⟩ := hoperands
  · cases hvariable
  · rcases h with h | h <;> cases h

end Arbor
