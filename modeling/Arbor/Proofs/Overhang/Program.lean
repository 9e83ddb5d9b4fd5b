import Mathlib.Tactic
import Arbor.Proofs.Acceptance
import Arbor.Proofs.DeadStores
import Arbor.Proofs.Frames
import Arbor.Proofs.Watched

/-!
A function whose frame grows with a list of names. It calls itself on one less until it
comes to zero; the activation on zero stores to a local that nothing reads and returns a
global. The code it is compiled to is given for every list of names, and so is what the
removal of dead stores leaves of it.
-/

namespace Arbor

open Emit

/-- New names are declared in order. -/
theorem declareNames_names {scope ids : List String} {line : UInt32} (h : (scope ++ ids).Nodup) :
    declareNames scope (ids.map (.name line)) = scope ++ ids := by
  induction ids generalizing scope with
  | nil => simp [declareNames]
  | cons id rest ih =>
      have hnew : id ∉ scope := by
        intro hmem
        exact (List.nodup_append.mp h).2.2 id hmem id (by simp) rfl
      have happend : scope ++ id :: rest = scope ++ [id] ++ rest := by simp
      rw [happend] at h
      rw [List.map_cons, declareNames, declareName, if_neg hnew, ih h, happend]

namespace Lowers

variable {env : LoweringEnv} {st st' : LoweringState} {c : Code} {line : UInt32} {id : String}

theorem local_name (h : Lowers env (.expression (.name line id)) st c st') {d : Word}
    (hbuiltin : builtinConstant? id = none) (hslot : st.scope.displacement? id = some d) :
    c = [mov line rax (.frameSlot d)] ∧ st' = st := by
  cases h with
  | builtin hb => cases hbuiltin.symm.trans hb
  | slot _ hs =>
      obtain rfl := Option.some.inj (hslot.symm.trans hs)
      exact ⟨rfl, rfl⟩
  | global _ hs => cases hslot.symm.trans hs

theorem global_name (h : Lowers env (.expression (.name line id)) st c st')
    (hbuiltin : builtinConstant? id = none) (hslot : st.scope.displacement? id = none) :
    c = [mov line rax (.global (globalSymbol id) 0)] ∧ st' = st.promote id := by
  cases h with
  | builtin hb => cases hbuiltin.symm.trans hb
  | slot _ hs => cases hslot.symm.trans hs
  | global => exact ⟨rfl, rfl⟩

theorem constant_int {v : Word} (h : Lowers env (.expression (.constant line (.int v))) st c st') :
    c = [mov line rax (.imm v)] ∧ st' = st := by
  cases h with
  | constant hword =>
      cases hword
      exact ⟨rfl, rfl⟩

theorem block_cons {t : Tree} {ts : List Tree} (h : Lowers env (.block (t :: ts)) st c st') :
    ∃ c₁ st₁ c₂, Lowers env (.statement t) st c₁ st₁ ∧ Lowers env (.block ts) st₁ c₂ st' ∧
      c = c₁ ++ c₂ := by
  cases h with
  | blockCons hhead htail => exact ⟨_, _, _, hhead, htail, rfl⟩

theorem assigned {targets : List Tree} {value : Tree}
    (h : Lowers env (.statement (.assign line targets value)) st c st') :
    ∃ c₁ st₁ c₂, Lowers env (.expression value) (st.declareTargets targets) c₁ st₁ ∧
      Lowers env (.targets targets) st₁ c₂ st' ∧ c = c₁ ++ c₂ := by
  cases h with
  | assign _ _ hvalue hstores => exact ⟨_, _, _, hvalue, hstores, rfl⟩
  | bare h => cases h

theorem returned {value : Tree} (h : Lowers env (.statement (.ret line value)) st c st')
    (hvalue : value ≠ .absent) :
    ∃ c', Lowers env (.expression value) st c' st' ∧ c = c' ++ epilogue line := by
  cases h with
  | bareReturn => exact absurd rfl hvalue
  | ret h => exact ⟨_, h, rfl⟩
  | bare h => cases h

/-- Targets that are names become one store each. -/
theorem names {ids : List String} (h : Lowers env (.targets (ids.map (.name line))) st c st') :
    ∃ ds : List Word, c = ds.map (fun d => mov line (.frameSlot d) rax) ∧ st' = st ∧
      ds.length = ids.length ∧ ∀ d ∈ ds, ∃ id ∈ ids, st.scope.displacement? id = some d := by
  induction ids generalizing c with
  | nil =>
      cases h
      exact ⟨[], rfl, rfl, rfl, by simp⟩
  | cons id rest ih =>
      cases h with
      | targetsCons hhead htail =>
          cases hhead with
          | storeName hslot =>
              obtain ⟨ds, rfl, rfl, hlength, hds⟩ := ih htail
              refine ⟨_ :: ds, rfl, rfl, congrArg (· + 1) hlength, List.forall_mem_cons.mpr ⟨?_, ?_⟩⟩
              · exact ⟨id, List.mem_cons_self, hslot⟩
              · intro d hd
                obtain ⟨id', hid, hslot'⟩ := hds d hd
                exact ⟨id', List.mem_cons_of_mem _ hid, hslot'⟩

end Lowers

namespace Plunge

/-- The call, with an assignment behind it that gives every spare name a slot. -/
def branch (spare : List String) : Tree :=
  .ifElse 2 (.name 2 "n") [
    .ret 3 (.call 3 "plunge" [.binary 3 .sub (.name 3 "n") (.constant 3 (.int 1))]),
    .assign 4 (spare.map (.name 4)) (.constant 4 (.int 0))] []

end Plunge

/-- Calls itself on one less until it comes to zero. The last activation stores to `x`, which
nothing reads, and returns a global. -/
def plunge (spare : List String) : FunctionDef where
  name := "plunge"
  params := ["n"]
  body := [Plunge.branch spare, .assign 5 [.name 5 "x"] (.constant 5 (.int 7)), .ret 6 (.name 6 "y")]

namespace Plunge

/-- Names other than those that the function uses. -/
structure Spare (spare : List String) : Prop where
  nonempty : spare ≠ []
  nodup : spare.Nodup
  free : ∀ id ∈ spare, id ∉ ["n", "x", "y", "True", "False", "None"]

theorem spare_numbered {count : Nat} (hcount : 0 < count) :
    Spare ((List.range count).map (numbered "spare")) where
  nonempty := by
    simpa using Nat.ne_of_gt hcount
  nodup := List.Nodup.map (fun _ _ heq => (numbered_inj heq).2) List.nodup_range
  free := by
    intro id hid hmem
    obtain ⟨k, -, rfl⟩ := List.mem_map.mp hid
    have hlong : 6 ≤ (numbered "spare" k).toList.length := by
      have hword : "spare".toList.length = 5 := by decide
      rw [numbered_toList, List.length_append, List.length_cons, hword]
      omega
    have hshort : ∀ id ∈ ["n", "x", "y", "True", "False", "None"], id.toList.length < 6 := by decide
    exact absurd (hshort _ hmem) (by omega)

/-- The code up to the branch that calls. -/
def opening (slots id : Nat) : Code :=
  [.labelled "plunge" 0, push 0 rbp, mov 0 rbp rsp,
    .make .sub [rsp, .imm (Int64.ofNat (8 * slots))] 0, mov 2 rax (.frameSlot 16),
    .make .test [rax, rax] 2, jump 2 .jz (numbered "else" id)]

def calling : Code :=
  [mov 3 rax (.frameSlot 16), mov 3 rbx rax, mov 3 rax (.imm 1), .make .xchg [rax, rbx] 3,
    .make .sub [rax, rbx] 3, push 3 rax, .make .call [.sym "plunge"] 3, .make .add [rsp, .imm 8] 3]

/-- The code of an activation that calls another one, from its entry to its return. -/
def descent (slots id : Nat) : Code := opening slots id ++ (calling ++ epilogue 3)

/-- The code behind that return: a store for every spare name. -/
def gone (ds : List Word) : Code :=
  mov 4 rax (.imm 0) :: ds.map fun d => mov 4 (.frameSlot d) rax

/-- The store to the last slot. -/
def last (slots : Nat) : Code := [mov 5 (.frameSlot (Scope.localDisplacement slots)) rax]

/-- The code from the load of the global on. -/
def landing : Code :=
  mov 6 rax (.global (globalSymbol "y") 0) :: (epilogue 6 ++ fallthrough 0)

def code (slots id : Nat) (gone last : Code) : Code :=
  descent slots id ++ (gone ++ jump 2 .jmp (numbered "end" id) ::
    .labelled (numbered "else" id) 2 :: .labelled (numbered "end" id) 2 ::
      mov 5 rax (.imm 7) :: (last ++ landing))

def program (slots id : Nat) (gone last : Code) : Program where
  units := [{ name := "plunge", params := 1, locals := slots + 1, slots := slots,
              code := code slots id gone last }]
  globals := ["y"]

section Compilation

variable {env : LoweringEnv} {spare : List String} {st st' : LoweringState} {c : Code}

theorem Spare.declares (h : Spare spare) :
    Tree.declaresAll ["n"] (plunge spare).body = "n" :: (spare ++ ["x"]) := by
  have hn : ("n" :: spare).Nodup := List.nodup_cons.mpr
    ⟨fun hmem => h.free _ hmem (by simp), h.nodup⟩
  have hx : "x" ∉ "n" :: spare := by
    intro hmem
    rcases List.mem_cons.mp hmem with heq | hmem
    · exact absurd heq (by decide)
    · exact h.free _ hmem (by simp)
  have hspare : declareNames ["n"] (spare.map (.name 4)) = "n" :: spare := declareNames_names hn
  simp only [plunge, branch, Tree.declaresAll, Tree.declares, hspare, declareNames, declareName,
    if_neg hx, List.cons_append]

/-- The scope at the end of the function. -/
structure Filled (spare : List String) (scope : Scope) : Prop extends scope.Framed 1 where
  locals_eq : scope.locals = "n" :: (spare ++ ["x"])

namespace Filled

variable {scope : Scope} (h : Filled spare scope)

include h

theorem slots_length : scope.slots.length = spare.length + 2 := by
  have hlength := congrArg List.length h.locals_eq
  simpa [Scope.locals] using hlength

theorem frameSlots_eq : scope.frameSlots = spare.length + 1 := by
  have hlength := h.length_eq
  rw [h.locals_eq, List.length_cons, List.length_append, List.length_singleton] at hlength
  omega

theorem displacement_last :
    scope.displacement? "x" = some (Scope.localDisplacement (spare.length + 1)) := by
  refine h.displacement?_eq_some_iff.mpr ⟨spare.length + 1, ?_, ?_⟩
  · rw [h.locals_eq]
    simp
  · rw [slotDisplacement, if_neg (by omega), Nat.add_sub_cancel]

theorem global_not_mem (hspare : Spare spare) : "y" ∉ scope.locals := by
  rw [h.locals_eq]
  simpa using fun hmem => hspare.free _ hmem (by simp)

/-- A spare name has a slot below the frame base. -/
theorem displacement_spare (hspare : Spare spare) {id : String} (hid : id ∈ spare) {d : Word}
    (hd : scope.displacement? id = some d) :
    ∃ k, k ≤ spare.length + 1 ∧ d = Scope.localDisplacement k := by
  obtain ⟨j, hj, rfl⟩ := h.displacement?_eq_some_iff.mp hd
  rw [h.locals_eq] at hj
  have hlt := (List.getElem?_eq_some_iff.mp hj).1
  rw [List.length_cons, List.length_append, List.length_singleton] at hlt
  have hpos : j ≠ 0 := by
    rintro rfl
    obtain rfl := Option.some.inj hj
    exact hspare.free _ hid (by simp)
  refine ⟨j - 1 + 1, by omega, ?_⟩
  rw [slotDisplacement, if_neg (by omega)]

end Filled

/-- What the call is lowered to. -/
theorem call_eq (harity : env.arity? "plunge" = some 1)
    (hslot : st.scope.displacement? "n" = some 16)
    (h : Lowers env (.expression (.call 3 "plunge"
      [.binary 3 .sub (.name 3 "n") (.constant 3 (.int 1))])) st c st') : c = calling ∧ st' = st := by
  cases h with
  | externalCall hnone => cases harity.symm.trans hnone
  | call _ hargs =>
      cases hargs with
      | pushesCons hbinary hargs =>
          cases hargs
          cases hbinary with
          | binary hleft hright =>
              obtain ⟨rfl, rfl⟩ := hleft.local_name rfl hslot
              obtain ⟨rfl, rfl⟩ := hright.constant_int
              exact ⟨rfl, rfl⟩

/-- What the branch that calls is lowered to. -/
theorem branch_eq (harity : env.arity? "plunge" = some 1)
    (hslot : st.scope.displacement? "n" = some 16)
    (h : Lowers env (.statement (branch spare)) st c st') :
    ∃ ds : List Word, st' = st.draw.declareTargets (spare.map (.name 4)) ∧
      ds.length = spare.length ∧
      (∀ d ∈ ds, ∃ id ∈ spare, st'.scope.displacement? id = some d) ∧
      c = conditional 2 (env.label st.drawn) [mov 2 rax (.frameSlot 16)]
        (calling ++ epilogue 3 ++ gone ds) [] := by
  cases h with
  | bare h => cases h
  | ifElse htest hbody helse =>
      cases helse
      have hslot' : st.draw.scope.displacement? "n" = some 16 := hslot
      obtain ⟨rfl, rfl⟩ := htest.local_name rfl hslot'
      obtain ⟨c₁, st₁, c₂, hret, hrest, rfl⟩ := hbody.block_cons
      obtain ⟨c₃, st₃, c₄, hassign, hnil, rfl⟩ := hrest.block_cons
      cases hnil
      obtain ⟨c₅, hcall, rfl⟩ := hret.returned (by simp)
      obtain ⟨rfl, rfl⟩ := call_eq harity hslot' hcall
      obtain ⟨c₆, st₆, c₇, hvalue, hstores, rfl⟩ := hassign.assigned
      obtain ⟨rfl, rfl⟩ := hvalue.constant_int
      obtain ⟨ds, rfl, rfl, hlength, hds⟩ := hstores.names
      exact ⟨ds, rfl, hlength, hds, by rw [List.append_nil]; rfl⟩

theorem functionCode_eq {slots : Nat} (hslots : slots ≠ 0) (id : Nat) (ds : List Word) :
    functionCode (plunge spare) slots
      (conditional 2 id [mov 2 rax (.frameSlot 16)] (calling ++ epilogue 3 ++ gone ds) [] ++
        (mov 5 rax (.imm 7) :: last slots ++
          (mov 6 rax (.global (globalSymbol "y") 0) :: epilogue 6))) =
      code slots id (gone ds) (last slots) := by
  simp [plunge, functionCode, prologue, reserve, hslots, conditional, branchIfZero, code, descent,
    opening, landing]

/-- What the function is lowered to. -/
theorem lowered_eq {unit : CompiledUnit} {entry : Scope} {body : Code} {final : LoweringState}
    (hspare : Spare spare) (harity : env.arity? "plunge" = some 1)
    (h : LoweredAs env (plunge spare) unit entry body final) :
    ∃ ds : List Word, ds.length = spare.length ∧
      (∀ d ∈ ds, ∃ k, k ≤ spare.length + 1 ∧ d = Scope.localDisplacement k) ∧
      final.promoted = ["y"] ∧
      unit = { name := "plunge", params := 1, locals := spare.length + 2,
               slots := spare.length + 1,
               code := code (spare.length + 1) (env.label 0) (gone ds) (last (spare.length + 1)) } := by
  obtain ⟨hframed, hentry⟩ := Scope.declareParams_framed h.params
  have hfirst : slotDisplacement 1 0 = 16 := by decide
  have hn : entry.displacement? "n" = some 16 :=
    hframed.displacement?_eq_some_iff.mpr ⟨0, by rw [hentry]; rfl, hfirst⟩
  have hfilled : Filled spare final.scope := by
    refine { toFramed := h.lowers.framed hframed, locals_eq := ?_ }
    rw [h.lowers.locals_eq, ← hspare.declares]
    exact congrArg (Tree.declaresAll · (plunge spare).body) hentry
  obtain ⟨c₁, st₁, c₂, hbranch, hrest, rfl⟩ := h.lowers.block_cons
  obtain ⟨c₃, st₃, c₄, hassign, hret, rfl⟩ := hrest.block_cons
  obtain ⟨c₅, st₅, c₆, hret, hnil, rfl⟩ := hret.block_cons
  cases hnil
  have hleads := hrest.leads
  obtain ⟨ds, hst₁, hcount, hds, rfl⟩ := branch_eq harity hn hbranch
  obtain ⟨c₇, st₇, c₈, hvalue, hstores, rfl⟩ := hassign.assigned
  obtain ⟨rfl, rfl⟩ := hvalue.constant_int
  obtain ⟨c₉, hglobal, rfl⟩ := hret.returned (by simp)
  cases hstores with
  | targetsCons hstore hnil =>
      cases hnil
      cases hstore with
      | storeName hx =>
          have hy := hfilled.global_not_mem hspare
          rw [hglobal.locals_eq] at hy
          obtain ⟨rfl, rfl⟩ := hglobal.global_name rfl (Scope.displacement?_eq_none_iff.mpr hy)
          obtain rfl := Option.some.inj (hx.symm.trans hfilled.displacement_last)
          refine ⟨ds, hcount, ?_, ?_, ?_⟩
          · intro d hd
            obtain ⟨id, hid, hslot⟩ := hds d hd
            exact hfilled.displacement_spare hspare hid (hleads.displacement? hslot)
          · simp only [LoweringState.promote_promoted, LoweringState.declareTargets_promoted, hst₁]
            rfl
          · have hdata : st₁.data = [] := by simp [hst₁]
            have hexterns : st₁.externs = [] := by simp [hst₁]
            rw [h.unit_eq, hfilled.slots_length, hfilled.frameSlots_eq, LoweringState.promote_data,
              LoweringState.declareTargets_data, hdata, LoweringState.promote_externs,
              LoweringState.declareTargets_externs, hexterns,
              ← functionCode_eq (Nat.succ_ne_zero spare.length)]
            rfl

theorem acceptable (hspare : Spare spare) : Source.Acceptable [some (plunge spare)] := by
  have hfunctions : Source.functions [some (plunge spare)] = [plunge spare] := rfl
  have hbranch : (branch spare).IsStatement [plunge spare] := by
    simp only [branch, Tree.IsStatement, Tree.AreStatements, Tree.IsExpression,
      Tree.AreExpressions, and_true, true_and]
    refine ⟨.inr (.inl ⟨_, List.mem_singleton.mpr rfl, rfl, rfl⟩), ?_, ?_⟩
    · simpa using hspare.nonempty
    · intro t ht
      obtain ⟨id, hid, rfl⟩ := List.mem_map.mp ht
      intro hmem
      exact hspare.free id hid (List.mem_append_right ["n", "x", "y"] hmem)
  have hchain : (branch spare).statementChain ≤ 256 := by
    have htargets : Tree.targetChains (spare.map (.name 4)) ≤ 0 := by
      rw [Tree.targetChains_le_iff]
      intro t ht
      obtain ⟨id, -, rfl⟩ := List.mem_map.mp ht
      exact le_rfl
    simp only [branch, Tree.statementChain, Tree.statementChains, Tree.expressionChain,
      Tree.expressionChains]
    omega
  refine { present := by simp, unreserved := ?_, distinct := ?_, params := ?_, statements := ?_,
           chains := ?_ } <;> rw [hfunctions]
  · exact List.forall_mem_singleton.mpr (by decide : isReservedSymbol "plunge" = false)
  · exact List.nodup_singleton _
  · exact List.forall_mem_singleton.mpr (List.nodup_singleton "n")
  · refine List.forall_mem_singleton.mpr (List.forall_mem_cons.mpr ⟨hbranch, ?_⟩)
    simp [Tree.IsStatement, Tree.IsExpression, Tree.IsTarget]
  · refine List.forall_mem_singleton.mpr (List.forall_mem_cons.mpr ⟨hchain, ?_⟩)
    simp [Tree.statementChain, Tree.expressionChain, Tree.targetChains, Tree.targetChain]

/-- The compiled program. All stores but the last one are behind a return. -/
theorem compile_eq (hspare : Spare spare) :
    ∃ id ds, Source.compile [some (plunge spare)] 1 =
        .ok (program (spare.length + 1) id (gone ds) (last (spare.length + 1))) ∧
      ds.length = spare.length ∧
      ∀ d ∈ ds, ∃ k, k ≤ spare.length + 1 ∧ d = Scope.localDisplacement k := by
  obtain ⟨p, hp⟩ := (Source.compile_isOk _ 1).mpr (acceptable hspare)
  obtain ⟨fns, hfns, hlinks⟩ := Source.compile_links hp
  obtain rfl : fns = [plunge spare] := List.map_injective_iff.mpr (Option.some_injective _) hfns.symm
  obtain ⟨unit, hunits⟩ := List.length_eq_one_iff.mp hlinks.units_length
  have hunit : p.units[0]? = some unit := by rw [hunits]; rfl
  obtain ⟨entry, body, final, hlowered⟩ := lower_eq_ok (hlinks.lowered rfl hunit)
  obtain ⟨ds, hcount, hds, hpromoted, rfl⟩ := lowered_eq hspare rfl hlowered
  have hglobals : p.globals = ["y"] := by
    have hpromoted' := hlowered.promoted_eq.trans hpromoted
    rw [hlinks.globals_eq]
    simp only [Compile.outcomesUnder, List.mapIdx_cons, List.mapIdx_nil, Compile.gather,
      List.foldl_cons, List.foldl_nil, hpromoted']
    rfl
  refine ⟨Compile.inOrderLabels [plunge spare] 0 0, ds, ?_, hcount, hds⟩
  rw [hp, program, ← hglobals]
  exact congrArg (fun units => Except.ok ({ units := units, globals := p.globals } : Program)) hunits

end Compilation

section DeadStores

variable {slots id : Nat} {ds : List Word}

/-- The instruction loads no slot but that of the argument, and names no element. -/
def calm (i : Instruction) : Bool :=
  i.slotsRead.all (· == 16) && i.operands.all fun o => !o.isElement

theorem eq_of_reads {i : Instruction} (h : calm i = true) {d : Word} (hreads : i.Reads d) :
    d = 16 := by
  rw [calm, Bool.and_eq_true, List.all_eq_true, List.all_eq_true] at h
  have hread := Instruction.readsSlot_iff.mpr hreads
  rw [Instruction.readsSlot, Bool.or_eq_true] at hread
  rcases hread with hall | hslot
  · obtain ⟨o, ho, hframe⟩ := List.any_eq_true.mp hall
    rw [Bool.and_eq_true, Operand.isFrame_iff] at hframe
    have helement := h.2 o ho
    rw [Operand.isElement, hframe.1.1, hframe.2] at helement
    cases helement
  · simpa using h.1 d (List.contains_iff_mem.mp hslot)

/-- The slots of locals are not that of the argument. -/
theorem localDisplacement_ne {k : Nat} (hk : k < 2 ^ 32) : Scope.localDisplacement k ≠ 16 := by
  intro heq
  have hzero : (16 : Word) + 8 * Int64.ofNat k = 0 := by
    rw [← heq, Scope.localDisplacement]
    grind
  have h8 : (8 : Word).toUInt64.toNat = 8 := rfl
  have h16 : (16 : Word).toUInt64.toNat = 16 := rfl
  have hnat : ((16 : Word) + 8 * Int64.ofNat k).toUInt64.toNat = 0 := by rw [hzero]; rfl
  rw [Int64.toUInt64_add, Int64.toUInt64_mul, Int64.toUInt64_ofNat', UInt64.toNat_add,
    UInt64.toNat_mul, UInt64.toNat_ofNat', h8, h16] at hnat
  omega

theorem code_calm : ∀ i ∈ code slots id (gone ds) (last slots), calm i = true := by
  have hdescent : ∀ i ∈ descent slots id, calm i = true := List.all_eq_true.mp rfl
  have hlanding : ∀ i ∈ landing, calm i = true := List.all_eq_true.mp rfl
  intro i hi
  simp only [code, gone, last, List.mem_append, List.mem_cons, List.mem_map, List.not_mem_nil,
    or_false] at hi
  rcases hi with hi | (rfl | ⟨d, -, rfl⟩) | rfl | rfl | rfl | rfl | rfl | hi
  · exact hdescent i hi
  all_goals first | rfl | exact hlanding i hi

/-- Only locals are stored to. -/
theorem store_of_overwrites {i : Instruction} (hi : i ∈ code slots id (gone ds) (last slots))
    {d : Word} (hd : i.Overwrites d) :
    (d ∈ ds ∨ d = Scope.localDisplacement slots) ∧ ∃ line, i = mov line (.frameSlot d) rax := by
  have hdescent : ∀ i ∈ descent slots id, i.slotWritten?.isNone = true := List.all_eq_true.mp rfl
  have hlanding : ∀ i ∈ landing, i.slotWritten?.isNone = true := List.all_eq_true.mp rfl
  have hwritten := Instruction.slotWritten?_eq_some_iff.mpr hd
  have hsome : ¬i.slotWritten?.isNone = true := by simp [hwritten]
  simp only [code, gone, last, List.mem_append, List.mem_cons, List.mem_map, List.not_mem_nil,
    or_false] at hi
  rcases hi with hi | (rfl | ⟨d', hd', rfl⟩) | rfl | rfl | rfl | rfl | rfl | hi
  · exact absurd (hdescent i hi) hsome
  · exact absurd rfl hsome
  · obtain rfl : d' = d := Option.some.inj hwritten
    exact ⟨.inl hd', 4, rfl⟩
  · exact absurd rfl hsome
  · exact absurd rfl hsome
  · exact absurd rfl hsome
  · exact absurd rfl hsome
  · obtain rfl : Scope.localDisplacement slots = d := Option.some.inj hwritten
    exact ⟨.inr rfl, 5, rfl⟩
  · exact absurd (hlanding i hi) hsome

/-- All stores go. -/
theorem removeDeadStores_code (hslots : slots < 2 ^ 32)
    (hds : ∀ d ∈ ds, ∃ k, k ≤ slots ∧ d = Scope.localDisplacement k) :
    (code slots id (gone ds) (last slots)).removeDeadStores = code slots id (gone []) [] := by
  rw [Code.removeDeadStores_eq_filter]
  · have hgone : (gone ds).filter (·.slotWritten?.isNone) = gone [] := by
      have hcons : ∀ rest : Code, (mov 4 rax (.imm 0) :: rest).filter (·.slotWritten?.isNone) =
          mov 4 rax (.imm 0) :: rest.filter (·.slotWritten?.isNone) := fun _ => rfl
      rw [gone, hcons, List.filter_eq_nil_iff.mpr]
      · rfl
      · intro i hi
        obtain ⟨d, -, rfl⟩ := List.mem_map.mp hi
        exact Bool.false_ne_true
    rw [code, List.filter_append, List.filter_append, hgone]
    rfl
  · intro i hi d hd
    obtain ⟨hslot, line, rfl⟩ := store_of_overwrites hi hd
    refine ⟨rfl, ?_, ?_⟩
    · intro o ho hframe
      obtain rfl := List.mem_singleton.mp ho
      cases hframe.1
    · intro j hj hreads
      have hne : d ≠ 16 := by
        rcases hslot with hmem | rfl
        · obtain ⟨k, hk, rfl⟩ := hds d hmem
          exact localDisplacement_ne (by omega)
        · exact localDisplacement_ne hslots
      exact hne (eq_of_reads (code_calm j hj) hreads)

/-- What the removal of dead stores alone makes of the program. -/
theorem run_program (id : Nat) (hslots : slots < 2 ^ 32)
    (hds : ∀ d ∈ ds, ∃ k, k ≤ slots ∧ d = Scope.localDisplacement k) :
    ((Pipeline.standard.setEnabled "peephole" false).run
      (program slots id (gone ds) (last slots))).1 = program slots id (gone []) [] := by
  rw [program, program, ← removeDeadStores_code hslots hds]
  rfl

end DeadStores

end Plunge

end Arbor
