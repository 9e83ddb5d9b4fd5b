import Mathlib.Tactic
import Arbor.Proofs.StackBalance
import Arbor.Proofs.Variables

/-!
The layout of frames. A function's names have their words at offsets from the frame base
that follow from their order alone: the arguments above, the last one nearest, and the
other locals below. Lowering starts from a placeholder of the reservation and fills it in
when it knows the number of slots. All other instructions stay, so labels keep leading to
the instructions that they led to.
-/

namespace Arbor

open Emit

/-- The bytes from the frame base to the word of the local at a position, when the first `params`
locals are parameters. -/
def frameOffset (params j : Nat) : ℤ :=
  if j < params then 16 + 8 * ((params : ℤ) - 1 - j) else -8 * ((j : ℤ) - params + 1)

/-- Displacements are the offsets, as words. -/
theorem slotDisplacement_eq (params j : Nat) :
    slotDisplacement params j = Int64.ofInt (frameOffset params j) := by
  unfold slotDisplacement frameOffset
  split
  · simp [Scope.paramDisplacement, Int64.ofInt_add, Int64.ofInt_mul, Int64.ofInt_sub,
      Int64.ofInt_eq_ofNat]
  · next hj =>
      obtain ⟨k, rfl⟩ := Nat.exists_eq_add_of_le (not_lt.mp hj)
      simp [Scope.localDisplacement, Int64.ofInt_add, Int64.ofInt_mul, Int64.ofInt_neg,
        Int64.ofInt_eq_ofNat, Int64.neg_mul]

theorem frameOffset_inj {params j k : Nat} (h : frameOffset params j = frameOffset params k) :
    j = k := by
  unfold frameOffset at h
  split at h <;> split at h <;> omega

theorem frameOffset_bounds {params slots j : Nat} (hj : j < params + slots) :
    -8 * (slots : ℤ) ≤ frameOffset params j ∧ frameOffset params j ≤ 8 + 8 * (params : ℤ) := by
  unfold frameOffset
  split <;> omega

theorem ofInt_inj_of_abs_lt {a b : ℤ} (hlt : |a - b| < 2 ^ 64)
    (h : Int64.ofInt a = Int64.ofInt b) : a = b := by
  have hmod : a.bmod (2 ^ 64) = b.bmod (2 ^ 64) := by
    simpa [Int64.toInt_ofInt] using congrArg Int64.toInt h
  rw [Int.bmod_eq_bmod_iff_bmod_sub_eq_zero] at hmod
  have hdvd : (2 ^ 64 : ℤ) ∣ a - b := Int.dvd_of_bmod_eq_zero hmod
  exact sub_eq_zero.mp (Int.eq_zero_of_abs_lt_dvd hdvd hlt)

namespace FunctionDef

/-- The offset of the word of a local. -/
def offset (fn : FunctionDef) (id : String) : ℤ :=
  frameOffset fn.params.length (fn.locals.idxOf id)

/-- The displacement by which code addresses the word of a local. -/
def place (fn : FunctionDef) (id : String) : Word := Int64.ofInt (fn.offset id)

theorem offset_inj {fn : FunctionDef} {a b : String} (ha : a ∈ fn.locals)
    (hab : fn.offset a = fn.offset b) : a = b :=
  (List.idxOf_inj ha).mp (frameOffset_inj hab)

end FunctionDef

namespace LoweredAs

variable {env : LoweringEnv} {fn : FunctionDef} {unit : CompiledUnit} {entry : Scope} {body : Code}
  {final : LoweringState}

theorem framed (h : LoweredAs env fn unit entry body final) :
    final.scope.Framed fn.params.length :=
  h.lowers.framed (Scope.declareParams_framed h.params).1

theorem nodup_locals (h : LoweredAs env fn unit entry body final) : fn.locals.Nodup := by
  rw [← h.locals_eq]
  exact h.framed.nodup

/-- Lowering puts the locals where the layout says. -/
theorem places (h : LoweredAs env fn unit entry body final) : final.scope.Places fn.place := by
  intro id d hslot
  obtain ⟨j, hj, rfl⟩ := h.framed.displacement?_eq_some_iff.mp hslot
  rw [h.locals_eq] at hj
  obtain ⟨hlt, rfl⟩ := List.getElem?_eq_some_iff.mp hj
  rw [FunctionDef.place, FunctionDef.offset, h.nodup_locals.idxOf_getElem, slotDisplacement_eq]

theorem length_locals (h : LoweredAs env fn unit entry body final) :
    fn.locals.length = fn.params.length + unit.slots := by
  rw [← h.locals_eq, h.framed.length_eq, h.unit_eq]

end LoweredAs

namespace Code

/-- Where an instruction of the draft stands once the reservation at `offset` is filled in. -/
def shifted (offset slots k : Nat) : Nat := if slots = 0 ∧ offset < k then k - 1 else k

/-- The last label of a name counts. -/
theorem position?_append (a b : Code) (label : String) :
    position? (a ++ b) label =
      ((position? b label).map (a.length + ·)).or (position? a label) := by
  induction b using List.reverseRecOn with
  | nil =>
      rw [List.append_nil]
      rfl
  | append_singleton b last ih =>
      rw [← List.append_assoc, position?_append_singleton, position?_append_singleton, ih]
      split <;> simp

theorem position?_lt {code : Code} {label : String} {k : Nat} (h : code.position? label = some k) :
    k < code.length := by
  obtain ⟨⟨i, hi, -⟩, -⟩ := position?_eq_some_iff.mp h
  exact (List.getElem?_eq_some_iff.mp hi).1

variable {draft code : Code} {offset slots : Nat}

/-- Filling in a reservation changes or deletes that one instruction. -/
theorem patchReservation_eq_ok (h : draft.patchReservation offset slots = .ok code) :
    ∃ a i b, draft = a ++ i :: b ∧ a.length = offset ∧ draft[offset]? = some i ∧
      code = a ++ (if slots = 0 then b
        else setImmediate i (Int64.ofNat (8 * slots)) :: b) := by
  unfold patchReservation at h
  cases hi : draft[offset]? with
  | none => simp [hi] at h
  | some i =>
      obtain ⟨hlt, hget⟩ := List.getElem?_eq_some_iff.mp hi
      refine ⟨draft.take offset, i, draft.drop (offset + 1), ?_, ?_, rfl, ?_⟩
      · rw [← hget, ← List.drop_eq_getElem_cons hlt, List.take_append_drop]
      · simp [hlt.le]
      · simp only [hi] at h
        split at h
        · split at h
          · cases h
            simp [List.eraseIdx_eq_take_drop_succ, *]
          · cases h
            simp [List.set_eq_take_append_cons_drop, *]
        · cases h

/-- All other instructions are kept, in place. -/
theorem patchReservation_getElem? (h : draft.patchReservation offset slots = .ok code) {k : Nat}
    (hk : k ≠ offset) : code[shifted offset slots k]? = draft[k]? := by
  obtain ⟨a, i, b, rfl, rfl, -, rfl⟩ := patchReservation_eq_ok h
  rcases lt_or_gt_of_ne hk with hlt | hgt
  · have hstays : shifted a.length slots k = k := if_neg (by omega)
    rw [hstays, List.getElem?_append_left hlt, List.getElem?_append_left hlt]
  · obtain ⟨m, rfl⟩ := Nat.exists_eq_add_of_lt hgt
    have hright : ∀ i, (a ++ i :: b)[a.length + m + 1]? = b[m]? := by
      intro i
      rw [List.getElem?_append_right (by omega), show a.length + m + 1 - a.length = m + 1 by omega,
        List.getElem?_cons_succ]
    by_cases hslots : slots = 0
    · have hshift : shifted a.length slots (a.length + m + 1) = a.length + m :=
        if_pos ⟨hslots, hgt⟩
      rw [hshift, hright, if_pos hslots, List.getElem?_append_right (Nat.le_add_right _ _),
        Nat.add_sub_cancel_left]
    · have hstays : shifted a.length slots (a.length + m + 1) = a.length + m + 1 :=
        if_neg fun h => hslots h.1
      rw [hstays, if_neg hslots, hright, hright]

theorem position?_cons {i : Instruction} (hi : i.label = none) (code : Code) (label : String) :
    position? (i :: code) label = (position? code label).map (· + 1) := by
  have hsingle : position? [i] label = none := by simp [position?, hi]
  rw [← List.singleton_append, position?_append, hsingle, Option.or_none]
  simp [Nat.add_comm]

/-- Labels lead to the instructions that they led to. -/
theorem patchReservation_position? (h : draft.patchReservation offset slots = .ok code)
    (hlabel : ∀ i, draft[offset]? = some i → i.label = none) (label : String) :
    code.position? label = (draft.position? label).map (shifted offset slots) := by
  obtain ⟨a, i, b, rfl, rfl, hi, rfl⟩ := patchReservation_eq_ok h
  have hunlabelled := hlabel i hi
  rw [position?_append, position?_append, position?_cons hunlabelled]
  by_cases hslots : slots = 0
  · rw [if_pos hslots]
    cases hb : position? b label with
    | some j => simp [shifted, hslots]
    | none =>
        cases ha : position? a label with
        | none => rfl
        | some j =>
            have hj := position?_lt ha
            simp [shifted]
            omega
  · rw [if_neg hslots, position?_cons (show (setImmediate i _).label = none from hunlabelled)]
    have hstays : shifted a.length slots = id := funext fun k => if_neg fun h => hslots h.1
    rw [hstays, Option.map_id, id]

end Code

/-- The names of a function, their words and the code agree on the frame. -/
structure FrameLayout (fn : FunctionDef) (unit : CompiledUnit) : Prop where
  params_eq : unit.params = fn.params.length
  locals_eq : unit.locals = unit.params + unit.slots
  params_first : fn.params <+: fn.locals
  /-- The locals in order of declaration, the parameters first. -/
  offsets_eq : fn.locals.map fn.offset =
    (List.range unit.params).map (fun i : Nat => 16 + 8 * ((unit.params : ℤ) - 1 - i)) ++
      (List.range unit.slots).map fun j : Nat => -8 * ((j : ℤ) + 1)
  offset_inj : ∀ a ∈ fn.locals, ∀ b ∈ fn.locals, fn.offset a = fn.offset b → a = b
  /-- The words differ too when the frame, with what a call saves, fits into the address space. -/
  place_inj : 8 * (unit.locals + 2) ≤ 2 ^ 64 →
    ∀ a ∈ fn.locals, ∀ b ∈ fn.locals, fn.place a = fn.place b → a = b
  accesses_eq : unit.code.accesses = fn.references.map (Reference.lowered fn.place)
  frameSlot : ∀ i ∈ unit.code, ∀ o ∈ i.operands, o.isFrameSlot = true →
    ∃ id ∈ fn.locals, o = .frameSlot (fn.place id)

/-- The code of a unit is the draft with its reservation filled in. -/
structure ReservedFrame (fn : FunctionDef) (unit : CompiledUnit) (draft : Code) : Prop where
  patch_eq : draft.patchReservation 3 unit.slots = .ok unit.code
  /-- The reservation follows the move to the frame base, and it is the only one. -/
  opens : ∃ rest, unit.code = .labelled fn.name fn.line :: push fn.line rbp ::
      mov fn.line rbp rsp :: (reserve fn.line unit.slots ++ rest) ∧
    ∀ i ∈ rest, i.mnemonic = .sub → rsp ∉ i.operands
  instructions : ∀ k, k ≠ 3 → unit.code[Code.shifted 3 unit.slots k]? = draft[k]?
  labels : ∀ label,
    unit.code.position? label = (draft.position? label).map (Code.shifted 3 unit.slots)
  jumps : ∀ (k : Nat) (i : Instruction), draft[k]? = some i → i.mnemonic.isJump = true → ∃ label j,
    i.operands = [.sym label] ∧ draft.position? label = some j ∧ j ≠ 3

theorem Mention.isPrefix_declared (scope : List String) (ms : List Mention) :
    scope <+: declared scope ms := by
  induction ms generalizing scope with
  | nil => exact List.prefix_refl scope
  | cons m rest ih =>
      refine List.IsPrefix.trans ?_ (ih (m.extend scope))
      cases m with
      | declare id =>
          rw [extend, declareName]
          split
          · exact List.prefix_refl scope
          · exact List.prefix_append scope [id]
      | load | store => exact List.prefix_refl scope

/-- The offsets of the locals, in order of declaration. -/
theorem map_frameOffset_range (params slots : Nat) :
    (List.range (params + slots)).map (frameOffset params) =
      (List.range params).map (fun i : Nat => 16 + 8 * ((params : ℤ) - 1 - i)) ++
        (List.range slots).map fun j : Nat => -8 * ((j : ℤ) + 1) := by
  rw [List.range_add, List.map_append, List.map_map]
  congr 1
  · apply List.map_congr_left
    intro i hi
    rw [frameOffset, if_pos (List.mem_range.mp hi)]
  · apply List.map_congr_left
    intro j _
    simp [frameOffset]

namespace LoweredAs

variable {env : LoweringEnv} {fn : FunctionDef} {unit : CompiledUnit} {entry : Scope} {body : Code}
  {final : LoweringState}

theorem map_offset (h : LoweredAs env fn unit entry body final) :
    fn.locals.map fn.offset =
      (List.range (fn.params.length + unit.slots)).map (frameOffset fn.params.length) := by
  rw [← h.length_locals]
  apply List.ext_getElem (by simp)
  intro j hj _
  simp [FunctionDef.offset, h.nodup_locals.idxOf_getElem]

theorem offset_bounds (h : LoweredAs env fn unit entry body final) {id : String}
    (hid : id ∈ fn.locals) :
    -8 * (unit.slots : ℤ) ≤ fn.offset id ∧ fn.offset id ≤ 8 + 8 * (fn.params.length : ℤ) := by
  apply frameOffset_bounds
  rw [← h.length_locals]
  exact List.idxOf_lt_length_of_mem hid

/-- A frame slot in the code is the word of a local. -/
theorem frameSlot (h : LoweredAs env fn unit entry body final) {i : Instruction}
    (hi : i ∈ unit.code) {o : Operand} (ho : o ∈ i.operands) (hslot : o.isFrameSlot = true) :
    ∃ id ∈ fn.locals, o = .frameSlot (fn.place id) := by
  have haccess : i ∈ unit.code.accesses :=
    List.mem_filter.mpr ⟨hi, List.any_eq_true.mpr ⟨o, ho, by simp [Operand.isVariable, hslot]⟩⟩
  rw [h.accesses_eq h.places] at haccess
  obtain ⟨r, hr, rfl⟩ := List.mem_map.mp haccess
  have hstorage : o = r.storage fn.place := by
    have hcases : o = r.storage fn.place ∨ o = rax := by
      cases hstore : r.isStore <;> simp [Reference.lowered, hstore, mov, Instruction.make] at ho <;>
        tauto
    rcases hcases with rfl | rfl
    · rfl
    · cases hslot
  cases hlocal : r.isLocal with
  | false =>
      rw [hstorage, Reference.storage, hlocal] at hslot
      cases hslot
  | true =>
      refine ⟨r.id, FunctionDef.mem_locals_of_isLocal hr hlocal, ?_⟩
      rw [hstorage, Reference.storage, hlocal]
      rfl

theorem frameLayout (h : LoweredAs env fn unit entry body final) : FrameLayout fn unit := by
  have hparams : unit.params = fn.params.length := by rw [h.unit_eq]
  have hlocals : unit.locals = unit.params + unit.slots := by
    have hlength : unit.locals = final.scope.locals.length := by simp [h.unit_eq, Scope.locals]
    rw [hlength, h.locals_eq, h.length_locals, hparams]
  refine ⟨hparams, hlocals, Mention.isPrefix_declared _ _, ?_,
    fun a ha b _ hab => FunctionDef.offset_inj ha hab, ?_, h.accesses_eq h.places,
    fun _ hi _ => h.frameSlot hi⟩
  · rw [h.map_offset, map_frameOffset_range, hparams]
  · intro hfits a ha b hb hab
    refine FunctionDef.offset_inj ha (ofInt_inj_of_abs_lt ?_ hab)
    have hboundsa := h.offset_bounds ha
    have hboundsb := h.offset_bounds hb
    rw [abs_lt]
    omega

end LoweredAs

namespace Emit

/-- The placeholder is no label. -/
theorem unpatched_label {fn : FunctionDef} {body : Code} {i : Instruction}
    (hi : (unpatched fn body)[3]? = some i) : i.label = none := by
  simp only [unpatched, prologue, List.cons_append, List.nil_append, List.getElem?_cons_succ,
    List.getElem?_cons_zero] at hi
  cases hi
  rfl

theorem labels_unpatched (fn : FunctionDef) (body : Code) (slots : Nat) :
    Code.labels (unpatched fn body) = Code.labels (functionCode fn slots body) := by
  rw [labels_functionCode]
  simp [unpatched, prologue, fallthrough, Code.reservation]

end Emit

/-- A jump of closed code goes to one of its labels. -/
theorem Instruction.Closed.exists_label {σ : Surroundings} {i : Instruction} (h : i.Closed σ)
    (hjump : i.mnemonic.isJump = true) : ∃ label, i.operands = [.sym label] ∧ label ∈ σ.labels := by
  cases h with
  | jump _ hlabel => exact ⟨_, rfl, hlabel⟩
  | @plain m _ _ hm =>
      have hm' : m.isJump = true := hjump
      simp [Mnemonic.isPlain, hm'] at hm
  | label | call | lea => cases hjump

/-- Behind the opening, nothing is subtracted from the stack pointer. -/
theorem Instruction.Shifts.rsp_notMem {marks : String → Option Nat} {i : Instruction}
    {σ τ : Stage} (h : i.Shifts marks σ τ) (hm : i.mnemonic = .sub) : rsp ∉ i.operands := by
  intro hrsp
  cases h with
  | adjust hi =>
      cases hi with
      | push hm' | pop hm' | drop hm' => simp [hm] at hm'
      | other _ hfree => exact (hfree rsp hrsp rfl).1 rfl
  | unwind hi => simp [Instruction.Unwinds, hm] at hi
  | unlink hi => simp [Instruction.Unlinks, hm] at hi
  | ret hi => simp [hm] at hi

open Code in
/-- The layout of frames. A parameter and every other local of a compiled function has a word of
its own, at the place that its position among the names gives, and the code touches no other word
of the frame. The code takes the slots off the stack once, when the frame base is set, and its
labels and jumps lead where they led before the size of the frame was known. -/
theorem compile_frameLayout {source : Source} {jobs : Nat} {p : Program}
    (hcompile : source.compile jobs = .ok p) {u : Nat} {fn : FunctionDef} {unit : CompiledUnit}
    (hfn : source[u]? = some (some fn)) (hunit : p.units[u]? = some unit) :
    FrameLayout fn unit ∧ ∃ body, ReservedFrame fn unit (unpatched fn body) := by
  obtain ⟨fns, env, entry, body, final, hlinks, hlowered⟩ :=
    Source.compile_loweredAs hcompile hfn hunit
  refine ⟨hlowered.frameLayout, body, ?_⟩
  have hcode : unit.code = functionCode fn unit.slots body := by rw [hlowered.unit_eq]
  have hpatch : (unpatched fn body).patchReservation 3 unit.slots = .ok unit.code := by
    rw [hcode, patchReservation_unpatched]
  have hnodup : (labels unit.code).Nodup :=
    (List.nodup_append.mp (hlinks.unit_definedSymbols_nodup hunit)).1
  refine ⟨hpatch, ?_, fun k => patchReservation_getElem? hpatch,
    patchReservation_position? hpatch fun i => unpatched_label, ?_⟩
  · have hbody := hlowered.lowers.poised (h := 0) fun _ => rfl
    obtain ⟨marks, stage, hstaged, -⟩ := hbody.staged (hcode ▸ hnodup)
    refine ⟨body ++ fallthrough fn.line, hcode, ?_⟩
    intro i hi
    obtain ⟨k, hk⟩ := List.mem_iff_getElem?.mp hi
    refine (hstaged.shifts ((opening fn unit.slots).length + k) i (Nat.le_add_right _ _)
      ?_).rsp_notMem
    rw [functionCode_eq, List.getElem?_append_right (Nat.le_add_right _ _),
      Nat.add_sub_cancel_left, hk]
  · intro k i hk hjump
    have hne : k ≠ 3 := by
      rintro rfl
      cases hk
      cases hjump
    have hmem : i ∈ unit.code := by
      rw [← patchReservation_getElem? hpatch hne] at hk
      exact List.mem_of_getElem? hk
    have hlabels := labels_unpatched fn body unit.slots
    rw [← hcode] at hlabels
    obtain ⟨label, hos, hlabel⟩ :=
      (hlinks.unit_closed (List.mem_of_getElem? hunit) i hmem).exists_label hjump
    have hdraft : label ∈ labels (unpatched fn body) := by
      rw [hlabels]
      exact hlabel
    obtain ⟨i', hi', hlabel'⟩ := List.mem_filterMap.mp hdraft
    obtain ⟨j, hj⟩ := List.mem_iff_getElem?.mp hi'
    refine ⟨label, j, hos, position?_eq_some (hlabels ▸ hnodup) hj hlabel', ?_⟩
    rintro rfl
    rw [unpatched_label hj] at hlabel'
    cases hlabel'

/-- Declares its locals in a loop and in a branch of it, one of them twice. -/
def sift : FunctionDef where
  name := "sift"
  params := ["n", "limit"]
  body := [
    .whileLoop 2 (.compare 2 .greater (.name 2 "n") (.constant 2 (.int 0))) [
      .assign 3 [.name 3 "low"] (.name 3 "n"),
      .ifElse 4 (.compare 4 .less (.name 4 "limit") (.name 4 "low"))
        [.assign 5 [.name 5 "high", .name 5 "low"] (.name 5 "step")] [],
      .augAssign 6 (.name 6 "n") .sub (.name 6 "low")],
    .ret 7 (.name 7 "high")]

/-- A function without slots. -/
def echo : FunctionDef where
  name := "echo"
  params := ["x"]
  body := [.ifElse 2 (.name 2 "x") [.ret 3 (.name 3 "x")] []]

def siftProgram : Program := (Source.compile [some sift, some echo] 1).toOption.getD {}

def siftUnit : CompiledUnit := siftProgram.units.headD { name := "" }

def echoUnit : CompiledUnit := siftProgram.units.getLastD { name := "" }

theorem sift_frameLayout :
    Source.compile [some sift, some echo] 1 = .ok siftProgram ∧
    siftProgram.units = [siftUnit, echoUnit] ∧
    (FrameLayout sift siftUnit ∧ ∃ body, ReservedFrame sift siftUnit (unpatched sift body)) ∧
    (FrameLayout echo echoUnit ∧ ∃ body, ReservedFrame echo echoUnit (unpatched echo body)) ∧
    sift.locals.map sift.offset = [24, 16, -8, -16] ∧ echo.locals.map echo.offset = [16] := by
  have hcompile : Source.compile [some sift, some echo] 1 = .ok siftProgram := rfl
  have hfns : ([some sift, some echo] : Source)[0]? = some (some sift) ∧
      ([some sift, some echo] : Source)[1]? = some (some echo) := ⟨rfl, rfl⟩
  have hunits : siftProgram.units[0]? = some siftUnit ∧ siftProgram.units[1]? = some echoUnit :=
    ⟨rfl, rfl⟩
  have hsift := compile_frameLayout hcompile hfns.1 hunits.1
  have hecho := compile_frameLayout hcompile hfns.2 hunits.2
  refine ⟨hcompile, rfl, hsift, hecho, ?_, ?_⟩
  · rw [hsift.1.offsets_eq]
    decide
  · rw [hecho.1.offsets_eq]
    decide

end Arbor
