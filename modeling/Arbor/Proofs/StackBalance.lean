import Mathlib.Tactic
import Arbor.Proofs.DeadStores
import Arbor.Proofs.StackHeight

/-!
The stack is balanced along the flow graph of every unit, compiled or optimized. Between the
opening of the frame and its exits, each position has one height whichever way it is reached,
nothing is taken off the stack that was not pushed there, and a return is reached only through
the two instructions that give the frame back. Passes leave out moves and jumps only, which
change no height, so each position keeps the height that it had.
-/

namespace Arbor

open Emit

namespace Emit

/-- What a function does before its body. -/
def opening (fn : FunctionDef) (slots : Nat) : Code := prologue fn.name fn.line ++ reserve fn.line slots

theorem functionCode_eq (fn : FunctionDef) (slots : Nat) (body : Code) :
    functionCode fn slots body = opening fn slots ++ (body ++ fallthrough fn.line) := by
  rw [functionCode, opening, List.append_assoc]

/-- The opening of a frame neither jumps nor exits, and its only label is the function's name. -/
theorem mem_opening {fn : FunctionDef} {slots : Nat} {i : Instruction} (hi : i ∈ opening fn slots) :
    ¬i.Exits ∧ i.mnemonic ≠ .jmp ∧ i.mnemonic.isConditionalJump = false ∧
      ∀ l, i.label = some l → l = fn.name := by
  have hcases : i = .labelled fn.name fn.line ∨ i = push fn.line rbp ∨ i = mov fn.line rbp rsp ∨
      i = .make .sub [rsp, .imm (Int64.ofNat (8 * slots))] fn.line := by
    unfold opening prologue reserve at hi
    split at hi <;>
      simp only [List.mem_append, List.mem_cons, List.not_mem_nil, or_false] at hi <;> tauto
  rcases hcases with rfl | rfl | rfl | rfl <;>
    simp [Instruction.Exits, Instruction.Unwinds, Instruction.Unlinks, Instruction.labelled,
      Instruction.make, push, mov, rbp, rsp, Operand.ofReg, Mnemonic.isConditionalJump]

end Emit

namespace Code

/-- The heights agree along the flow graph of a unit's code. -/
structure StackBalanced (fn : FunctionDef) (slots : Nat) (code : Code) (height : Nat → Nat) :
    Prop where
  opens : ∃ rest, code = opening fn slots ++ rest
  /-- Nothing is staged when the frame is open. -/
  entry : height (opening fn slots).length = 0
  /-- An instruction inside the frame takes its height to one that all positions after it have,
  and control stays behind the opening. -/
  inside : ∀ k i, (opening fn slots).length ≤ k → code[k]? = some i → ¬i.Exits →
    ∃ h, i.Adjusts (height k) h ∧
      ∀ j, code.Follows k j → (opening fn slots).length ≤ j ∧ height j = h
  /-- A return comes after the caller's frame base is restored, and that after the frame is
  dropped. -/
  exits : ∀ k j i i', code[k]? = some i → code[j]? = some i' → code.Follows k j →
    (i.Unwinds ↔ i'.Unlinks) ∧ (i.Unlinks ↔ i'.mnemonic = .ret)

/-- A unit's code with a stage for each position behind the opening. -/
structure Staged (fn : FunctionDef) (slots : Nat) (code : Code) (marks : String → Option Nat)
    (stage : Nat → Stage) : Prop where
  opens : ∃ rest, code = opening fn slots ++ rest
  unmarked : marks fn.name = none
  entry : stage (opening fn slots).length = .inside 0
  shifts : ∀ k i, (opening fn slots).length ≤ k → code[k]? = some i →
    i.Shifts marks (stage k) (stage (k + 1))

end Code

namespace Instruction.Shifts

variable {marks : String → Option Nat} {i : Instruction} {σ τ : Stage}

theorem unwinds_iff (h : i.Shifts marks σ τ) : i.Unwinds ↔ ∃ n, τ = .unwound n := by
  cases h with
  | adjust hi => simpa using fun hu => hi.not_exits (.inl hu)
  | unwind hi => simpa using hi
  | unlink hi => simp [Unwinds, hi.1]
  | ret hi => simp [Unwinds, hi]

theorem unlinks_iff (h : i.Shifts marks σ τ) : i.Unlinks ↔ ∃ n, τ = .unlinked n := by
  cases h with
  | adjust hi => simpa using fun hu => hi.not_exits (.inr (.inl hu))
  | unwind hi => simp [Unlinks, hi.1]
  | unlink hi => simpa using hi
  | ret hi => simp [Unlinks, hi]

theorem unlinks_iff_source (h : i.Shifts marks σ τ) : i.Unlinks ↔ ∃ n, σ = .unwound n := by
  cases h with
  | adjust hi => simpa using fun hu => hi.not_exits (.inr (.inl hu))
  | unwind hi => simp [Unlinks, hi.1]
  | unlink hi => simpa using hi
  | ret hi => simp [Unlinks, hi]

theorem ret_iff_source (h : i.Shifts marks σ τ) : i.mnemonic = .ret ↔ ∃ n, σ = .unlinked n := by
  cases h with
  | adjust hi => simpa using fun hu => hi.not_exits (.inr (.inr hu))
  | unwind hi => simp [hi.1]
  | unlink hi => simp [hi.1]
  | ret hi => simpa using hi

/-- What jumps is inside the frame and knows the height of its label. -/
theorem exists_jump (h : i.Shifts marks σ τ) (hm : i.mnemonic.isJump) :
    ∃ n l, σ = .inside n ∧ τ = .inside n ∧ i.operands = [.sym l] ∧ marks l = some n := by
  cases h with
  | adjust hi _ hjump =>
      obtain ⟨l, hos, hmark⟩ := hjump hm
      refine ⟨_, l, rfl, ?_, hos, hmark⟩
      cases hi with
      | other => rfl
      | push hm' | pop hm' | drop hm' => rw [hm'] at hm; cases hm
  | unwind hi => rw [hi.1] at hm; cases hm
  | unlink hi => rw [hi.1] at hm; cases hm
  | ret hi => rw [hi] at hm; cases hm

theorem of_label (h : i.Shifts marks σ τ) {l : String} (hl : i.label = some l) :
    ∃ n, σ = .inside n ∧ marks l = some n := by
  cases h with
  | adjust _ hlabel => exact ⟨_, rfl, hlabel l hl⟩
  | unwind _ hlabel | unlink _ hlabel | ret _ hlabel => rw [hlabel] at hl; cases hl

end Instruction.Shifts

namespace Code

/-- An instruction that may go is a jump, or a move that does not move one register to another
unless the instruction before it has done the same. -/
theorem Optional.jump_or_move {code : Code} {k : Nat} {i : Instruction} (h : Optional code k i) :
    i.mnemonic = .jmp ∨ (i.mnemonic = .mov ∧
      ∀ a b : Reg, a ≠ b → i.operands = [.ofReg a, .ofReg b] → ∃ m first, k = m + 1 ∧
        code[m]? = some first ∧ first.mnemonic = .mov ∧ first.operands = i.operands) := by
  rcases h with (h | ⟨-, h⟩)
  · cases h with
    | selfMove h =>
        obtain ⟨-, o, hmove, -⟩ := Instruction.of_isSelfMove h
        obtain ⟨hm, hos⟩ := Instruction.moveOperands?_eq_some hmove
        refine .inr ⟨hm, ?_⟩
        intro a b hne hab
        rw [hos] at hab
        simp only [List.cons.injEq, and_true] at hab
        exact absurd (congrArg Operand.reg (hab.1.symm.trans hab.2)) hne
    | repeated hfirst h =>
        obtain ⟨-, dst, src, hmove, hmove', -⟩ := Instruction.of_repeats h
        obtain ⟨hm, hos⟩ := Instruction.moveOperands?_eq_some hmove
        obtain ⟨hm', hos'⟩ := Instruction.moveOperands?_eq_some hmove'
        exact .inr ⟨hm', fun _ _ _ _ => ⟨_, _, rfl, hfirst, hm, hos.trans hos'.symm⟩⟩
    | undone hfirst h =>
        obtain ⟨-, dst, src, -, hmove, hkinds⟩ := Instruction.of_undoes h
        obtain ⟨hm, hos⟩ := Instruction.moveOperands?_eq_some hmove
        refine .inr ⟨hm, ?_⟩
        intro a b _ hab
        rw [hos] at hab
        simp only [List.cons.injEq, and_true] at hab
        rw [hab.1, hab.2] at hkinds
        simp [Operand.ofReg] at hkinds
    | jumpToNext h => exact .inl (of_jumpsToNext h).1
    | shadowed _ h =>
        simp only [Instruction.shadows, Bool.and_eq_true, beq_iff_eq] at h
        exact .inl h.1.2
  · obtain ⟨d, hd⟩ := Option.isSome_iff_exists.mp h
    obtain ⟨hm, o, rest, hos, hframe, -⟩ := Instruction.slotWritten?_eq_some_iff.mp hd
    refine .inr ⟨hm, ?_⟩
    intro a b _ hab
    rw [hos] at hab
    rw [(List.cons.inj hab).1] at hframe
    cases hframe.1

namespace Staged

variable {fn : FunctionDef} {slots : Nat} {code : Code} {marks : String → Option Nat}
  {stage : Nat → Stage}

theorem mem_opening (h : Staged fn slots code marks stage) {k : Nat} {i : Instruction}
    (hk : k < (opening fn slots).length) (hi : code[k]? = some i) : i ∈ opening fn slots := by
  obtain ⟨rest, rfl⟩ := h.opens
  rw [List.getElem?_append_left hk] at hi
  exact List.mem_of_getElem? hi

/-- A jump lands behind the opening, at the height of its label. -/
theorem landing (h : Staged fn slots code marks stage) {l : String} {n j : Nat}
    (hmark : marks l = some n) (hj : code.LastLabelled l j) :
    (opening fn slots).length ≤ j ∧ stage j = .inside n := by
  obtain ⟨⟨i, hi, hl⟩, -⟩ := hj
  have hle : (opening fn slots).length ≤ j := by
    by_contra hlt
    have hname := (Emit.mem_opening (h.mem_opening (not_le.mp hlt) hi)).2.2.2 l hl
    rw [hname, h.unmarked] at hmark
    cases hmark
  obtain ⟨n', hstage, hmark'⟩ := (h.shifts j i hle hi).of_label hl
  rw [hmark] at hmark'
  rw [hstage, Option.some.inj hmark']
  exact ⟨hle, rfl⟩

/-- An edge behind the opening leads to the stage that the instruction shifts to. -/
theorem follows (h : Staged fn slots code marks stage) {k j : Nat}
    (hk : (opening fn slots).length ≤ k) (hfollows : code.Follows k j) :
    (opening fn slots).length ≤ j ∧ stage j = stage (k + 1) := by
  cases hfollows with
  | jump hi hm hos hkind hj =>
      have hjump := h.shifts k _ hk hi
      obtain ⟨n, l, -, hnext, hos', hmark⟩ := hjump.exists_jump (by simpa [Mnemonic.isJump] using hm)
      obtain rfl := (List.cons.inj (hos.symm.trans hos')).1
      obtain ⟨hle, hstage⟩ := h.landing hmark hj
      exact ⟨hle, hstage.trans hnext.symm⟩
  | next => exact ⟨Nat.le_succ_of_le hk, rfl⟩

theorem stackBalanced (h : Staged fn slots code marks stage) :
    StackBalanced fn slots code fun k => (stage k).height where
  opens := h.opens
  entry := by rw [h.entry]; rfl
  inside := by
    intro k i hk hi hexits
    have hshifts := h.shifts k i hk hi
    have hedges : ∀ j, code.Follows k j →
        (opening fn slots).length ≤ j ∧ stage j = stage (k + 1) := fun j => h.follows hk
    generalize stage k = σ at hshifts ⊢
    generalize stage (k + 1) = τ at hshifts hedges
    cases hshifts with
    | adjust hi =>
        refine ⟨_, hi, fun j hj => ⟨(hedges j hj).1, ?_⟩⟩
        rw [(hedges j hj).2]
        rfl
    | unwind hi => exact absurd (.inl hi) hexits
    | unlink hi => exact absurd (.inr (.inl hi)) hexits
    | ret hi => exact absurd (.inr (.inr hi)) hexits
  exits := by
    intro k j i i' hi hi' hfollows
    rcases Nat.lt_or_ge k (opening fn slots).length with hk | hk
    · -- the opening runs straight into the body
      obtain ⟨hexits, hjmp, hbranch, -⟩ := Emit.mem_opening (h.mem_opening hk hi)
      obtain rfl : j = k + 1 := by
        cases hfollows with
        | jump hi₁ hm =>
            obtain rfl := Option.some.inj (hi.symm.trans hi₁)
            rcases hm with hm | hm
            · exact absurd hm hjmp
            · rw [hbranch] at hm
              cases hm
        | next => rfl
      have hexits' : ¬i'.Unlinks ∧ i'.mnemonic ≠ .ret := by
        rcases Nat.lt_or_ge (k + 1) (opening fn slots).length with hk' | hk'
        · have hin := (Emit.mem_opening (h.mem_opening hk' hi')).1
          exact ⟨fun hu => hin (.inr (.inl hu)), fun hr => hin (.inr (.inr hr))⟩
        · have hshifts := h.shifts (k + 1) i' hk' hi'
          rw [show k + 1 = (opening fn slots).length by omega, h.entry] at hshifts
          rw [hshifts.unlinks_iff_source, ne_eq, hshifts.ret_iff_source]
          simp
      refine ⟨iff_of_false (fun hu => hexits (.inl hu)) hexits'.1,
        iff_of_false (fun hu => hexits (.inr (.inl hu))) hexits'.2⟩
    · obtain ⟨hj, hstage⟩ := h.follows hk hfollows
      have hshifts := h.shifts k i hk hi
      have hshifts' := h.shifts j i' hj hi'
      rw [hshifts.unwinds_iff, hshifts.unlinks_iff, hshifts'.unlinks_iff_source,
        hshifts'.ret_iff_source, hstage]
      exact ⟨Iff.rfl, Iff.rfl⟩

/-- No instruction of the opening may go. -/
theorem not_optional (h : Staged fn slots code marks stage) {k : Nat} {i : Instruction}
    (hk : k < (opening fn slots).length) (hi : code[k]? = some i) : ¬Optional code k i := by
  intro hoptional
  obtain ⟨rest, rfl⟩ := h.opens
  have hall := hoptional.jump_or_move
  rw [List.getElem?_append_left hk] at hi
  match k, hi with
  | 0, hi | 1, hi =>
      cases hi
      simp [Instruction.labelled, push, Instruction.make] at hall
  | 2, hi =>
      cases hi
      rcases hall with hm | ⟨-, hsame⟩
      · cases hm
      · obtain ⟨m, first, hm, hfirst, hmov, -⟩ := hsame .rbp .rsp (by simp) rfl
        obtain rfl : m = 1 := by omega
        cases hfirst
        cases hmov
  | k + 3, hi =>
      have hmem : i ∈ reserve fn.line slots := List.mem_of_getElem? hi
      unfold reserve at hmem
      split at hmem
      · cases hmem
      · rw [List.mem_singleton.mp hmem] at hall
        simp [Instruction.make] at hall

/-- An instruction that may go leaves the stage as it is. -/
theorem stage_of_optional (h : Staged fn slots code marks stage) {k : Nat} {i : Instruction}
    (hi : code[k]? = some i) (hoptional : Optional code k i) : stage (k + 1) = stage k := by
  have hk : (opening fn slots).length ≤ k := by
    by_contra hlt
    exact h.not_optional (not_le.mp hlt) hi hoptional
  have hshifts := h.shifts k i hk hi
  rcases hoptional.jump_or_move with hm | ⟨hm, hsame⟩
  · obtain ⟨n, l, hstage, hnext, -⟩ := hshifts.exists_jump (by simp [hm, Mnemonic.isJump])
    rw [hstage, hnext]
  · generalize hstage : stage k = σ at hshifts
    generalize stage (k + 1) = τ at hshifts
    cases hshifts with
    | adjust hi => rw [hi.eq_of_mov_or_jmp (.inl hm)]
    | unlink hi => simp [hi.1] at hm
    | ret hi => simp [hi] at hm
    | unwind hu =>
        -- the instruction before would have dropped the frame already
        obtain ⟨m, first, rfl, hfirst, hmov, hos⟩ := hsame .rsp .rbp (by simp) hu.2
        have hunwinds : first.Unwinds := ⟨hmov, hos.trans hu.2⟩
        rcases Nat.lt_or_ge m (opening fn slots).length with hlt | hge
        · exact absurd (.inl hunwinds) (Emit.mem_opening (h.mem_opening hlt hfirst)).1
        · obtain ⟨n, hn⟩ := (h.shifts m first hge hfirst).unwinds_iff.mp hunwinds
          rw [hstage] at hn
          cases hn

theorem thin (h : Staged fn slots code marks stage) {keep : Nat → Bool}
    (hgone : ∀ k i, code[k]? = some i → keep k = false → Optional code k i) :
    ∃ stage', Staged fn slots (Code.thin keep code) marks stage' ∧
      ∀ k ≤ code.length, stage' (rank keep k) = stage k := by
  have hsame : ∀ k < code.length, keep k = false → stage (k + 1) = stage k := by
    intro k hk hkeep
    have hi := List.getElem?_eq_getElem hk
    exact h.stage_of_optional hi (hgone k _ hi hkeep)
  obtain ⟨stage', hstage'⟩ := exists_eq_at_rank hsame
  have hkept : ∀ k < (opening fn slots).length, keep k = true := by
    intro k hk
    by_contra hkeep
    obtain ⟨rest, hrest⟩ := h.opens
    have hlt : k < code.length := by
      rw [hrest, List.length_append]
      omega
    have hi := List.getElem?_eq_getElem hlt
    exact h.not_optional hk hi (hgone k _ hi (by simpa using hkeep))
  have hopening : Code.thin keep (opening fn slots) = opening fn slots := by
    rw [thin_congr hkept, thin_true]
  have hstart : rank keep (opening fn slots).length = (opening fn slots).length := by
    rw [← thin_length, hopening]
  refine ⟨stage', ?_, hstage'⟩
  obtain ⟨rest, hrest⟩ := h.opens
  refine ⟨⟨_, by rw [hrest, thin_append, hopening]⟩, h.unmarked, ?_, ?_⟩
  · have hle : (opening fn slots).length ≤ code.length := by
      rw [hrest, List.length_append]
      omega
    have hentry := hstage' _ hle
    rwa [hstart, h.entry] at hentry
  · intro j i hj hi
    obtain ⟨k, hk, rfl, hi'⟩ := exists_of_thin_getElem? hi
    have hlt := (List.getElem?_eq_some_iff.mp hi').1
    rw [← rank_succ_of_kept hk, hstage' k hlt.le, hstage' (k + 1) hlt]
    exact h.shifts k i (hj.trans (rank_le k)) hi'

end Staged

/-- What is left of a unit's code after some passes, with the positions that were kept. Each
position has the stage that it had in the code at first, and all labels are there. -/
def Restaged (fn : FunctionDef) (slots : Nat) (code : Code) (marks : String → Option Nat)
    (stage : Nat → Stage) (next : Code) : Prop :=
  ∃ (keep : Nat → Bool) (stage' : Nat → Stage), next = Code.thin keep code ∧
    Staged fn slots next marks stage' ∧ (∀ k ≤ code.length, stage' (rank keep k) = stage k) ∧
    ∀ k i, code[k]? = some i → keep k = false → i.label = none

namespace Restaged

variable {fn : FunctionDef} {slots : Nat} {code next : Code} {marks : String → Option Nat}
  {stage : Nat → Stage}

theorem refl (h : Staged fn slots code marks stage) : Restaged fn slots code marks stage code := by
  refine ⟨fun _ => true, stage, (thin_true code).symm, h, fun k _ => ?_, by simp⟩
  simp [rank]

theorem drop (h : Restaged fn slots code marks stage next) {f : Code → Code}
    (hf : DropsOptional f) : Restaged fn slots code marks stage (f next) := by
  obtain ⟨keep, stage', rfl, hstaged, hstage, hlabels⟩ := h
  obtain ⟨keep', heq, hgone⟩ := hf (Code.thin keep code)
  obtain ⟨stage'', hstaged', hstage'⟩ := hstaged.thin hgone
  refine ⟨fun k => keep k && keep' (rank keep k), stage'', ?_, ?_, ?_, ?_⟩
  · rw [heq, thin_thin]
  · rw [heq]
    exact hstaged'
  · intro k hk
    rw [← rank_rank, hstage', hstage k hk]
    rw [thin_length]
    exact rank_mono hk
  · intro k i hi hkeep
    cases hfirst : keep k with
    | false => exact hlabels k i hi hfirst
    | true =>
        simp only [hfirst, Bool.true_and] at hkeep
        exact (hgone _ i ((thin_getElem? hfirst code).trans hi) hkeep).label

theorem pass (h : Restaged fn slots code marks stage next) (pass : Pass) :
    Restaged fn slots code marks stage (pass.run next) := by
  cases pass with
  | deadStore => exact h.drop dropsOptional_removeDeadStores
  | peephole =>
      exact peephole_of_sweepWindows (P := Restaged fn slots code marks stage)
        (fun _ hnext => hnext.drop dropsOptional_sweepWindows) h

theorem runAll (h : Restaged fn slots code marks stage next) (stages : List PipelineStage) :
    Restaged fn slots code marks stage (PipelineStage.runAll stages next).1 := by
  induction stages generalizing next with
  | nil => exact h
  | cons first rest ih =>
      apply ih
      unfold PipelineStage.run
      split
      · exact h.pass first.pass
      · exact h

end Restaged

/-- The body of a function and what it falls into. -/
theorem Poised.staged {fn : FunctionDef} {slots : Nat} {body : Code} {joints : List Joint}
    (hbody : Poised 0 body 0 joints) (hnodup : (labels (functionCode fn slots body)).Nodup) :
    ∃ marks stage, Staged fn slots (functionCode fn slots body) marks stage ∧
      ∀ joint ∈ joints, stage ((opening fn slots).length + joint.position) = .inside 0 ∧
        (functionCode fn slots body).Bears (joint.shift (opening fn slots).length) := by
  have hreturn : Poised 0 (fallthrough fn.line) 0 [] :=
    (Poised.mov (by simp [rax]) (by simp)).append .epilogue
  obtain ⟨heights, hkeys, hclimbs⟩ := hbody.append hreturn
  have hlabels : fn.name :: heights.map (·.1) = labels (functionCode fn slots body) := by
    rw [hkeys, labels_functionCode, labels_append]
    simp [fallthrough]
  rw [← hlabels, List.nodup_cons] at hnodup
  let marks : String → Option Nat := fun name => heights.lookup name
  have hmarks : ∀ e ∈ heights, marks e.1 = some e.2 :=
    fun e he => (lookup_eq_some_iff_mem hnodup.2).mpr he
  have hname : marks fn.name = none := by
    cases hlookup : marks fn.name with
    | none => rfl
    | some n =>
        have hmem := (lookup_eq_some_iff_mem hnodup.2).mp hlookup
        exact absurd (List.mem_map_of_mem hmem) hnodup.1
  obtain ⟨stage, hfirst, -, hshifts, hjoints⟩ := hclimbs marks hmarks
  refine ⟨marks, fun k => stage (k - (opening fn slots).length), ?_, ?_⟩
  · rw [functionCode_eq]
    refine ⟨⟨_, rfl⟩, hname, by rw [Nat.sub_self, hfirst], ?_⟩
    intro k i hk hi
    rw [List.getElem?_append_right hk] at hi
    rw [Nat.sub_add_comm hk]
    exact hshifts _ i hi
  · intro joint hjoint
    obtain ⟨hstage, -, hbears⟩ := hjoints joint (List.mem_append_left _ hjoint)
    refine ⟨by simp only [Nat.add_sub_cancel_left, hstage], ?_⟩
    intro word hword
    obtain ⟨i, n, hi, hlabel⟩ := hbears word hword
    refine ⟨i, n, ?_, hlabel⟩
    rw [functionCode_eq, Joint.shift, List.getElem?_append_right (Nat.le_add_right _ _),
      Nat.add_sub_cancel_left, hi]

end Code

open Code in
/-- Static stack balance. The code of every compiled function has heights that agree along its
flow graph, and that are 0 where a statement starts and at the labels of conditionals and loops.
Whatever a pipeline leaves of the code has such heights too, and each position keeps its own. -/
theorem compile_stackBalanced {source : Source} {jobs : Nat} {p : Program}
    (hcompile : source.compile jobs = .ok p) {u : Nat} {fn : FunctionDef} {unit : CompiledUnit}
    (hfn : source[u]? = some (some fn)) (hunit : p.units[u]? = some unit) :
    ∃ height, StackBalanced fn unit.slots unit.code height ∧
      (∀ joint ∈ (Tree.jointsIn fn.body).map (·.shift (opening fn unit.slots).length),
        height joint.position = 0 ∧ unit.code.Bears joint) ∧
      ∀ pipeline : Pipeline, ∃ keep height',
        (pipeline.run p).1.units[u]? = some { unit with code := thin keep unit.code } ∧
        (∀ k i, unit.code[k]? = some i → keep k = false → i.label = none) ∧
        StackBalanced fn unit.slots (thin keep unit.code) height' ∧
        ∀ k ≤ unit.code.length, height' (rank keep k) = height k := by
  obtain ⟨fns, rfl, hlinks⟩ := Source.compile_links hcompile
  have hfn' : fns[u]? = some fn := by simpa using hfn
  obtain ⟨entry, body, final, hlowered⟩ := lower_eq_ok (hlinks.lowered hfn' hunit)
  have hcode : unit.code = functionCode fn unit.slots body := by rw [hlowered.unit_eq]
  have hnodup : (labels unit.code).Nodup :=
    (List.nodup_append.mp (hlinks.unit_definedSymbols_nodup hunit)).1
  have hbody := hlowered.lowers.poised (h := 0) fun _ => rfl
  obtain ⟨marks, stage, hstaged, hjoints⟩ := hbody.staged (hcode ▸ hnodup)
  rw [← hcode] at hstaged hjoints
  refine ⟨_, hstaged.stackBalanced, ?_, ?_⟩
  · intro joint hjoint
    obtain ⟨old, hold, rfl⟩ := List.mem_map.mp hjoint
    obtain ⟨hstage, hbears⟩ := hjoints old hold
    exact ⟨congrArg Stage.height hstage, hbears⟩
  · intro pipeline
    obtain ⟨keep, stage', heq, hstaged', hstage', hlabels⟩ :=
      (Restaged.refl hstaged).runAll pipeline.stages
    refine ⟨keep, fun k => (stage' k).height, ?_, hlabels, ?_, ?_⟩
    · rw [pipeline.run_eq_mapCode, Program.mapCode_getElem?, hunit, ← heq]
      rfl
    · rw [← heq]
      exact hstaged'.stackBalanced
    · exact fun k hk => congrArg Stage.height (hstage' k hk)

/-- Counts down through a loop that updates an element with the answer of another program's
function, and leaves by one of two returns. -/
def weave : FunctionDef where
  name := "weave"
  params := ["n"]
  body := [
    .assign 2 [.name 2 "xs"]
      (.list 2 [.name 2 "n", .compare 2 .less (.name 2 "n") (.constant 2 (.int 3))]),
    .whileLoop 3 (.compare 3 .greater (.name 3 "n") (.constant 3 (.int 0))) [
      .augAssign 4 (.subscript 4 (.name 4 "xs") (.constant 4 (.int 0))) .add
        (.call 4 "probe" [.name 4 "n", .constant 4 (.int 1)]),
      .augAssign 5 (.name 5 "n") .sub (.constant 5 (.int 1))],
    .ifElse 6 (.name 6 "n") [.ret 7 (.name 7 "n")] [.expr 8 (.call 8 "weave" [.name 8 "n"])],
    .ret 9 .absent]

def weaveProgram : Program := (Source.compile [some weave] 1).toOption.getD {}

def weaveUnit : CompiledUnit := weaveProgram.units.headD { name := "" }

theorem weave_stackBalanced :
    Source.compile [some weave] 1 = .ok weaveProgram ∧ weaveProgram.units[0]? = some weaveUnit ∧
    ∃ height keep height', Code.StackBalanced weave 1 weaveUnit.code height ∧
      (∀ k ∈ [4, 27, 42, 61, 68, 69, 72, 77, 78, 82, 83], height k = 0) ∧
      (Pipeline.standard.run weaveProgram).1.units[0]? =
        some { weaveUnit with code := Code.thin keep weaveUnit.code } ∧
      Code.StackBalanced weave 1 (Code.thin keep weaveUnit.code) height' := by
  have hcompile : Source.compile [some weave] 1 = .ok weaveProgram := rfl
  have hfn : ([some weave] : Source)[0]? = some (some weave) := rfl
  have hunit : weaveProgram.units[0]? = some weaveUnit := rfl
  obtain ⟨height, hbalanced, hjoints, hpipeline⟩ := compile_stackBalanced hcompile hfn hunit
  obtain ⟨keep, height', hrun, -, hbalanced', -⟩ := hpipeline Pipeline.standard
  refine ⟨hcompile, hunit, height, keep, height', hbalanced, ?_, hrun, hbalanced'⟩
  have hpositions : ∀ k ∈ [4, 27, 42, 61, 68, 69, 72, 77, 78, 82, 83],
      ∃ joint ∈ (Tree.jointsIn weave.body).map (·.shift (opening weave weaveUnit.slots).length),
        joint.position = k := by decide
  intro k hk
  obtain ⟨joint, hjoint, rfl⟩ := hpositions k hk
  exact (hjoints joint hjoint).1

end Arbor
