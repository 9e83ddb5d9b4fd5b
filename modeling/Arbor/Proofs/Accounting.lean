import Mathlib.Tactic
import Arbor.Proofs.StackBalance

/-!
What a pipeline takes away, and how it counts that. Whatever its stages are, it leaves out
unlabelled moves and jumps only, so labels, bare lines and all other instructions stay in their
order. A stage never adds an instruction, so each count is a difference that does not fall below
zero, and the counts of all stages add up to what the whole program has lost.
-/

namespace Arbor

/-- An unlabelled move or jump. -/
def Instruction.isExpendable (i : Instruction) : Bool :=
  i.label.isNone && (i.mnemonic == .mov || i.mnemonic == .jmp)

namespace Code

/-- What has to stay, in order. -/
def fixed (code : Code) : Code := code.filter fun i => !i.isExpendable

theorem Optional.isExpendable {code : Code} {k : Nat} {i : Instruction} (h : Optional code k i) :
    i.isExpendable = true := by
  rcases h.jump_or_move with hm | ⟨hm, -⟩
  · simp [Instruction.isExpendable, h.label, hm]
  · simp [Instruction.isExpendable, h.label, hm]

/-- If only expendable instructions go, all the others stay. -/
theorem fixed_thin {keep : Nat → Bool} {code : Code}
    (h : ∀ k i, code[k]? = some i → keep k = false → i.isExpendable = true) :
    fixed (thin keep code) = fixed code := by
  rw [fixed, fixed, ← List.filterMap_eq_filter]
  apply filterMap_thin
  intro k i hi hk
  simp [h k i hi hk]

/-- A transformation that leaves out expendable instructions and does nothing else. -/
structure Prunes (f : Code → Code) : Prop where
  sublist : ∀ code, (f code).Sublist code
  fixed_eq : ∀ code, fixed (f code) = fixed code

namespace Prunes

theorem id : Prunes fun code => code where
  sublist := fun code => List.Sublist.refl code
  fixed_eq := fun _ => rfl

theorem comp {f g : Code → Code} (hg : Prunes g) (hf : Prunes f) :
    Prunes fun code => g (f code) where
  sublist := fun code => (hg.sublist (f code)).trans (hf.sublist code)
  fixed_eq := fun code => (hg.fixed_eq (f code)).trans (hf.fixed_eq code)

theorem of_dropsOptional {f : Code → Code} (hf : DropsOptional f) : Prunes f := by
  constructor
  · intro code
    obtain ⟨keep, heq, -⟩ := hf code
    rw [heq]
    exact thin_sublist code
  · intro code
    obtain ⟨keep, heq, hgone⟩ := hf code
    rw [heq]
    apply fixed_thin
    intro k i hi hk
    exact (hgone k i hi hk).isExpendable

/-- Repeated sweeps prune, because one sweep does. -/
theorem peephole : Prunes peephole where
  sublist := Trims.peephole.sublist
  fixed_eq := by
    intro code
    apply peephole_of_sweepWindows (P := fun next => fixed next = fixed code)
    · intro next h
      exact ((of_dropsOptional dropsOptional_sweepWindows).fixed_eq next).trans h
    · rfl

theorem run (pass : Pass) : Prunes pass.run := by
  cases pass with
  | deadStore => exact of_dropsOptional dropsOptional_removeDeadStores
  | peephole => exact peephole

theorem stage (stage : PipelineStage) : Prunes stage.run := by
  unfold PipelineStage.run
  split
  · exact run stage.pass
  · exact id

end Prunes

end Code

namespace PipelineStage

/-- The code that stages hand on to each other. -/
def through (stages : List PipelineStage) (code : Code) : Code :=
  stages.foldl (fun code stage => stage.run code) code

theorem through_cons (stage : PipelineStage) (rest : List PipelineStage) (code : Code) :
    through (stage :: rest) code = through rest (stage.run code) := List.foldl_cons ..

theorem prunes_through (stages : List PipelineStage) : Code.Prunes (through stages) := by
  induction stages with
  | nil => exact .id
  | cons stage rest ih => exact ih.comp (.stage stage)

/-- A stage hands on no more than it was given. -/
theorem length_run_le (stage : PipelineStage) (code : Code) :
    (stage.run code).length ≤ code.length :=
  ((Code.Prunes.stage stage).sublist code).length_le

theorem runAll_code (stages : List PipelineStage) (code : Code) :
    (runAll stages code).1 = through stages code := by
  induction stages generalizing code with
  | nil => rfl
  | cons stage rest ih => exact ih (stage.run code)

/-- Each count is the difference between what the stage was given and what it handed on. -/
theorem runAll_removed (stages : List PipelineStage) (code : Code) :
    (runAll stages code).2 = (List.range stages.length).map fun k =>
      (through (stages.take k) code).length - (through (stages.take (k + 1)) code).length := by
  induction stages generalizing code with
  | nil => rfl
  | cons stage rest ih =>
      rw [runAll, List.length_cons, List.range_succ_eq_map, List.map_cons, List.map_map]
      dsimp only
      rw [ih]
      rfl

/-- What the stages have removed and what is left make up what was there. -/
theorem sum_removed (stages : List PipelineStage) (code : Code) :
    (runAll stages code).2.sum + (through stages code).length = code.length := by
  induction stages generalizing code with
  | nil => simp [runAll, through]
  | cons stage rest ih =>
      have hrest := ih (stage.run code)
      have hle := stage.length_run_le code
      rw [runAll, through_cons]
      dsimp only
      rw [List.sum_cons]
      omega

end PipelineStage

/-- Lists of counts are added up place by place. -/
theorem foldl_zipWith_add {α : Type} (n : Nat) (count : α → Nat → Nat) (start : Nat → Nat)
    (xs : List α) :
    xs.foldl (fun total x => List.zipWith (· + ·) total ((List.range n).map (count x)))
      ((List.range n).map start) =
      (List.range n).map fun k => start k + (xs.map fun x => count x k).sum := by
  induction xs generalizing start with
  | nil => simp
  | cons x rest ih =>
      rw [List.foldl_cons, List.zipWith_map, List.zipWith_self, ih]
      simp [Nat.add_assoc]

theorem sum_range_sum {α : Type} (n : Nat) (count : α → Nat → Nat) (xs : List α) :
    ((List.range n).map fun k => (xs.map fun x => count x k).sum).sum =
      (xs.map fun x => ((List.range n).map (count x)).sum).sum := by
  induction xs with
  | nil => simp
  | cons x rest ih => simp only [List.map_cons, List.sum_cons, List.sum_map_add, ih]

/-- The number of instructions of all units. -/
def Program.size (p : Program) : Nat := (p.units.map fun unit => unit.code.length).sum

namespace Pipeline

/-- The code of a unit after so many stages. -/
def codeAfter (pipeline : Pipeline) (k : Nat) (unit : CompiledUnit) : Code :=
  PipelineStage.through (pipeline.stages.take k) unit.code

/-- How many instructions of a unit a stage removes. -/
def removedAt (pipeline : Pipeline) (unit : CompiledUnit) (k : Nat) : Nat :=
  (pipeline.codeAfter k unit).length - (pipeline.codeAfter (k + 1) unit).length

variable {pipeline : Pipeline} {k : Nat} {stage : PipelineStage}

theorem codeAfter_succ (hk : pipeline.stages[k]? = some stage) (unit : CompiledUnit) :
    pipeline.codeAfter (k + 1) unit = stage.run (pipeline.codeAfter k unit) := by
  rw [codeAfter, codeAfter, List.take_add_one, hk, PipelineStage.through, List.foldl_append]
  rfl

theorem codeAfter_length (pipeline : Pipeline) (unit : CompiledUnit) :
    pipeline.codeAfter pipeline.stages.length unit = (pipeline.runUnit unit).code := by
  rw [codeAfter, List.take_length, runUnit, PipelineStage.runAll_code]

theorem removedFrom_eq (pipeline : Pipeline) (units : List CompiledUnit) :
    pipeline.removedFrom units = (List.range pipeline.stages.length).map fun k =>
      (units.map fun unit => pipeline.removedAt unit k).sum := by
  have hstart : (pipeline.stages.map fun _ => 0) =
      (List.range pipeline.stages.length).map fun _ => 0 := by
    simp only [List.map_const', List.length_range]
  have hcounts := foldl_zipWith_add pipeline.stages.length pipeline.removedAt (fun _ => 0) units
  simp only [Nat.zero_add] at hcounts
  simp only [removedFrom, PipelineStage.runAll_removed, hstart]
  exact hcounts

theorem stats_getElem? (hk : pipeline.stages[k]? = some stage) (p : Program) :
    (pipeline.run p).2.stats[k]? = some {
      pass := stage.pass
      removed := (p.units.map fun unit => pipeline.removedAt unit k).sum } := by
  obtain ⟨hlt, rfl⟩ := List.getElem?_eq_some_iff.mp hk
  simp [run, removedFrom_eq, hlt]

theorem stats_removed (pipeline : Pipeline) (p : Program) :
    (pipeline.run p).2.stats.map (·.removed) = pipeline.removedFrom p.units := by
  have hlength : (pipeline.removedFrom p.units).length = pipeline.stages.length := by
    simp [removedFrom_eq]
  apply List.ext_getElem
  · simp [run, hlength]
  · intro k hk hk'
    simp [run]

/-- The counts of all stages are what the units have lost. -/
theorem sum_stats (pipeline : Pipeline) (p : Program) :
    ((pipeline.run p).2.stats.map (·.removed)).sum + (pipeline.run p).1.size = p.size := by
  have hunit : ∀ unit : CompiledUnit,
      ((List.range pipeline.stages.length).map (pipeline.removedAt unit)).sum +
        (pipeline.runUnit unit).code.length = unit.code.length := by
    intro unit
    have hsum := PipelineStage.sum_removed pipeline.stages unit.code
    rw [PipelineStage.runAll_removed] at hsum
    rw [runUnit, PipelineStage.runAll_code]
    exact hsum
  rw [stats_removed, removedFrom_eq, sum_range_sum, Program.size, Program.size, run, List.map_map,
    ← List.sum_map_add]
  exact congrArg List.sum (List.map_congr_left fun unit _ => hunit unit)

/-- Passes only delete, and the pipeline accounts for it. A run over a program does to each unit
what a run over the unit alone does: it changes nothing but the code, which goes through the stages
in turn and loses unlabelled moves and jumps only. The count of a stage is what it was given less
what it handed on, in every unit, which is never negative, and is nothing if the stage is switched
off. All counts together are the instructions that the program has lost. -/
theorem run_prunes (pipeline : Pipeline) (p : Program) :
    (pipeline.run p).1 = { p with units := p.units.map pipeline.runUnit } ∧
    (∀ unit, pipeline.codeAfter 0 unit = unit.code ∧
      ∃ code, code = pipeline.codeAfter pipeline.stages.length unit ∧
        pipeline.runUnit unit = { unit with code := code } ∧
        code.Sublist unit.code ∧ code.fixed = unit.code.fixed) ∧
    (pipeline.run p).2.stats.length = pipeline.stages.length ∧
    (∀ k stage, pipeline.stages[k]? = some stage →
      (∀ unit, pipeline.codeAfter (k + 1) unit = stage.run (pipeline.codeAfter k unit) ∧
        (pipeline.codeAfter (k + 1) unit).length ≤ (pipeline.codeAfter k unit).length) ∧
      ∃ removed, (pipeline.run p).2.stats[k]? = some { pass := stage.pass, removed := removed } ∧
        removed = (p.units.map fun unit =>
          (pipeline.codeAfter k unit).length - (pipeline.codeAfter (k + 1) unit).length).sum ∧
        (stage.enabled = false → removed = 0)) ∧
    ((pipeline.run p).2.stats.map (·.removed)).sum + (pipeline.run p).1.size = p.size := by
  have hlength : (pipeline.run p).2.stats.length = pipeline.stages.length := by
    simp [run, removedFrom_eq]
  refine ⟨rfl, ?_, hlength, ?_, sum_stats pipeline p⟩
  · intro unit
    have hprunes := PipelineStage.prunes_through pipeline.stages
    refine ⟨rfl, _, rfl, ?_, ?_⟩
    · rw [codeAfter_length]
      rfl
    · rw [codeAfter, List.take_length]
      exact ⟨hprunes.sublist unit.code, hprunes.fixed_eq unit.code⟩
  · intro k stage hk
    have hsucc := codeAfter_succ hk
    constructor
    · intro unit
      rw [hsucc]
      exact ⟨rfl, stage.length_run_le _⟩
    · refine ⟨_, stats_getElem? hk p, rfl, ?_⟩
      intro hoff
      apply List.sum_eq_zero
      intro n hn
      obtain ⟨unit, -, rfl⟩ := List.mem_map.mp hn
      rw [removedAt, hsucc, PipelineStage.run, hoff]
      simp

end Pipeline

end Arbor
