import Mathlib.Tactic
import Arbor.Proofs.Alike
import Arbor.Proofs.Lockstep.Step

/-!
Runs of arbitrary code up to its first return. The code need not come from a compiler. A run
counts the instructions it executes; the bare label lines it passes are steps of the machine,
but no instructions. A unit that calls nothing stays in its code, and between two instructions
it passes each of its label lines once at most.
-/

namespace Arbor

open Exec

/-- Bare label lines do nothing, and are not counted. -/
def Instruction.weight (i : Instruction) : Nat := if i.isLabelOnly then 0 else 1

/-- A fault that only says that the run was too long. -/
def Fault.isStepLimit : Fault → Bool
  | .trap _ (.stepLimit _) => true
  | _ => false

/-- Runs up to the first return, with `budget` steps left before the limit, and answers how many
instructions were executed on the way. -/
def Exec.runToReturn (img : Image) : Nat → Exec Nat
  | 0 => do
    let s ← get
    match img.fetch? s.unit s.ip with
    | none => trap img .pastEnd
    | some i =>
      if i.mnemonic = .ret then return 0 else trap img (.stepLimit img.limits.maxSteps)
  | budget + 1 => do
    let s ← get
    match img.fetch? s.unit s.ip with
    | none => trap img .pastEnd
    | some i =>
      if i.mnemonic = .ret then return 0
      else
        let _ ← step img
        return (← runToReturn img budget) + i.weight

namespace Image

variable {img : Image}

def AtReturn (img : Image) (s : MachineState) : Prop :=
  ∃ i, img.fetch? s.unit s.ip = some i ∧ i.mnemonic = .ret

/-- Nothing is there to execute, or what is there traps. -/
def Stuck (img : Image) (s : MachineState) : Prop :=
  img.fetch? s.unit s.ip = none ∨ ∃ i e s', img.fetch? s.unit s.ip = some i ∧
    i.mnemonic ≠ .ret ∧ instruction img i s.next = .error e s'

/-- Steps without a return, whatever the step limit, with the number of instructions. -/
inductive Walks (img : Image) : MachineState → Nat → MachineState → Prop where
  | refl (s : MachineState) : Walks img s 0 s
  | step {s s₁ s' : MachineState} {i : Instruction} {n : Nat}
      (hfetch : img.fetch? s.unit s.ip = some i) (hret : i.mnemonic ≠ .ret)
      (hi : instruction img i s.next = .ok false s₁) (h : Walks img s₁ n s') :
      Walks img s (n + i.weight) s'

theorem Walks.trans {s s₁ s' : MachineState} {n m : Nat} (h : img.Walks s n s₁)
    (h' : img.Walks s₁ m s') : img.Walks s (m + n) s' := by
  induction h with
  | refl => exact h'
  | step hfetch hret hi _ ih =>
      rw [← Nat.add_assoc]
      exact .step hfetch hret hi (ih h')

theorem Walks.steps_le {s s' : MachineState} {n : Nat} (h : img.Walks s n s') :
    s.steps ≤ s'.steps := by
  induction h with
  | refl => exact le_rfl
  | step _ _ hi _ ih =>
      have hsteps := instruction_keepsSteps img _ _ _ _ hi
      simp only [MachineState.next_steps] at hsteps
      omega

end Image

namespace Exec

variable {img : Image} {s s' s₁ : MachineState} {i : Instruction}

/-- Only a return can end a call. -/
theorem eq_false_of_instruction {b : Bool} (hret : i.mnemonic ≠ .ret)
    (h : instruction img i s = .ok b s') : b = false := by
  obtain ⟨m, operands, label, line⟩ := i
  cases m with
  | none => exact (pure_eq_ok h).1.symm
  | cqo =>
      obtain ⟨v, s₁, -, h⟩ := bind_eq_ok h
      exact (continue_eq_ok h).1
  | ret => exact absurd rfl hret
  | _ => exact (continue_eq_ok h).1

theorem runToReturn_of_atReturn (h : img.AtReturn s) (budget : Nat) :
    runToReturn img budget s = .ok 0 s := by
  obtain ⟨i, hfetch, hret⟩ := h
  have hget : (get : Exec MachineState) s = .ok s s := rfl
  cases budget <;> rw [runToReturn, bind_of_ok hget, hfetch] <;> simp only [hret, if_true] <;> rfl

theorem runToReturn_past_end (h : img.fetch? s.unit s.ip = none) (budget : Nat) :
    runToReturn img budget s = .error (img.faultOf s .pastEnd) s := by
  have hget : (get : Exec MachineState) s = .ok s s := rfl
  cases budget <;> rw [runToReturn, bind_of_ok hget, h] <;> rfl

theorem runToReturn_zero (hfetch : img.fetch? s.unit s.ip = some i) (hret : i.mnemonic ≠ .ret) :
    runToReturn img 0 s = .error (img.faultOf s (.stepLimit img.limits.maxSteps)) s := by
  have hget : (get : Exec MachineState) s = .ok s s := rfl
  rw [runToReturn, bind_of_ok hget, hfetch]
  simp only [if_neg hret]
  rfl

theorem runToReturn_succ (hfetch : img.fetch? s.unit s.ip = some i) (hret : i.mnemonic ≠ .ret)
    (budget : Nat) :
    runToReturn img (budget + 1) s =
      (step img >>= fun _ => runToReturn img budget >>= fun n => pure (n + i.weight)) s := by
  have hget : (get : Exec MachineState) s = .ok s s := rfl
  rw [runToReturn, bind_of_ok hget, hfetch]
  simp only [if_neg hret]

/-- What can be at the place reached. -/
theorem place_cases (img : Image) (s : MachineState) :
    img.fetch? s.unit s.ip = none ∨ img.AtReturn s ∨
      ∃ i, img.fetch? s.unit s.ip = some i ∧ i.mnemonic ≠ .ret := by
  cases hfetch : img.fetch? s.unit s.ip with
  | none => exact .inl rfl
  | some i =>
      by_cases hret : i.mnemonic = .ret
      · exact .inr (.inl ⟨i, hfetch, hret⟩)
      · exact .inr (.inr ⟨i, rfl, hret⟩)

/-- A run that reaches a return has walked there. -/
theorem walks_of_runToReturn {budget n : Nat} (h : runToReturn img budget s = .ok n s') :
    img.Walks s n s' ∧ img.AtReturn s' := by
  induction budget generalizing s n with
  | zero =>
      rcases place_cases img s with hnone | hreturn | ⟨i, hfetch, hret⟩
      · simp [runToReturn_past_end hnone] at h
      · rw [runToReturn_of_atReturn hreturn] at h
        cases h
        exact ⟨.refl _, hreturn⟩
      · simp [runToReturn_zero hfetch hret] at h
  | succ budget ih =>
      rcases place_cases img s with hnone | hreturn | ⟨i, hfetch, hret⟩
      · simp [runToReturn_past_end hnone] at h
      · rw [runToReturn_of_atReturn hreturn] at h
        cases h
        exact ⟨.refl _, hreturn⟩
      · rw [runToReturn_succ hfetch hret] at h
        obtain ⟨b, s₁, hstep, h⟩ := bind_eq_ok h
        obtain ⟨m, s₂, hrest, h⟩ := bind_eq_ok h
        cases h
        obtain ⟨hwalks, hreturn⟩ := ih hrest
        by_cases hlimit : img.limits.maxSteps < s.steps + 1
        · obtain ⟨t, hover⟩ := step_over_limit hfetch hlimit
          simp [hover] at hstep
        · rw [step_within_limit hfetch hlimit] at hstep
          obtain rfl := eq_false_of_instruction hret hstep
          exact ⟨.step hfetch hret hstep hwalks, hreturn⟩

/-- Whoever walks to a return runs there, unless the way is longer than the step limit. -/
theorem runToReturn_of_walks {n : Nat} (h : img.Walks s n s') (hreturn : img.AtReturn s') :
    runToReturn img (img.limits.maxSteps - s.steps) s = .ok n s' ∨
      img.limits.maxSteps < s'.steps ∧ ∃ e t,
        runToReturn img (img.limits.maxSteps - s.steps) s = .error e t ∧ e.isStepLimit = true := by
  induction h with
  | refl => exact .inl (runToReturn_of_atReturn hreturn _)
  | @step s s₁ s' i n hfetch hret hi hrest ih =>
      have hsteps : s₁.steps = s.steps + 1 := instruction_keepsSteps img _ _ _ _ hi
      have hle := hrest.steps_le
      by_cases hlimit : img.limits.maxSteps < s.steps + 1
      · refine .inr ⟨by omega, img.faultOf s (.stepLimit img.limits.maxSteps), s, ?_, rfl⟩
        rw [show img.limits.maxSteps - s.steps = 0 by omega]
        exact runToReturn_zero hfetch hret
      · obtain ⟨budget, hbudget⟩ : ∃ budget, img.limits.maxSteps - s.steps = budget + 1 :=
          ⟨img.limits.maxSteps - s.steps - 1, by omega⟩
        have hbudget' : img.limits.maxSteps - s₁.steps = budget := by omega
        have hstep : step img s = .ok false s₁ := (step_within_limit hfetch hlimit).trans hi
        rw [hbudget, runToReturn_succ hfetch hret, bind_of_ok hstep, ← hbudget']
        rcases ih hreturn with hrun | ⟨hover, e, t, hrun, he⟩
        · rw [bind_of_ok hrun]
          exact .inl rfl
        · exact .inr ⟨hover, e, t, bind_of_error hrun, he⟩

/-- A run that faults within the step limit has walked to where it is stuck. -/
theorem stuck_of_runToReturn {budget : Nat} {e : Fault}
    (h : runToReturn img budget s = .error e s') (hlimit : e.isStepLimit = false) :
    ∃ n s₁, img.Walks s n s₁ ∧ img.Stuck s₁ := by
  induction budget generalizing s with
  | zero =>
      rcases place_cases img s with hnone | hreturn | ⟨i, hfetch, hret⟩
      · exact ⟨0, s, .refl s, .inl hnone⟩
      · simp [runToReturn_of_atReturn hreturn] at h
      · rw [runToReturn_zero hfetch hret] at h
        cases h
        cases hlimit
  | succ budget ih =>
      rcases place_cases img s with hnone | hreturn | ⟨i, hfetch, hret⟩
      · exact ⟨0, s, .refl s, .inl hnone⟩
      · simp [runToReturn_of_atReturn hreturn] at h
      · rw [runToReturn_succ hfetch hret] at h
        by_cases hover : img.limits.maxSteps < s.steps + 1
        · obtain ⟨t, hstep⟩ := step_over_limit hfetch hover
          rw [bind_of_error hstep] at h
          cases h
          cases hlimit
        · have hstep := step_within_limit hfetch hover
          cases hi : instruction img i s.next with
          | error e' s₁ => exact ⟨0, s, .refl s, .inr ⟨i, e', s₁, hfetch, hret, hi⟩⟩
          | ok b s₁ =>
              obtain rfl := eq_false_of_instruction hret hi
              rw [bind_of_ok (hstep.trans hi)] at h
              cases hrest : runToReturn img budget s₁ with
              | ok n s₂ =>
                  rw [bind_of_ok hrest] at h
                  cases h
              | error e' s₂ =>
                  rw [bind_of_error hrest] at h
                  cases h
                  obtain ⟨n, s₃, hwalks, hstuck⟩ := ih hrest
                  exact ⟨_, s₃, .step hfetch hret hi hwalks, hstuck⟩

/-- A run goes no further than a step that traps. -/
theorem runToReturn_of_step_error {budget : Nat} {e : Fault}
    (hfetch : img.fetch? s.unit s.ip = some i) (hret : i.mnemonic ≠ .ret)
    (hstep : step img s = .error e s') : ∃ e s', runToReturn img budget s = .error e s' := by
  cases budget with
  | zero => exact ⟨_, _, runToReturn_zero hfetch hret⟩
  | succ budget =>
      rw [runToReturn_succ hfetch hret, bind_of_error hstep]
      exact ⟨_, _, rfl⟩

/-- Whoever walks to where it is stuck faults, there or at the step limit. -/
theorem runToReturn_of_stuck {n : Nat} (h : img.Walks s n s₁) (hstuck : img.Stuck s₁) (budget : Nat) :
    ∃ e s', runToReturn img budget s = .error e s' := by
  induction h generalizing budget with
  | refl s =>
      rcases hstuck with hnone | ⟨i, e, s', hfetch, hret, hi⟩
      · exact ⟨_, _, runToReturn_past_end hnone budget⟩
      · by_cases hover : img.limits.maxSteps < s.steps + 1
        · obtain ⟨t, hstep⟩ := step_over_limit hfetch hover
          exact runToReturn_of_step_error hfetch hret hstep
        · exact runToReturn_of_step_error hfetch hret ((step_within_limit hfetch hover).trans hi)
  | @step s s₁ s' i n hfetch hret hi hrest ih =>
      by_cases hover : img.limits.maxSteps < s.steps + 1
      · obtain ⟨t, hstep⟩ := step_over_limit hfetch hover
        exact runToReturn_of_step_error hfetch hret hstep
      · cases budget with
        | zero => exact ⟨_, _, runToReturn_zero hfetch hret⟩
        | succ budget =>
            obtain ⟨e, t, hfault⟩ := ih hstuck budget
            rw [runToReturn_succ hfetch hret, bind_of_ok ((step_within_limit hfetch hover).trans hi),
              bind_of_error hfault]
            exact ⟨_, _, rfl⟩

end Exec

/-- The code of a unit, as far as its runs can tell. -/
structure Image.Holds (img : Image) (u : Nat) (code : Code) : Prop where
  fetch : ∀ k, img.fetch? u k = code[k]?
  target : ∀ label k, img.target? u label = some k ↔ ∃ i, code[k]? = some i ∧ i.label = some label

/-- Code whose runs stay in their unit. A jump with more operands than one would trap. -/
structure Code.Plain (code : Code) : Prop where
  labels : code.labels.Nodup
  calls : ∀ i ∈ code, i.mnemonic ≠ .call
  jumps : ∀ i ∈ code, i.mnemonic = .jmp → i.operands.length = 1

namespace Image

variable {p : Program} {limits : Limits} {img img' : Image} {u : Nat} {unit : CompiledUnit}

/-- What loading a program takes from it. -/
theorem eq_of_load (h : Image.load p limits = .ok img) :
    Layout.ofProgram p = .ok img.layout ∧ img.limits = limits ∧
      img.units = (p.units.map loadUnit).toArray := by
  unfold Image.load at h
  split at h
  · cases h
  · rename_i layout hlayout
    cases h
    exact ⟨hlayout, rfl, rfl⟩

theorem holds_of_load (h : Image.load p limits = .ok img) (hunit : p.units[u]? = some unit)
    (hlabels : (Code.labels unit.code).Nodup) : img.Holds u unit.code where
  fetch := by
    intro k
    rw [fetch?, (eq_of_load h).2.2]
    simp [hunit, loadUnit]
  target := by
    intro label k
    rw [target?, (eq_of_load h).2.2, ← lookup_labels_iff hlabels]
    simp [hunit]

/-- Other code is loaded at the same place. -/
theorem load_mapCode (h : Image.load p limits = .ok img) (f : Code → Code) :
    ∃ img', Image.load (p.mapCode f) limits = .ok img' ∧ img.SharesLayout img' := by
  obtain ⟨hlayout, hlimits, -⟩ := eq_of_load h
  have hlayout' : Layout.ofProgram (p.mapCode f) = .ok img.layout := by
    rw [← hlayout, Layout.ofProgram, Layout.ofProgram, Program.requests_mapCode]
  unfold Image.load
  rw [hlayout']
  exact ⟨_, rfl, rfl, hlimits.symm⟩

end Image

theorem Machine.image_of_load {p : Program} {limits : Limits} {m : Machine}
    (h : Machine.load p limits = .ok m) : Image.load p limits = .ok m.image := by
  unfold Machine.load at h
  split at h
  · rename_i img himage
    cases h
    exact himage
  · cases h

/-- The bare label lines of the code. -/
def Code.labelLines (code : Code) : Nat := code.countP (·.isLabelOnly)

/-- An instruction that stays in its unit. -/
theorem Exec.unit_of_instruction {img : Image} {i : Instruction} {s s' : MachineState}
    (hcall : i.mnemonic ≠ .call) (hret : i.mnemonic ≠ .ret)
    (h : instruction img i s = .ok false s') : s'.unit = s.unit := by
  have htarget : ∀ label, (∃ k k', img.target? s.unit label = some k ∧
      img.target? s.unit label = some k' ∧ True) ∨
      (img.target? s.unit label = none ∧ img.target? s.unit label = none) := by
    intro label
    cases img.target? s.unit label with
    | none => exact .inr ⟨rfl, rfl⟩
    | some k => exact .inl ⟨k, k, rfl, rfl, trivial⟩
  rcases instruction_alike ⟨rfl, rfl⟩ htarget hcall hret s s
    ⟨rfl, rfl, rfl, fun _ => rfl, rfl, rfl, trivial⟩ with ⟨b, s₁, t₁, hs, -, hsame⟩ | ⟨_, _, _, _, hs, -⟩
  · rw [h] at hs
    cases hs
    exact hsame.unit
  · rw [h] at hs
    cases hs

/-- Between two instructions a run passes each bare label line once at most. -/
theorem Image.Walks.steps_le_add {img : Image} {u : Nat} {code : Code} {s s' : MachineState} {n : Nat}
    (hcode : img.Holds u code) (hplain : code.Plain) (h : img.Walks s n s') (hunit : s.unit = u) :
    s'.steps ≤ s.steps + n * (code.labelLines + 1) + Code.labelLines (code.drop s.ip) := by
  induction h with
  | refl => omega
  | @step s s₁ s' i n hfetch hret hi hrest ih =>
      have hsteps : s₁.steps = s.steps + 1 := instruction_keepsSteps img _ _ _ _ hi
      have hat : code[s.ip]? = some i := by rw [← hcode.fetch, ← hunit, hfetch]
      have hunit₁ := unit_of_instruction (hplain.calls i (List.mem_of_getElem? hat)) hret hi
      have hrest := ih (hunit₁.trans hunit)
      by_cases hline : i.isLabelOnly = true
      · have hip : s₁.ip = s.ip + 1 := by
          have hm : i.mnemonic = .none := by simpa [Instruction.isLabelOnly] using hline
          unfold instruction at hi
          rw [hm] at hi
          cases hi
          rfl
        obtain ⟨hlt, hget⟩ := List.getElem?_eq_some_iff.mp hat
        have hdrop : Code.labelLines (code.drop s.ip) = Code.labelLines (code.drop s₁.ip) + 1 := by
          rw [hip, List.drop_eq_getElem_cons hlt, hget, Code.labelLines, List.countP_cons_of_pos hline]
          rfl
        rw [Instruction.weight, if_pos hline, Nat.add_zero]
        omega
      · have hle : Code.labelLines (code.drop s₁.ip) ≤ code.labelLines :=
          (List.drop_sublist _ _).countP_le
        rw [Instruction.weight, if_neg hline, Nat.add_mul]
        omega

end Arbor
