import Mathlib.Tactic
import Arbor.Optimize.Liveness
import Arbor.Proofs.Execution

/-!
Calls under watch. A check looks at every step of a call: at the state, at the
instruction, and at the slots that the activation has stored to so far. Two checks matter
to a call whose result is to depend on its arguments and the data area only: a local is
loaded after it was stored to, and an element is accessed outside the stack.
-/

namespace Arbor

namespace Instruction

/-- Every local that the instruction loads has been stored to. Parameters come with a word. -/
def loadsStored (i : Instruction) (stored : List Word) : Bool :=
  i.slotsRead.all fun d => decide (0 ≤ d) || stored.contains d

/-- The slots stored to after an instruction, with one list for every activation. -/
def track (i : Instruction) (stored : List (List Word)) : List (List Word) :=
  match i.mnemonic, stored with
  | .call, _ => [] :: stored
  | .ret, _ => stored.tail
  | _, [] => []
  | _, top :: rest =>
    match i.slotWritten? with
    | some d => (d :: top) :: rest
    | none => stored

end Instruction

namespace Operand

/-- An operand with an index register addresses an element of a region. -/
def isElement (o : Operand) : Bool := o.kind == .memory && o.index != .none

def elementAddress (o : Operand) (rs : Registers) : Address :=
  (rs.get o.reg).toUInt64 + 8 * (rs.get o.index).toUInt64 + o.value.toUInt64

end Operand

/-- No element that the instruction accesses lies in the stack area. -/
def Image.elementsOffStack (img : Image) (s : MachineState) (i : Instruction) : Bool :=
  i.operands.all fun o => !o.isElement || !img.isStack (o.elementAddress s.regs)

/-- The instruction loads what was stored to and keeps off the stack. -/
def Image.careful (img : Image) (s : MachineState) (stored : List Word) (i : Instruction) : Bool :=
  i.loadsStored stored && img.elementsOffStack s i

/-- What is checked of one step, with the slots its activation has stored to. -/
abbrev StepCheck := MachineState → List Word → Instruction → Bool

namespace Exec

/-- Whether a run passes the check at every step, for as long as the budget lasts. -/
def everyStep (img : Image) (check : StepCheck) :
    Nat → List (List Word) → MachineState → Bool
  | 0, _, _ => true
  | budget + 1, stored, s =>
    match img.fetch? s.unit s.ip with
    | none => true
    | some i =>
      check s (stored.headD []) i &&
        match step img s with
        | .ok false s' => everyStep img check budget (i.track stored) s'
        | _ => true

theorem everyStep_and (img : Image) (check check' : StepCheck) (budget : Nat)
    (stored : List (List Word)) (s : MachineState) :
    everyStep img (fun s stored i => check s stored i && check' s stored i) budget stored s =
      (everyStep img check budget stored s && everyStep img check' budget stored s) := by
  induction budget generalizing stored s with
  | zero => rfl
  | succ budget ih =>
      simp only [everyStep]
      cases img.fetch? s.unit s.ip with
      | none => rfl
      | some i =>
          dsimp only
          cases step img s with
          | error e s' => simp only [Bool.and_true]
          | ok b s' =>
              cases b with
              | true => simp only [Bool.and_true]
              | false =>
                  simp only [ih]
                  ac_rfl

/-- A check that every instruction of the program passes. -/
theorem everyStep_of_forall {img : Image} {check : StepCheck}
    (h : ∀ u k i s stored, img.fetch? u k = some i → check s stored i = true) (budget : Nat)
    (stored : List (List Word)) (s : MachineState) :
    everyStep img check budget stored s = true := by
  induction budget generalizing stored s with
  | zero => rfl
  | succ budget ih =>
      rw [everyStep]
      cases hfetch : img.fetch? s.unit s.ip with
      | none => rfl
      | some i =>
          dsimp only
          rw [h _ _ i s _ hfetch, Bool.true_and]
          split
          · exact ih _ _
          · rfl

/-- A run to the end of the call that passes the check at every step, whatever the step
limit. -/
inductive Passes (img : Image) (check : StepCheck) :
    List (List Word) → MachineState → MachineState → Prop where
  | last {stored : List (List Word)} {s s' : MachineState} {i : Instruction}
      (hi : img.fetch? s.unit s.ip = some i) (hcheck : check s (stored.headD []) i = true)
      (h : instruction img i s.next = .ok true s') : Passes img check stored s s'
  | step {stored : List (List Word)} {s s₁ s' : MachineState} {i : Instruction}
      (hi : img.fetch? s.unit s.ip = some i) (hcheck : check s (stored.headD []) i = true)
      (h : instruction img i s.next = .ok false s₁)
      (hrest : Passes img check (i.track stored) s₁ s') : Passes img check stored s s'

section Passes

variable {img : Image} {check : StepCheck} {stored : List (List Word)} {s s' : MachineState}

theorem Passes.steps_lt (h : Passes img check stored s s') : s.steps < s'.steps := by
  induction h with
  | last _ _ h =>
      rw [instruction_keepsSteps img _ _ _ _ h, MachineState.next_steps]
      omega
  | step _ _ h _ ih =>
      rw [instruction_keepsSteps img _ _ _ _ h, MachineState.next_steps] at ih
      omega

/-- A run within the step limit that passes the check. -/
theorem passes_of_run {budget : Nat} (hbudget : budget = img.limits.maxSteps - s.steps)
    (hrun : run img budget s = .ok () s') (hevery : everyStep img check budget stored s = true) :
    Passes img check stored s s' ∧ s'.steps ≤ img.limits.maxSteps := by
  induction budget generalizing s stored with
  | zero =>
      obtain ⟨b, s₁, hstep, -⟩ := bind_eq_ok hrun
      rw [step_eq] at hstep
      split at hstep
      · cases hstep
      · rw [if_pos (by omega)] at hstep
        cases hstep
  | succ budget ih =>
      obtain ⟨b, s₁, hstep, hrun⟩ := bind_eq_ok hrun
      rw [everyStep] at hevery
      have hstep' := hstep
      rw [step_eq] at hstep
      cases hfetch : img.fetch? s.unit s.ip with
      | none =>
          rw [hfetch] at hstep
          cases hstep
      | some i =>
          rw [hfetch] at hstep hevery
          dsimp only at hstep hevery
          rw [if_neg (by omega)] at hstep
          rw [hstep', Bool.and_eq_true] at hevery
          have hsteps : s₁.steps = s.steps + 1 := instruction_keepsSteps img i _ _ _ hstep
          cases b with
          | true =>
              cases hrun
              exact ⟨.last hfetch hevery.1 hstep, by omega⟩
          | false =>
              obtain ⟨hpasses, hle⟩ := ih (by omega) hrun hevery.2
              exact ⟨.step hfetch hevery.1 hstep hpasses, hle⟩

/-- A run that passes the check and stays within the step limit. -/
theorem run_of_passes (h : Passes img check stored s s') (hle : s'.steps ≤ img.limits.maxSteps) :
    run img (img.limits.maxSteps - s.steps) s = .ok () s' ∧
      everyStep img check (img.limits.maxSteps - s.steps) stored s = true := by
  induction h with
  | @last stored s s' i hfetch hcheck h =>
      have hsteps : s'.steps = s.steps + 1 := instruction_keepsSteps img i _ _ _ h
      obtain ⟨budget, hbudget⟩ : ∃ budget, img.limits.maxSteps - s.steps = budget + 1 :=
        ⟨img.limits.maxSteps - s.steps - 1, by omega⟩
      have hstep : step img s = .ok true s' := by
        rw [step_eq, hfetch]
        dsimp only
        rw [if_neg (by omega), h]
      rw [hbudget, run, bind_of_ok hstep, everyStep, hfetch]
      dsimp only
      rw [hstep, hcheck]
      exact ⟨rfl, rfl⟩
  | @step stored s s₁ s' i hfetch hcheck h hrest ih =>
      have hsteps : s₁.steps = s.steps + 1 := instruction_keepsSteps img i _ _ _ h
      have hlt := hrest.steps_lt
      obtain ⟨budget, hbudget⟩ : ∃ budget, img.limits.maxSteps - s.steps = budget + 1 :=
        ⟨img.limits.maxSteps - s.steps - 1, by omega⟩
      have hbudget' : img.limits.maxSteps - s₁.steps = budget := by omega
      have hstep : step img s = .ok false s₁ := by
        rw [step_eq, hfetch]
        dsimp only
        rw [if_neg (by omega), h]
      obtain ⟨hrun, hevery⟩ := ih hle
      rw [hbudget'] at hrun hevery
      rw [hbudget, run, bind_of_ok hstep, everyStep, hfetch]
      dsimp only
      rw [hstep, hcheck, Bool.true_and]
      exact ⟨hrun, hevery⟩

end Passes

/-- The part of a call before its first instruction. -/
def enterFunction (img : Image) (name : String) (args : List Word) : Exec Unit := do
  match img.functions.lookup name with
  | none => throw (.unknownFunction name)
  | some unit =>
    modify fun s => { s with regs := { rsp := Image.stackTop.toInt64 } }
    pushArgs img args
    push img returnSentinel
    modify fun s => { s with unit := unit, ip := 0 }

/-- A call enters the function, runs it and answers `rax`. -/
theorem callFunction_eq (img : Image) (name : String) (args : List Word) :
    callFunction img name args =
      (enterFunction img name args >>= fun _ => get >>= fun s =>
        run img (img.limits.maxSteps - s.steps) >>= fun _ => reg .rax : Exec Word) := by
  unfold callFunction enterFunction
  cases img.functions.lookup name with
  | none => rfl
  | some unit => simp only [bind_assoc]

theorem callFunction_eq_ok {img : Image} {name : String} {args : List Word} {s s' : MachineState}
    {v : Word} :
    callFunction img name args s = .ok v s' ↔
      ∃ s₁, enterFunction img name args s = .ok () s₁ ∧
        run img (img.limits.maxSteps - s₁.steps) s₁ = .ok () s' ∧ s'.regs.rax = v := by
  rw [callFunction_eq]
  constructor
  · intro h
    obtain ⟨_, s₁, henter, h⟩ := bind_eq_ok h
    obtain ⟨_, _, hget, h⟩ := bind_eq_ok h
    cases hget
    obtain ⟨_, s₂, hrun, h⟩ := bind_eq_ok h
    cases h
    exact ⟨s₁, henter, hrun, rfl⟩
  · rintro ⟨s₁, henter, hrun, rfl⟩
    have hget : (get : Exec MachineState) s₁ = .ok s₁ s₁ := rfl
    rw [bind_of_ok henter, bind_of_ok hget, bind_of_ok hrun]
    rfl

theorem enterFunction_confined (img : Image) (name : String) (args : List Word) :
    Confined img (enterFunction img name args) := by
  unfold enterFunction
  split
  · exact .of_same fun _ => ⟨rfl, rfl⟩
  · apply Confined.bind
    · exact .modify fun _ => ⟨rfl, rfl⟩
    · exact fun _ => .bind (.pushArgs args) fun _ => .bind (.push _) fun _ =>
        .modify fun _ => ⟨rfl, rfl⟩

/-- A call that returns has kept to the step limit. -/
theorem steps_of_callFunction {img : Image} {name : String} {args : List Word}
    {s s' : MachineState} {v : Word} (h : callFunction img name args s = .ok v s') :
    s.steps ≤ s'.steps ∧ s'.steps ≤ img.limits.maxSteps := by
  obtain ⟨s₁, henter, hrun, -⟩ := callFunction_eq_ok.mp h
  have hsteps : s₁.steps = s.steps := (enterFunction_confined img name args).keepsSteps _ _ _ henter
  have hevery : everyStep img (fun _ _ _ => true) (img.limits.maxSteps - s₁.steps) [] s₁ = true :=
    everyStep_of_forall (fun _ _ _ _ _ _ => rfl) _ _ _
  obtain ⟨hpasses, hle⟩ := passes_of_run rfl hrun hevery
  have hlt := hpasses.steps_lt
  omega

end Exec

namespace Machine

/-- Whether a call passes the check at every step. -/
def everyStep (m : Machine) (check : StepCheck) (name : String) (args : List Word) : Bool :=
  match Exec.enterFunction m.image name args m.state with
  | .ok _ s => Exec.everyStep m.image check (m.image.limits.maxSteps - s.steps) [[]] s
  | .error _ _ => true

theorem everyStep_of_forall {m : Machine} {check : StepCheck} {name : String} {args : List Word}
    (h : ∀ u k i s stored, m.image.fetch? u k = some i → check s stored i = true) :
    m.everyStep check name args = true := by
  unfold everyStep
  split
  · exact Exec.everyStep_of_forall h _ _ _
  · rfl

theorem call_eq_ok {m m' : Machine} {name : String} {args : List Word} {v : Word} :
    m.call name args = (.ok v, m') ↔
      ∃ s, Exec.callFunction m.image name args m.state = .ok v s ∧ m' = { m with state := s } := by
  unfold call
  cases Exec.callFunction m.image name args m.state with
  | ok w s => simp [Prod.ext_iff, eq_comm]
  | error e s => simp

/-- Every load of a local's slot comes after a store to it in the same activation. -/
def LoadsFollowStores (m : Machine) (name : String) (args : List Word) : Prop :=
  m.everyStep (fun _ stored i => i.loadsStored stored) name args = true

/-- No access to an element touches the stack area. -/
def ElementsOffStack (m : Machine) (name : String) (args : List Word) : Prop :=
  m.everyStep (fun s _ i => m.image.elementsOffStack s i) name args = true

/-- The two checks in one. -/
theorem everyStep_careful {m : Machine} {name : String} {args : List Word} :
    m.everyStep m.image.careful name args = true ↔
      m.LoadsFollowStores name args ∧ m.ElementsOffStack name args := by
  unfold LoadsFollowStores ElementsOffStack everyStep
  cases Exec.enterFunction m.image name args m.state with
  | error e s => simp
  | ok _ s =>
      dsimp only
      rw [← Bool.and_eq_true, ← Exec.everyStep_and]
      rfl

end Machine

end Arbor
