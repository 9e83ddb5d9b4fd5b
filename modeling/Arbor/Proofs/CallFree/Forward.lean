import Mathlib.Tactic
import Arbor.Proofs.Execution
import Arbor.Proofs.CallFree.Reckoning

/-!
Runs that only go forward. The code of an expression without calls has no way back, so
every step comes nearer to its end, and no more steps are taken than it has instructions.
A run may end in a trap before. What the code owes to an outcome is said in these terms:
a value has to be reached, a fault has to trap, and after a stray look either may happen.
-/

namespace Arbor

open Exec

/-- Runs until a position of the code is reached, for so many steps at most. -/
def Exec.runTo (img : Image) (place : Nat) : Nat → Exec Unit
  | 0 => return ()
  | n + 1 => do
    if (← get).ip = place then return ()
    else
      let _ ← step img
      runTo img place n

namespace Image

variable {img : Image} {bound : Nat} {s s₁ s' : MachineState} {post post' : MachineState → Prop}
  {fault fault' : Prop}

/-- A step towards the bound, whatever the step limit. -/
structure Advances (img : Image) (bound : Nat) (s s₁ : MachineState) : Prop where
  steps : img.Steps s s₁
  lt : s.ip < s₁.ip
  le : s₁.ip ≤ bound

/-- Steps towards the bound lead to a state as described, or to a trap if that may happen. -/
inductive Comes (img : Image) (bound : Nat) (post : MachineState → Prop) (fault : Prop) :
    MachineState → Prop where
  | done {s : MachineState} (h : post s) : Comes img bound post fault s
  | trap {s s' : MachineState} {i : Instruction} {e : Fault} (hfault : fault) (hip : s.ip < bound)
      (hfetch : img.fetch? s.unit s.ip = some i) (hi : instruction img i s.next = .error e s') :
      Comes img bound post fault s
  | step {s s₁ : MachineState} (hstep : img.Advances bound s s₁)
      (h : Comes img bound post fault s₁) : Comes img bound post fault s

namespace Comes

theorem bind (h : img.Comes bound post fault s)
    (hnext : ∀ s', post s' → img.Comes bound post' fault s') : img.Comes bound post' fault s := by
  induction h with
  | done h => exact hnext _ h
  | trap hfault hip hfetch hi => exact .trap hfault hip hfetch hi
  | step hstep _ ih => exact .step hstep ih

theorem mono (h : img.Comes bound post fault s) (hpost : ∀ s', post s' → post' s')
    (hfault : fault → fault') : img.Comes bound post' fault' s := by
  induction h with
  | done h => exact .done (hpost _ h)
  | trap h hip hfetch hi => exact .trap (hfault h) hip hfetch hi
  | step hstep _ ih => exact .step hstep ih

/-- A run to the bound ends as described or faults. Apart from a trap that may happen, only the
step limit can be the reason. -/
theorem runTo (h : img.Comes bound post fault s) (hpost : ∀ s', post s' → s'.ip = bound) {n : Nat}
    (hn : bound ≤ s.ip + n) :
    (∃ s', runTo img bound n s = .ok () s' ∧ post s') ∨
      ∃ e s', runTo img bound n s = .error e s' ∧ (fault ∨ img.limits.maxSteps < s.steps + n) := by
  have hget : ∀ s : MachineState, (get : Exec MachineState) s = .ok s s := fun _ => rfl
  -- one step of the run, at a place before the bound
  have unfoldStep : ∀ (s : MachineState) (n : Nat), s.ip < bound →
      Exec.runTo img bound (n + 1) s = (Exec.step img >>= fun _ => Exec.runTo img bound n) s := by
    intro s n hlt
    rw [Exec.runTo, bind_of_ok (hget s), if_neg (Nat.ne_of_lt hlt)]
  induction h generalizing n with
  | @done s h =>
      refine .inl ⟨s, ?_, h⟩
      cases n with
      | zero => rfl
      | succ n =>
          rw [Exec.runTo, bind_of_ok (hget s), if_pos (hpost s h)]
          rfl
  | @trap s s' i e hfault hip hfetch hi =>
      obtain ⟨n, rfl⟩ : ∃ k, n = k + 1 := ⟨n - 1, by omega⟩
      right
      by_cases hover : img.limits.maxSteps < s.steps + 1
      · obtain ⟨s'', hstep⟩ := step_over_limit hfetch hover
        exact ⟨_, s'', by rw [unfoldStep s n hip, bind_of_error hstep], .inl hfault⟩
      · have hstep : Exec.step img s = .error e s' := (step_within_limit hfetch hover).trans hi
        exact ⟨e, s', by rw [unfoldStep s n hip, bind_of_error hstep], .inl hfault⟩
  | @step s s₁ hstep _ ih =>
      have hlt := hstep.lt
      have hle := hstep.le
      have hsteps := hstep.steps.steps_eq
      obtain ⟨n, rfl⟩ : ∃ k, n = k + 1 := ⟨n - 1, by omega⟩
      rw [unfoldStep s n (by omega)]
      by_cases hover : img.limits.maxSteps < s.steps + 1
      · obtain ⟨i, hfetch, -⟩ := hstep.steps
        obtain ⟨s', hstep⟩ := step_over_limit hfetch hover
        exact .inr ⟨_, s', bind_of_error hstep, .inr (by omega)⟩
      · have hrun : Exec.step img s = .ok false s₁ := step_of_steps hstep.steps (by omega)
        rw [bind_of_ok hrun]
        rcases ih (n := n) (by omega) with hdone | ⟨e, s', hfault, hreason⟩
        · exact .inl hdone
        · exact .inr ⟨e, s', hfault, hreason.imp_right (by omega)⟩

end Comes

end Image

namespace Reckoned

variable {α β : Type} {img : Image} {bound : Nat} {s s₁ : MachineState} {o : Reckoned α}
  {post post' : α → Slate → MachineState → Prop}

/-- A run from a state does what an outcome asks for. After a stray look it may trap, and if it does
not, then it ends as for some value. -/
def Met (img : Image) (bound : Nat) (o : Reckoned α) (post : α → Slate → MachineState → Prop)
    (s : MachineState) : Prop :=
  match o with
  | .value a w => img.Comes bound (post a w) False s
  | .fault => img.Comes bound (fun _ => False) True s
  | .stray => img.Comes bound (fun s' => ∃ a w, post a w s') True s

theorem Met.loose (h : o.Met img bound post s) :
    img.Comes bound (fun s' => ∃ a w, post a w s') True s := by
  cases o with
  | value a w => exact h.mono (fun s' hs' => ⟨a, w, hs'⟩) False.elim
  | fault => exact h.mono (fun _ => False.elim) id
  | stray => exact h

theorem Met.advance (hstep : img.Advances bound s s₁) (h : o.Met img bound post s₁) :
    o.Met img bound post s := by
  cases o with
  | value | fault | stray => exact .step hstep h

/-- After what an outcome asks for, the run goes on. -/
theorem Met.follow (h : o.Met img bound post s)
    (hnext : ∀ a w s', post a w s' → img.Comes bound (post' a w) False s') :
    o.Met img bound post' s := by
  cases o with
  | value a w => exact Image.Comes.bind h (hnext a w)
  | fault => exact h
  | stray =>
      refine Image.Comes.bind h ?_
      rintro s' ⟨a, w, hs'⟩
      exact (hnext a w s' hs').mono (fun s'' hs'' => ⟨a, w, hs''⟩) False.elim

theorem Met.mono (h : o.Met img bound post s) (hpost : ∀ a w s', post a w s' → post' a w s') :
    o.Met img bound post' s :=
  h.follow fun a w s' hs' => .done (hpost a w s' hs')

/-- A run that cannot fault comes before what an outcome asks for. -/
theorem Met.after {mid : MachineState → Prop} (h : img.Comes bound mid False s)
    (hnext : ∀ s', mid s' → o.Met img bound post s') : o.Met img bound post s := by
  cases o with
  | value a w => exact h.bind hnext
  | fault | stray => exact (h.mono (fun _ => id) False.elim).bind hnext

/-- One part after another. Whatever the first part came to, the second starts from a state that
is as for some value. -/
theorem Met.bind {x : Reckoning α} {f : α → Reckoning β} {w : Slate}
    {post' : β → Slate → MachineState → Prop} (hx : (x w).Met img bound post s)
    (hf : ∀ a w' s', post a w' s' → (f a w').Met img bound post' s') :
    ((x >>= f) w).Met img bound post' s := by
  have hbind : (x >>= f) w = match x w with
      | .value a w' => f a w'
      | .fault => .fault
      | .stray => .stray := rfl
  rw [hbind]
  cases hxw : x w with
  | value a w' =>
      rw [hxw] at hx
      exact .after hx (hf a w')
  | fault =>
      rw [hxw] at hx
      exact hx
  | stray =>
      rw [hxw] at hx
      refine Image.Comes.bind hx ?_
      rintro s' ⟨a, w', hs'⟩
      exact (hf a w' s' hs').loose

end Reckoned

end Arbor
