import Mathlib.Tactic
import Arbor.Proofs.Simulation.Relation

/-!
Expressions: operators, comparisons, names, literals and calls, each from the code that
lowering emits for it.
-/

namespace Arbor

open Exec Emit

variable {E : Setting} {labels : Nat → Nat → Nat} {F : Frame} {final : LoweringState}
  {I : Interpreter} {pos height : Nat} {σ : Store} {s : MachineState} {line : UInt32}

/-- A division leaves the quotient in `rax` and the remainder in `rdx`. -/
theorem divide_leads {rest : Code} (hrun : Running E F pos height σ s)
    (hcode : E.CodeAt F.owner pos (.make .xchg [rax, rbx] line :: .make .cqo [] line ::
      .make .idiv [rbx] line :: rest))
    (hdefined : ¬(s.regs.rax = 0 ∨ s.regs.rbx = Int64.minValue ∧ s.regs.rax = -1)) :
    E.Leads s fun s' => Running E F (pos + 3) height σ s' ∧
      s'.regs.rax = s.regs.rbx / s.regs.rax ∧ s'.regs.rdx = s.regs.rbx % s.regs.rax ∧
      s'.memory = s.memory := by
  rw [not_or] at hdefined
  obtain ⟨s₁, hstep₁, hrun₁, hmem₁, hregs₁⟩ :=
    hrun.setRegs hcode (fun _ => instruction_xchg .rax .rbx) rfl rfl
  obtain ⟨s₂, hstep₂, hrun₂, hmem₂, hregs₂⟩ :=
    hrun₁.setRegs hcode.tail (fun _ => instruction_cqo) rfl rfl
  have hrax : s₂.regs.rax = s.regs.rbx := by rw [hregs₂, MachineState.next_regs, hregs₁]; rfl
  have hrbx : s₂.regs.rbx = s.regs.rax := by rw [hregs₂, MachineState.next_regs, hregs₁]; rfl
  have hrdx : s₂.regs.rdx = signWord s₂.regs.rax := by rw [hregs₂]; rfl
  have hzero : s₂.next.regs.get .rbx ≠ 0 := fun h => hdefined.1 (hrbx.symm.trans h)
  have hfits : ¬(s₂.next.regs.rax = Int64.minValue ∧ s₂.next.regs.get .rbx = -1) :=
    fun h => hdefined.2 ⟨hrax.symm.trans h.1, hrbx.symm.trans h.2⟩
  obtain ⟨s₃, hstep₃, hrun₃, hmem₃, hregs₃⟩ :=
    hrun₂.setRegs hcode.tail.tail (fun _ => instruction_idiv hzero hrdx hfits) rfl rfl
  refine .step hstep₁ (.step hstep₂ (.step hstep₃ (.done ⟨hrun₃, ?_, ?_, ?_⟩)))
  · rw [hregs₃, ← hrax, ← hrbx]
    rfl
  · rw [hregs₃, ← hrax, ← hrbx]
    rfl
  · rw [hmem₃, hmem₂, hmem₁]

/-- The code of an operator leaves its value in `rax`. -/
theorem applyOperator_leads {op : BinaryOperator} {a b v : Word}
    (hrun : Running E F pos height σ s) (hcode : E.CodeAt F.owner pos (applyOperator line op))
    (ha : s.regs.rbx = a) (hb : s.regs.rax = b) (hv : op.result? a b = some v) :
    E.Leads s fun s' => Running E F (pos + (applyOperator line op).length) height σ s' ∧
      s'.regs.rax = v ∧ s'.memory = s.memory := by
  subst ha hb
  cases op with
  | add =>
      obtain ⟨s₁, hstep, hrun₁, hmem, hregs⟩ :=
        hrun.setRegs hcode (fun _ => instruction_add rfl) rfl rfl
      refine .step hstep (.done ⟨hrun₁, ?_, hmem⟩)
      rw [hregs, ← Option.some.inj hv]
      exact Int64.add_comm _ _
  | mult =>
      obtain ⟨s₁, hstep, hrun₁, hmem, hregs⟩ :=
        hrun.setRegs hcode (fun _ => instruction_imul rfl) rfl rfl
      refine .step hstep (.done ⟨hrun₁, ?_, hmem⟩)
      rw [hregs, ← Option.some.inj hv]
      exact Int64.mul_comm _ _
  | sub =>
      obtain ⟨s₁, hstep₁, hrun₁, hmem₁, hregs₁⟩ :=
        hrun.setRegs hcode (fun _ => instruction_xchg .rax .rbx) rfl rfl
      obtain ⟨s₂, hstep₂, hrun₂, hmem₂, hregs₂⟩ :=
        hrun₁.setRegs hcode.tail (fun _ => instruction_sub rfl) rfl rfl
      refine .step hstep₁ (.step hstep₂ (.done ⟨hrun₂, ?_, hmem₂.trans hmem₁⟩))
      rw [hregs₂, ← Option.some.inj hv]
      change s₁.regs.rax - s₁.regs.rbx = _
      rw [hregs₁]
      rfl
  | div =>
      obtain ⟨hdefined, hquotient⟩ := Option.ite_none_left_eq_some.mp hv
      refine (divide_leads hrun hcode hdefined).mono fun s' ⟨hrun', hrax, _, hmem⟩ => ?_
      exact ⟨hrun', hrax.trans (Option.some.inj hquotient), hmem⟩
  | mod =>
      obtain ⟨hdefined, hremainder⟩ := Option.ite_none_left_eq_some.mp hv
      refine (divide_leads hrun hcode hdefined).bind fun s₁ ⟨hrun₁, _, hrdx, hmem₁⟩ => ?_
      obtain ⟨s₂, hstep, hrun₂, hmem₂, hregs⟩ :=
        hrun₁.setRegs hcode.tail.tail.tail (fun _ => instruction_mov_reg rfl) rfl rfl
      refine .step hstep (.done ⟨hrun₂, ?_, hmem₂.trans hmem₁⟩)
      rw [hregs, ← Option.some.inj hremainder]
      exact hrdx

theorem conditionHolds_jumpFor (op : CompareOperator) (a b : Word) :
    conditionHolds (jumpFor op) a b = op.holds a b := by
  cases op <;> rfl

theorem jumpFor_isConditionalJump (op : CompareOperator) :
    (jumpFor op).isConditionalJump = true := by
  cases op <;> rfl

/-- A constant is loaded between two labels of a comparison or after them. -/
theorem loadConstant_leads {v : Word} {name : String} {rest : Code}
    (hrun : Running E F pos height σ s)
    (hcode : E.CodeAt F.owner pos (.labelled name line :: mov line rax (.imm v) :: rest)) :
    E.Leads s fun s' => Running E F (pos + 2) height σ s' ∧ s'.regs.rax = v ∧
      s'.memory = s.memory := by
  obtain ⟨s₁, hstep₁, hrun₁, hmem₁, -⟩ := hrun.label hcode
  obtain ⟨s₂, hstep₂, hrun₂, hmem₂, hregs₂⟩ :=
    hrun₁.setRegs hcode.tail (fun _ => instruction_mov_reg rfl) rfl rfl
  refine .step hstep₁ (.step hstep₂ (.done ⟨hrun₂, ?_, hmem₂.trans hmem₁⟩))
  rw [hregs₂]
  rfl

/-- The code of a comparison leaves 1 or 0 in `rax`. -/
theorem applyCompare_leads {op : CompareOperator} {id : Nat} {a b : Word}
    (hplaced : Placed E labels F final) (hrun : Running E F pos height σ s)
    (hcode : E.CodeAt F.owner pos (applyCompare line op id))
    (ha : s.regs.rbx = a) (hb : s.regs.rax = b) :
    E.Leads s fun s' => Running E F (pos + (applyCompare line op id).length) height σ s' ∧
      s'.regs.rax = (if op.holds a b then 1 else 0) ∧ s'.memory = s.memory := by
  subst ha hb
  have hcode₂ := hcode.tail.tail
  have hcode₃ := hcode₂.tail
  have hcode₅ := hcode₃.tail.tail
  have hcode₆ := hcode₅.tail
  have hcode₈ := hcode₆.tail.tail
  obtain ⟨s₁, hstep₁, hrun₁, hmem₁, -, hlhs, hrhs⟩ :=
    hrun.compare hcode (fun _ => instruction_cmp .rbx .rax)
  obtain ⟨s₂, hstep₂, hrun₂, hmem₂, -⟩ :=
    hrun₁.branch hcode.tail (jumpFor_isConditionalJump op) (hplaced.target hcode₃)
  have hholds : conditionHolds (jumpFor op) s₁.lhs s₁.rhs = op.holds s.regs.rbx s.regs.rax := by
    rw [hlhs, hrhs, conditionHolds_jumpFor]
    rfl
  rw [hholds] at hrun₂
  refine .step hstep₁ (.step hstep₂ ?_)
  cases hop : op.holds s.regs.rbx s.regs.rax with
  | true =>
      rw [hop] at hrun₂
      refine (loadConstant_leads hrun₂ hcode₃).bind fun s₃ ⟨hrun₃, hrax₃, hmem₃⟩ => ?_
      obtain ⟨s₄, hstep₄, hrun₄, hmem₄, hregs₄⟩ := hrun₃.jump hcode₅ (hplaced.target hcode₈)
      obtain ⟨s₅, hstep₅, hrun₅, hmem₅, hregs₅⟩ := hrun₄.label hcode₈
      refine .step hstep₄ (.step hstep₅ (.done ⟨hrun₅, ?_, ?_⟩))
      · rw [hregs₅, hregs₄, hrax₃]
        rfl
      · rw [hmem₅, hmem₄, hmem₃, hmem₂, hmem₁]
  | false =>
      rw [hop] at hrun₂
      obtain ⟨s₃, hstep₃, hrun₃, hmem₃, -⟩ := hrun₂.jump hcode₂ (hplaced.target hcode₆)
      refine .step hstep₃ ?_
      refine (loadConstant_leads hrun₃ hcode₆).bind fun s₄ ⟨hrun₄, hrax₄, hmem₄⟩ => ?_
      obtain ⟨s₅, hstep₅, hrun₅, hmem₅, hregs₅⟩ := hrun₄.label hcode₈
      refine .step hstep₅ (.done ⟨hrun₅, ?_, ?_⟩)
      · rw [hregs₅, hrax₄]
        rfl
      · rw [hmem₅, hmem₄, hmem₃, hmem₂, hmem₁]

/-- An instruction that loads `rax` evaluates a leaf. -/
theorem load_leads {i : Instruction} {o : Finished Word} (hrun : Running E F pos height σ s)
    (hcode : E.CodeAt F.owner pos [i]) (hstore : o.store = σ)
    (hi : ∀ maxSteps, instruction (E.image maxSteps) i s.next =
      .ok false (s.next.setReg .rax o.value)) :
    E.Leads s fun s' => Evaluated E F (pos + 1) height o s s' ∧ s'.regs.rbx = s.regs.rbx := by
  obtain ⟨s₁, hstep, hrun₁, hmem, hregs⟩ := hrun.setRegs hcode hi rfl rfl
  rw [← hstore] at hrun₁
  refine .step hstep (.done ⟨⟨hrun₁, ?_, .of_memory hmem⟩, ?_⟩)
  · rw [hregs]
    rfl
  · rw [hregs]
    rfl

theorem addressOf_slot {j : Nat} {d : Word} (hrun : Running E F pos height σ s)
    (hd : slotDisplacement F.params j = d) (maxSteps : Nat) :
    addressOf (E.image maxSteps) (.frameSlot d) s.next = .ok (stackAddress (F.slot j)) s.next := by
  rw [addressOf_frameSlot, MachineState.next_regs, hrun.rbp_eq, ← hd, F.slot_address]

/-- Leaves are evaluated without touching `rbx`. -/
theorem leaf_leads {t : Tree} {st st' : LoweringState} {code : Code} {o : Finished Word}
    (hplaced : Placed E labels F final)
    (hlowers : Lowers (E.env labels F.owner) (.expression t) st code st')
    (hleads : st'.Leads final) (hcode : E.CodeAt F.owner pos code)
    (hrun : Running E F pos height σ s)
    (heval : E.world.evaluate I (st.point F.owner) height t σ = some o)
    (hleaf : t.isLeaf = true) :
    E.Leads s fun s' =>
      Evaluated E F (pos + code.length) height o s s' ∧ s'.regs.rbx = s.regs.rbx := by
  have hfits := hplaced.compiled.fits
  cases hlowers with
  | constant hword =>
      rw [World.evaluate_constant _ _ _ _ _ hword] at heval
      obtain rfl := Eval.pure_eq_some heval
      exact load_leads hrun hcode rfl fun _ => instruction_mov_reg rfl
  | string =>
      obtain ⟨o₁, o₂, hliteral, hpure, rfl⟩ := Eval.bind_eq_some heval
      obtain ⟨a, ha, rfl⟩ := Eval.ofOption_eq_some hliteral
      obtain rfl := Eval.pure_eq_some hpure
      obtain ⟨placement, hfind, rfl, -⟩ := hplaced.literal hleads ha
      exact load_leads hrun hcode rfl fun maxSteps =>
        instruction_lea (Setting.symbolAddress_image hfind maxSteps)
  | builtin hbuiltin =>
      rw [World.evaluate_name, World.readName, hbuiltin] at heval
      obtain rfl := Eval.pure_eq_some heval
      exact load_leads hrun hcode rfl fun _ => instruction_mov_reg rfl
  | @slot line id d _ hbuiltin hslot =>
      have hlocal : id ∈ (st.point F.owner).scope := by
        by_contra hnot
        rw [Scope.displacement?_eq_none_iff.mpr hnot] at hslot
        cases hslot
      rw [World.evaluate_name, World.readName, hbuiltin] at heval
      simp only [if_pos hlocal] at heval
      obtain ⟨v, hv, rfl⟩ := Eval.ofOption_eq_some heval
      obtain ⟨j, hname, hd⟩ := hplaced.slot hleads hslot
      have hj : j < F.names.length := (List.getElem?_eq_some_iff.mp hname).1
      refine load_leads hrun hcode rfl fun maxSteps => ?_
      rw [← hrun.locals j id v hname hv]
      exact instruction_mov_reg (read_of_address rfl (addressOf_slot hrun hd maxSteps)
        (Setting.accessible_stack hfits (Frame.slot_pos j)
          ((hrun.slot_le hj).trans hrun.room) maxSteps))
  | @global line id _ hbuiltin hslot =>
      have hglobal : id ∉ (st.point F.owner).scope := Scope.displacement?_eq_none_iff.mp hslot
      rw [World.evaluate_name, World.readName, hbuiltin] at heval
      simp only [if_neg hglobal] at heval
      obtain ⟨o₁, o₂, haddress, hread, rfl⟩ := Eval.bind_eq_some heval
      obtain ⟨a, ha, rfl⟩ := Eval.ofOption_eq_some haddress
      obtain rfl : o₂ = _ := (Option.some.inj hread).symm
      obtain ⟨placement, hfind, rfl⟩ := Option.map_eq_some_iff.mp ha
      have hdata : E.world.isData (placement.address + (0 : Word).toUInt64) = true :=
        Setting.isData_placement hfits hfind (k := 0) (Layout.extent_pos _)
      refine load_leads hrun hcode rfl fun maxSteps => ?_
      have hsame : s.next.memory.read (placement.address + (0 : Word).toUInt64) =
          σ.data placement.address := by
        rw [MachineState.next_memory, hrun.data _ hdata]
        congr 1
        exact UInt64.add_zero _
      rw [← hsame]
      exact instruction_mov_reg (read_of_address rfl
        (addressOf_global (globalSymbol_isEmpty id)
          (Setting.symbolAddress_image hfind maxSteps) 0)
        (Setting.accessible_data hdata maxSteps))
  | binary | compare | call | externalCall | list | dict | subscript => cases hleaf

/-- The right operand, after the left one has come to `rax`. -/
theorem Simulates.right_leads (hI : Simulates E labels I) (hplaced : Placed E labels F final)
    {right : Tree} {st st' : LoweringState} {cr : Code} {o : Finished Word}
    (hright : Lowers (E.env labels F.owner) (.expression right) st cr st')
    (hleads : st'.Leads final)
    (hcode : E.CodeAt F.owner pos (rightOperand line right.isLeaf cr))
    (hrun : Running E F pos height σ s)
    (heval : I.evaluate (st.point F.owner) (rightHeight height right) right σ = some o)
    (hroom : rightHeight height right ≤ E.stackWords) (hneed : o.need ≤ E.stackWords) :
    E.Leads s fun s' =>
      Evaluated E F (pos + (rightOperand line right.isLeaf cr).length) height o s s' ∧
        s'.regs.rbx = s.regs.rax := by
  have hfits := hplaced.compiled.fits
  obtain ⟨s₁, hstep₁, hrun₁, hmem₁, hregs₁⟩ :=
    hrun.setRegs hcode (fun _ => instruction_mov_reg rfl) rfl rfl
  have hrbx₁ : s₁.regs.rbx = s.regs.rax := by rw [hregs₁]; rfl
  have hkept₁ : Kept height s s₁ := .of_memory hmem₁
  refine .step hstep₁ ?_
  have hcode₁ := hcode.tail
  cases hleaf : right.isLeaf with
  | true =>
      rw [hleaf] at hcode₁
      rw [rightHeight, if_pos hleaf] at heval
      refine (hI.leaf hplaced hright hleads hcode₁ hrun₁ heval hleaf).mono fun s₂ ⟨h, hrbx⟩ => ?_
      have hlength : pos + (rightOperand line true cr).length = pos + 1 + cr.length := by
        simp only [rightOperand, if_true, List.length_cons]
        omega
      rw [hlength]
      exact ⟨⟨h.running, h.value, hkept₁.trans h.kept⟩, hrbx.trans hrbx₁⟩
  | false =>
      rw [hleaf] at hcode₁
      have hheight : rightHeight height right = height + 1 := by simp [rightHeight, hleaf]
      rw [hheight] at heval hroom
      obtain ⟨s₂, hstep₂, hrun₂, hkept₂, hword₂, hregs₂⟩ := hrun₁.push hfits hcode₁ hroom
      refine .step hstep₂ ?_
      refine (hI.evaluate hplaced hright hleads hcode₁.tail.left hrun₂ heval hneed).bind
        fun s₃ h₃ => ?_
      obtain ⟨s₄, hstep₄, hrun₄, hmem₄, hrbx₄, hregs₄⟩ :=
        h₃.running.pop hfits hcode₁.tail.right hrun.top_le (by decide) (by decide)
      have hlength : pos + (rightOperand line false cr).length = pos + 1 + 1 + cr.length + 1 := by
        simp only [rightOperand, Bool.false_eq_true, if_false, List.length_cons,
          List.length_append, List.length_nil]
        omega
      rw [hlength]
      refine .step hstep₄ (.done ⟨⟨hrun₄, ?_, ?_⟩, ?_⟩)
      · exact (hregs₄ .rax (by decide) (by decide)).trans h₃.value
      · exact ((hkept₁.trans hkept₂).trans (h₃.kept.mono (Nat.le_succ _))).trans (.of_memory hmem₄)
      · have hsaved : s₃.stackWord (height + 1) = s₂.stackWord (height + 1) :=
          h₃.kept _ (Nat.succ_pos _) (le_refl _)
        exact (hrbx₄.trans (hsaved.trans hword₂)).trans hrbx₁

/-- Both operands of a binary construct. -/
theorem Simulates.operands_leads (hI : Simulates E labels I) (hplaced : Placed E labels F final)
    {left right : Tree} {st st₁ st₂ : LoweringState} {cl cr : Code} {o : Finished (Word × Word)}
    (hleft : Lowers (E.env labels F.owner) (.expression left) st cl st₁)
    (hright : Lowers (E.env labels F.owner) (.expression right) st₁ cr st₂)
    (hleads : st₂.Leads final)
    (hcode : E.CodeAt F.owner pos (cl ++ rightOperand line right.isLeaf cr))
    (hrun : Running E F pos height σ s)
    (heval : I.operands (st.point F.owner) height left right σ = some o)
    (hneed : o.need ≤ E.stackWords) :
    E.Leads s (EvaluatedBoth E F
      (pos + (cl ++ rightOperand line right.isLeaf cr).length) height o s) := by
  obtain ⟨o₁, _, heval₁, hrest, rfl⟩ := Eval.bind_eq_some heval
  obtain ⟨_, _, huses, hrest', rfl⟩ := Eval.bind_eq_some hrest
  cases huses
  obtain ⟨o₂, _, heval₂, hpure, rfl⟩ := Eval.bind_eq_some hrest'
  obtain rfl := Eval.pure_eq_some hpure
  simp only [max_le_iff] at hneed
  obtain ⟨hneed₁, hroom, hneed₂, -⟩ := hneed
  rw [← hleft.point_past F.owner] at heval₂
  refine (hI.evaluate hplaced hleft (hright.leads.trans hleads) hcode.left hrun heval₁
    hneed₁).bind fun s₁ h₁ => ?_
  refine (hI.right_leads hplaced hright hleads hcode.right h₁.running heval₂ hroom
    hneed₂).mono fun s₂ ⟨h₂, hrbx⟩ => ?_
  rw [List.length_append, ← Nat.add_assoc]
  exact ⟨h₂.running, hrbx.trans h₁.value, h₂.value, h₁.kept.trans h₂.kept⟩

theorem StackHolds.cons {v : Word} {values : List Word} (hv : s.stackWord (height + 1) = v)
    (h : StackHolds s (height + 1) values) : StackHolds s height (v :: values) := by
  intro k w hk
  cases k with
  | zero =>
      rw [← Option.some.inj hk]
      exact hv
  | succ k =>
      rw [show height + 1 + (k + 1) = height + 1 + 1 + k by omega]
      exact h k w hk

/-- An expression whose value is pushed. -/
theorem Simulates.push_leads (hI : Simulates E labels I) (hplaced : Placed E labels F final)
    {t : Tree} {st st' : LoweringState} {code rest : Code} {o : Finished Word}
    (hlowers : Lowers (E.env labels F.owner) (.expression t) st code st')
    (hleads : st'.Leads final) (hcode : E.CodeAt F.owner pos (code ++ push line rax :: rest))
    (hrun : Running E F pos height σ s)
    (heval : I.evaluate (st.point F.owner) height t σ = some o) (hneed : o.need ≤ E.stackWords)
    (hroom : height + 1 ≤ E.stackWords) :
    E.Leads s fun s' => Running E F (pos + code.length + 1) (height + 1) o.store s' ∧
      s'.stackWord (height + 1) = o.value ∧ Kept height s s' := by
  refine (hI.evaluate hplaced hlowers hleads hcode.left hrun heval hneed).bind fun s₁ h₁ => ?_
  obtain ⟨s₂, hstep, hrun₂, hkept, hword, -⟩ :=
    h₁.running.push hplaced.compiled.fits hcode.right hroom
  exact .step hstep (.done ⟨hrun₂, hword.trans h₁.value, h₁.kept.trans hkept⟩)

/-- Values pushed one after the other. -/
theorem Simulates.stage_leads (hI : Simulates E labels I) (hplaced : Placed E labels F final)
    {ts : List Tree} {st st' : LoweringState} {code : Code} {o : Finished (List Word)}
    (hlowers : Lowers (E.env labels F.owner) (.pushes line ts) st code st')
    (hleads : st'.Leads final) (hcode : E.CodeAt F.owner pos code)
    (hrun : Running E F pos height σ s) (heval : I.stage (st.point F.owner) height ts σ = some o)
    (hneed : o.need ≤ E.stackWords) :
    E.Leads s (Staged E F (pos + code.length) height o s) := by
  induction ts generalizing st code pos height σ s o with
  | nil =>
      obtain rfl := Eval.pure_eq_some heval
      cases hlowers
      exact .done ⟨hrun, fun k v hk => by simp at hk, .refl _ _⟩
  | cons t rest ih =>
      cases hlowers with
      | pushesCons hhead htail =>
          obtain ⟨o₁, _, heval₁, hrest, rfl⟩ := Eval.bind_eq_some heval
          obtain ⟨_, _, huses, hrest', rfl⟩ := Eval.bind_eq_some hrest
          cases huses
          obtain ⟨o₂, _, heval₂, hpure, rfl⟩ := Eval.bind_eq_some hrest'
          obtain rfl := Eval.pure_eq_some hpure
          simp only [max_le_iff] at hneed
          obtain ⟨hneed₁, hroom, hneed₂, -⟩ := hneed
          rw [← hhead.point_past F.owner] at heval₂
          refine (hI.push_leads hplaced hhead (htail.leads.trans hleads) hcode hrun heval₁ hneed₁
            hroom).bind fun s₁ ⟨hrun₁, hword₁, hkept₁⟩ => ?_
          refine (ih htail hcode.right.tail hrun₁ heval₂ hneed₂).mono fun s₂ h₂ => ?_
          refine ⟨?_, .cons ?_ h₂.values, hkept₁.trans (h₂.kept.mono (Nat.le_succ _))⟩
          · convert h₂.running using 1
            · simp only [List.length_append, List.length_cons]
              omega
            · simp only [List.length_cons]
              omega
          · exact (h₂.kept _ (Nat.succ_pos _) (le_refl _)).trans hword₁

/-- Keys and values pushed in turn. -/
theorem Simulates.stagePairs_leads (hI : Simulates E labels I) (hplaced : Placed E labels F final)
    {keys values : List Tree} {st st' : LoweringState} {code : Code} {o : Finished (List Word)}
    (hlowers : Lowers (E.env labels F.owner) (.pairs line keys values) st code st')
    (hleads : st'.Leads final) (hcode : E.CodeAt F.owner pos code)
    (hrun : Running E F pos height σ s)
    (heval : I.stagePairs (st.point F.owner) height keys values σ = some o)
    (hneed : o.need ≤ E.stackWords) :
    E.Leads s (Staged E F (pos + code.length) height o s) := by
  induction keys generalizing values st code pos height σ s o with
  | nil =>
      obtain rfl := Eval.pure_eq_some heval
      cases hlowers
      exact .done ⟨hrun, fun k v hk => by simp at hk, .refl _ _⟩
  | cons key keys ih =>
      cases hlowers with
      | pairsCons hkey hvalue htail =>
          obtain ⟨o₁, _, heval₁, h₁, rfl⟩ := Eval.bind_eq_some heval
          obtain ⟨_, _, huses₁, h₂, rfl⟩ := Eval.bind_eq_some h₁
          cases huses₁
          obtain ⟨o₂, _, heval₂, h₃, rfl⟩ := Eval.bind_eq_some h₂
          obtain ⟨_, _, huses₂, h₄, rfl⟩ := Eval.bind_eq_some h₃
          cases huses₂
          obtain ⟨o₃, _, heval₃, hpure, rfl⟩ := Eval.bind_eq_some h₄
          obtain rfl := Eval.pure_eq_some hpure
          simp only [max_le_iff] at hneed
          obtain ⟨hneed₁, hroom₁, hneed₂, hroom₂, hneed₃, -⟩ := hneed
          rw [← hkey.point_past F.owner] at heval₂ heval₃
          rw [← hvalue.point_past F.owner] at heval₃
          have hleads₂ := htail.leads.trans hleads
          refine (hI.push_leads hplaced hkey (hvalue.leads.trans hleads₂) hcode hrun heval₁ hneed₁
            hroom₁).bind fun s₁ ⟨hrun₁, hword₁, hkept₁⟩ => ?_
          have hcode₁ := hcode.right.tail
          refine (hI.push_leads hplaced hvalue hleads₂ hcode₁ hrun₁ heval₂ hneed₂
            hroom₂).bind fun s₂ ⟨hrun₂, hword₂, hkept₂⟩ => ?_
          refine (ih htail hcode₁.right.tail hrun₂ heval₃ hneed₃).mono fun s₃ h₃ => ?_
          have hkey₃ : s₃.stackWord (height + 1) = s₂.stackWord (height + 1) :=
            h₃.kept _ (Nat.succ_pos _) (by omega)
          have hkey₂ : s₂.stackWord (height + 1) = s₁.stackWord (height + 1) :=
            hkept₂ _ (Nat.succ_pos _) (le_refl _)
          refine ⟨?_, .cons (hkey₃.trans (hkey₂.trans hword₁)) (.cons ?_ h₃.values), ?_⟩
          · convert h₃.running using 1
            · simp only [List.length_append, List.length_cons]
              omega
            · simp only [List.length_cons]
              omega
          · exact (h₃.kept _ (Nat.succ_pos _) (le_refl _)).trans hword₂
          · exact (hkept₁.trans (hkept₂.mono (Nat.le_succ _))).trans (h₃.kept.mono (by omega))

section Literals

variable {region : String} {placement : Placement}

/-- A word of a region, as the machine and as the layout count it. -/
theorem region_address (n : Nat) :
    placement.address + (8 * Int64.ofNat n).toUInt64 = placement.address + 8 * UInt64.ofNat n := by
  rw [Int64.toUInt64_mul, Int64.toUInt64_ofNat']
  rfl

/-- A write of `rax` to a word of a region. -/
theorem storeRegion (hfits : E.Fits) (hempty : region.isEmpty = false)
    (hfind : E.world.layout.find? region = some placement) {n : Nat}
    (hn : n < Layout.extent placement.words) {d : Word}
    (hd : placement.address + d.toUInt64 = placement.address + 8 * UInt64.ofNat n) {rest : Code}
    (hrun : Running E F pos height σ s)
    (hcode : E.CodeAt F.owner pos (mov line (.global region d) rax :: rest)) :
    ∃ s₁, E.Steps s s₁ ∧ Running E F (pos + 1) height
      (σ.setData (placement.address + 8 * UInt64.ofNat n) s.regs.rax) s₁ ∧
      Kept height s s₁ ∧ s₁.regs = s.regs := by
  have hdata := Setting.isData_placement hfits hfind hn
  refine hrun.storeData hfits hcode hdata fun maxSteps => ?_
  refine instruction_mov rfl (write_of_address rfl ?_ (Setting.accessible_data hdata maxSteps))
  rw [← hd]
  exact addressOf_global hempty (Setting.symbolAddress_image hfind maxSteps) d

theorem length_popWords (line : UInt32) (region : String) (n : Nat) :
    (popWords line region n).length = 2 * n := by
  induction n with
  | zero => rfl
  | succ n ih =>
      rw [popWords, List.length_cons, List.length_cons, ih]
      omega

/-- The staged words move to their region, the last one first. -/
theorem popWords_leads (hfits : E.Fits) (hempty : region.isEmpty = false)
    (hfind : E.world.layout.find? region = some placement) {words : List Word}
    (hlength : words.length < Layout.extent placement.words) (htop : F.top ≤ height)
    (hcode : E.CodeAt F.owner pos (popWords line region words.length))
    (hrun : Running E F pos (height + words.length) σ s) (hholds : StackHolds s height words) :
    E.Leads s fun s' => Running E F (pos + 2 * words.length) height
      (σ.fill (placement.address + 8) words) s' ∧ Kept height s s' := by
  induction words using List.reverseRecOn generalizing pos σ s with
  | nil => exact .done ⟨hrun, .refl _ _⟩
  | append_singleton words v ih =>
      rw [List.length_append, List.length_singleton] at hlength hcode hrun ⊢
      rw [popWords] at hcode
      rw [← Nat.add_assoc] at hrun
      obtain ⟨s₁, hstep₁, hrun₁, hmem₁, hrax₁, -⟩ :=
        hrun.pop hfits hcode (htop.trans (Nat.le_add_right _ _)) (by decide) (by decide)
      have hv : s₁.regs.rax = v := by
        refine hrax₁.trans ?_
        rw [show height + words.length + 1 = height + 1 + words.length by omega]
        exact hholds words.length v (by simp)
      obtain ⟨s₂, hstep₂, hrun₂, hkept₂, -⟩ :=
        storeRegion hfits hempty hfind hlength (region_address _) hrun₁ hcode.tail
      have hholds₂ : StackHolds s₂ height words := by
        intro k w hk
        have hlt : k < words.length := (List.getElem?_eq_some_iff.mp hk).1
        rw [hkept₂ _ (by omega) (by omega), MachineState.stackWord, hmem₁]
        exact hholds k w (by rw [List.getElem?_append_left hlt, hk])
      refine .step hstep₁ (.step hstep₂ ?_)
      apply (ih (by omega) hcode.tail.tail hrun₂ hholds₂).mono
      rintro s₃ ⟨hrun₃, hkept₃⟩
      have hkept₁ : Kept height s s₁ := .of_memory hmem₁
      refine ⟨?_, (hkept₁.trans (hkept₂.mono (Nat.le_add_right _ _))).trans hkept₃⟩
      have hlast : placement.address + 8 + 8 * UInt64.ofNat words.length =
          placement.address + 8 * UInt64.ofNat (words.length + 1) := by
        rw [UInt64.ofNat_add]
        grind
      rw [Store.fill_append, hlast, ← hv, ← Store.fill_setData]
      · convert hrun₃ using 1
        omega
      · intro k hk
        have hne := Setting.placement_words_ne hfits hfind (Nat.add_lt_add_right hk 1) hlength
        rw [UInt64.ofNat_add] at hne
        intro heq
        exact hne (by rw [← heq]; grind)

/-- The code that fills the region of a literal. -/
theorem fillRegion_leads (hfits : E.Fits) (hempty : region.isEmpty = false)
    (hfind : E.world.layout.find? region = some placement) {words : List Word} {count : Nat}
    (hlength : words.length < Layout.extent placement.words) (htop : F.top ≤ height)
    (hcode : E.CodeAt F.owner pos (fillRegion line region count words.length))
    (hrun : Running E F pos (height + words.length) σ s) (hholds : StackHolds s height words) :
    E.Leads s fun s' =>
      Running E F (pos + (fillRegion line region count words.length).length) height
        (σ.fill placement.address (Int64.ofNat count :: words)) s' ∧
      s'.regs.rax = placement.address.toInt64 ∧ Kept height s s' := by
  obtain ⟨s₁, hstep₁, hrun₁, hmem₁, hregs₁⟩ :=
    hrun.setRegs hcode (fun _ => instruction_mov_reg rfl) rfl rfl
  have hrax₁ : s₁.regs.rax = Int64.ofNat count := by rw [hregs₁]; rfl
  obtain ⟨s₂, hstep₂, hrun₂, hkept₂, -⟩ :=
    storeRegion hfits hempty hfind (Nat.zero_lt_of_lt hlength) rfl hrun₁ hcode.tail
  have hkept : Kept (height + words.length) s s₂ := .trans (.of_memory hmem₁) hkept₂
  have hholds₂ : StackHolds s₂ height words := by
    intro k w hk
    have hlt : k < words.length := (List.getElem?_eq_some_iff.mp hk).1
    rw [hkept _ (by omega) (by omega)]
    exact hholds k w hk
  refine .step hstep₁ (.step hstep₂ ?_)
  refine (popWords_leads hfits hempty hfind hlength htop hcode.tail.tail.left hrun₂
    hholds₂).bind fun s₃ ⟨hrun₃, hkept₃⟩ => ?_
  have hlea := hcode.tail.tail.right
  rw [length_popWords] at hlea
  obtain ⟨s₄, hstep₄, hrun₄, hmem₄, hregs₄⟩ := hrun₃.setRegs hlea
    (fun maxSteps => instruction_lea (Setting.symbolAddress_image hfind maxSteps)) rfl rfl
  refine .step hstep₄ (.done ⟨?_, by rw [hregs₄]; rfl,
    ((hkept.mono (Nat.le_add_right _ _)).trans hkept₃).trans (.of_memory hmem₄)⟩)
  have hzero : placement.address + 8 * UInt64.ofNat 0 = placement.address := UInt64.add_zero _
  rw [hzero, hrax₁] at hrun₄
  rw [Store.fill]
  convert hrun₄ using 1
  simp only [fillRegion, List.length_cons, List.length_append, length_popWords, List.length_nil]
  omega

end Literals

end Arbor
