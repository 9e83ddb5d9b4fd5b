import Mathlib.Tactic
import Arbor.Proofs.Simulation.Function

/-!
Statements: assignments to their targets, conditionals and loops. With the expressions
this makes the machine simulate the interpreter at every level of fuel.
-/

namespace Arbor

open Exec Emit

variable {E : Setting} {labels : Nat → Nat → Nat} {F : Frame} {final : LoweringState}
  {I : Interpreter} {pos height : Nat} {σ : Store} {s : MachineState} {line : UInt32}
  {st st' : LoweringState} {code : Code}

/-- The word in `rax` goes to the element whose index is in `rcx`. -/
theorem storeElement_leads {a i v : Word} {rest : Code} {o : Finished Unit} (hfits : E.Fits)
    (hrun : Running E F pos height σ s)
    (hcode : E.CodeAt F.owner pos (storeElement line :: rest)) (ha : s.regs.rbx = a)
    (hi : s.regs.rcx = i) (hv : s.regs.rax = v)
    (hwrite : E.world.write (elementAddress a i) v σ = some o) :
    E.Leads s fun s' => Running E F (pos + 1) height o.store s' ∧ s'.regs.rax = v ∧
      Kept height s s' := by
  obtain ⟨hdata, ho⟩ := Option.ite_none_right_eq_some.mp hwrite
  obtain rfl := Option.some.inj ho
  subst ha hi hv
  have haddress : ∀ maxSteps, addressOf (E.image maxSteps) (.element .rbx .rcx 8) s.next =
      .ok (elementAddress s.regs.rbx s.regs.rcx) s.next :=
    fun _ => addressOf_element .rbx (by decide) 8
  obtain ⟨s₁, hstep, hrun₁, hkept, hregs⟩ := hrun.storeData hfits hcode hdata
    fun maxSteps => instruction_mov rfl (write_of_address rfl (haddress maxSteps)
      (Setting.accessible_data hdata maxSteps))
  exact .step hstep (.done ⟨hrun₁, by rw [hregs], hkept⟩)

/-- A target takes the word in `rax`, which stays there for the next one. -/
theorem Simulates.assign_leads (hI : Simulates E labels I) (hplaced : Placed E labels F final)
    {t : Tree} {v : Word} {o : Finished Unit}
    (hlowers : Lowers (E.env labels F.owner) (.target t) st code st') (hleads : st'.Leads final)
    (hcode : E.CodeAt F.owner pos code) (hrun : Running E F pos height σ s)
    (hv : s.regs.rax = v)
    (heval : E.world.assign I (st.point F.owner) height t v σ = some o)
    (hneed : o.need ≤ E.stackWords) :
    E.Leads s fun s' => Running E F (pos + code.length) height o.store s' ∧ s'.regs.rax = v ∧
      KeptOutside F s s' := by
  have hfits := hplaced.compiled.fits
  cases hlowers with
  | storeName hslot =>
      cases heval
      subst hv
      obtain ⟨j, hid, hd⟩ := hplaced.slot hleads hslot
      have hj := hrun.slot_le (List.getElem?_eq_some_iff.mp hid).1
      obtain ⟨s₁, hstep, hrun₁, hkept, hregs⟩ := hrun.storeSlot hfits hcode hid
        fun maxSteps => instruction_mov rfl (write_of_address rfl (addressOf_slot hrun hd maxSteps)
          (Setting.accessible_stack hfits (Frame.slot_pos j) (hj.trans hrun.room) maxSteps))
      exact .step hstep (.done ⟨hrun₁, by rw [hregs], hkept⟩)
  | storeElement hvalue hindex =>
      obtain ⟨_, _, huses, hrest, rfl⟩ := Eval.bind_eq_some heval
      cases huses
      obtain ⟨o₁, o₂, hoperands, hwrite, rfl⟩ := Eval.bind_eq_some hrest
      simp only [max_le_iff] at hneed
      obtain ⟨s₁, hstep₁, hrun₁, hkept₁, hword₁, -⟩ := hrun.push hfits hcode hneed.1
      refine .step hstep₁ ?_
      refine (hI.operands_leads hplaced hvalue hindex hleads hcode.tail.left hrun₁ hoperands
        hneed.2.1).bind fun s₂ h₂ => ?_
      have hcode₂ := hcode.tail.right
      obtain ⟨s₃, hstep₃, hrun₃, hmem₃, hregs₃⟩ :=
        h₂.running.setRegs hcode₂ (fun _ => instruction_mov_reg rfl) rfl rfl
      obtain ⟨s₄, hstep₄, hrun₄, hmem₄, hrax₄, hregs₄⟩ :=
        hrun₃.pop hfits hcode₂.tail hrun.top_le (by decide) (by decide)
      have hkept₃ : Kept (height + 1) s₁ s₃ := h₂.kept.trans (.of_memory hmem₃)
      have hrax : s₄.regs.rax = v := by
        refine hrax₄.trans ?_
        rw [hkept₃ _ (Nat.succ_pos _) le_rfl, hword₁]
        exact hv
      have hrbx : s₄.regs.rbx = o₁.value.1 := by
        refine (hregs₄ .rbx (by decide) (by decide)).trans ?_
        rw [hregs₃, ← h₂.left]
        rfl
      have hrcx : s₄.regs.rcx = o₁.value.2 := by
        refine (hregs₄ .rcx (by decide) (by decide)).trans ?_
        rw [hregs₃, ← h₂.right]
        rfl
      refine .step hstep₃ (.step hstep₄ ?_)
      refine (storeElement_leads hfits hrun₄ hcode₂.tail.tail hrbx hrcx hrax hwrite).mono
        fun s₅ ⟨hrun₅, hrax₅, hkept₅⟩ => ⟨?_, hrax₅, ?_⟩
      · convert hrun₅ using 1
        simp only [List.length_cons, List.length_append, List.length_nil]
        omega
      · have hkept₄ : Kept height s₁ s₄ :=
          (hkept₃.mono (Nat.le_succ _)).trans (.of_memory hmem₄)
        exact (((hkept₁.trans hkept₄).trans hkept₅).outside hrun.top_le)

/-- One value for several targets, from left to right. -/
theorem Simulates.assignAll_leads (hI : Simulates E labels I) (hplaced : Placed E labels F final)
    {ts : List Tree} {v : Word} {o : Finished Unit}
    (hlowers : Lowers (E.env labels F.owner) (.targets ts) st code st') (hleads : st'.Leads final)
    (hcode : E.CodeAt F.owner pos code) (hrun : Running E F pos height σ s)
    (hv : s.regs.rax = v)
    (heval : E.world.assignAll I (st.point F.owner) height ts v σ = some o)
    (hneed : o.need ≤ E.stackWords) :
    E.Leads s fun s' => Running E F (pos + code.length) height o.store s' ∧
      KeptOutside F s s' := by
  induction ts generalizing st code pos σ s o with
  | nil =>
      obtain rfl := Eval.pure_eq_some heval
      cases hlowers
      exact .done ⟨hrun, .refl _ _⟩
  | cons t rest ih =>
      cases hlowers with
      | targetsCons hhead htail =>
          obtain ⟨o₁, o₂, heval₁, hrest, rfl⟩ := Eval.bind_eq_some heval
          simp only [max_le_iff] at hneed
          refine (hI.assign_leads hplaced hhead (htail.leads.trans hleads) hcode.left hrun hv
            heval₁ hneed.1).bind fun s₁ ⟨hrun₁, hrax₁, hkept₁⟩ => ?_
          rw [← hhead.point_past_target F.owner] at hrest
          refine (ih htail hcode.right hrun₁ hrax₁ hrest hneed.2).mono
            fun s₂ ⟨hrun₂, hkept₂⟩ => ⟨?_, hkept₁.trans hkept₂⟩
          rw [List.length_append, ← Nat.add_assoc]
          exact hrun₂

/-- A zero in `rax` goes to the label, any other word on. -/
theorem branchIfZero_leads {label : String} {k : Nat} (hrun : Running E F pos height σ s)
    (hcode : E.CodeAt F.owner pos (branchIfZero line label))
    (htarget : E.target? F.owner label = some k) :
    E.Leads s fun s' =>
      Running E F (if s.regs.rax = 0 then k else pos + 2) height σ s' ∧ s'.memory = s.memory := by
  obtain ⟨s₁, hstep₁, hrun₁, hmem₁, -, hlhs, hrhs⟩ :=
    hrun.compare hcode fun _ => instruction_test .rax .rax
  obtain ⟨s₂, hstep₂, hrun₂, hmem₂, -⟩ := hrun₁.branch hcode.tail rfl htarget
  refine .step hstep₁ (.step hstep₂ (.done ⟨?_, hmem₂.trans hmem₁⟩))
  have hholds : conditionHolds .jz s₁.lhs s₁.rhs = (s.regs.rax == 0) := by
    rw [hlhs, hrhs]
    exact congrArg (· == 0) (Int64.and_self (a := s.regs.rax))
  rw [hholds] at hrun₂
  simpa only [beq_iff_eq] using hrun₂

/-- What follows a statement is done only if the statement did not return. -/
theorem Completes.leads {o : Finished Completion} {pos' : Nat} {s₁ : MachineState}
    (h : Completes E F pos o s s₁)
    (hnext : Running E F pos F.top o.store s₁ →
      E.Leads s₁ fun s' => Running E F pos' F.top o.store s' ∧ s'.memory = s₁.memory) :
    E.Leads s₁ (Completes E F pos' o s) := by
  unfold Completes at h ⊢
  cases hvalue : o.value with
  | next =>
      rw [hvalue] at h
      exact (hnext h.1).mono fun s₂ ⟨hrun₂, hmem₂⟩ =>
        ⟨hrun₂, h.2.trans ((Kept.of_memory hmem₂).outside le_rfl)⟩
  | returned v =>
      rw [hvalue] at h
      exact .done h

/-- A conditional takes one of its branches and meets the other at its end. -/
theorem Simulates.conditional_leads (hI : Simulates E labels I) (hplaced : Placed E labels F final)
    {test : Tree} {body orelse : List Tree} {st₁ st₂ : LoweringState} {ct cb co : Code} {id : Nat}
    {o : Finished Completion}
    (htest : Lowers (E.env labels F.owner) (.expression test) st ct st₁)
    (hbody : Lowers (E.env labels F.owner) (.block body) st₁ cb st₂)
    (horelse : Lowers (E.env labels F.owner) (.block orelse) st₂ co st') (hleads : st'.Leads final)
    (hcode : E.CodeAt F.owner pos (conditional line id ct cb co))
    (hrun : Running E F pos F.top σ s)
    (heval : E.world.execute I (st.point F.owner) F.top (.ifElse line test body orelse) σ = some o)
    (hneed : o.need ≤ E.stackWords) :
    E.Leads s (Completes E F (pos + (conditional line id ct cb co).length) o s) := by
  obtain ⟨o₁, o₂, heval₁, hrest, rfl⟩ := Eval.bind_eq_some heval
  simp only [max_le_iff] at hneed
  have hjump := hcode.right
  have helse := hplaced.target hjump.tail
  have hend := hplaced.target hjump.tail.tail.right
  refine (hI.evaluate hplaced htest ((hbody.leads.trans horelse.leads).trans hleads)
    hcode.left.left.left hrun heval₁ hneed.1).bind fun s₁ h₁ => ?_
  refine (branchIfZero_leads h₁.running hcode.left.left.right helse).bind
    fun s₂ ⟨hrun₂, hmem₂⟩ => ?_
  have hkept₂ : KeptOutside F s s₂ := (h₁.kept.trans (.of_memory hmem₂)).outside le_rfl
  rw [h₁.value] at hrun₂
  rw [← htest.point_past F.owner] at hrest
  by_cases hzero : o₁.value = 0
  · rw [if_pos hzero] at hrun₂
    replace hrest : I.executeAll ((st₁.point F.owner).afterAll body) F.top orelse o₁.store =
        some o₂ := by rw [← hrest, if_pos hzero]
    rw [← hbody.point_afterAll F.owner] at hrest
    obtain ⟨s₃, hstep₃, hrun₃, hmem₃, -⟩ := hrun₂.label hjump.tail
    refine .step hstep₃ ((hI.executeAll_leads hplaced horelse hleads hjump.tail.tail.left hrun₃
      hrest hneed.2).bind fun s₄ h₄ => ?_)
    have hkept₃ : KeptOutside F s s₃ := hkept₂.trans ((Kept.of_memory hmem₃).outside le_rfl)
    refine (Completes.of_kept hkept₃ h₄).leads fun hrun₄ => ?_
    obtain ⟨s₅, hstep₅, hrun₅, hmem₅, -⟩ := hrun₄.label hjump.tail.tail.right
    refine .step hstep₅ (.done ⟨?_, hmem₅⟩)
    convert hrun₅ using 1
    simp only [conditional, List.length_cons, List.length_append, List.length_nil]
    omega
  · rw [if_neg hzero] at hrun₂
    replace hrest : I.executeAll (st₁.point F.owner) F.top body o₁.store = some o₂ := by
      rw [← hrest, if_neg hzero]
    refine (hI.executeAll_leads hplaced hbody (horelse.leads.trans hleads) hcode.left.third hrun₂ hrest
      hneed.2).bind fun s₃ h₃ => ?_
    refine (Completes.of_kept hkept₂ h₃).leads fun hrun₃ => ?_
    have hjump' := hcode.third
    rw [List.length_append, ← Nat.add_assoc] at hjump'
    obtain ⟨s₄, hstep₄, hrun₄, hmem₄, -⟩ := hrun₃.jump hjump' hend
    obtain ⟨s₅, hstep₅, hrun₅, hmem₅, -⟩ := hrun₄.label hjump.tail.tail.right
    refine .step hstep₄ (.step hstep₅ (.done ⟨?_, hmem₅.trans hmem₄⟩))
    convert hrun₅ using 1
    simp only [conditional, List.length_cons, List.length_append, List.length_nil]
    omega

/-- A loop leaves when its test gives zero, and otherwise comes back to its label. -/
theorem Simulates.loop_leads (hI : Simulates E labels I) (hplaced : Placed E labels F final)
    {test : Tree} {body : List Tree} {o : Finished Completion}
    (hlowers : Lowers (E.env labels F.owner) (.statement (.whileLoop line test body)) st code st')
    (hleads : st'.Leads final) (hcode : E.CodeAt F.owner pos code)
    (hrun : Running E F pos F.top σ s)
    (heval : E.world.execute I (st.point F.owner) F.top (.whileLoop line test body) σ = some o)
    (hneed : o.need ≤ E.stackWords) :
    E.Leads s (Completes E F (pos + code.length) o s) := by
  obtain ⟨o₁, o₂, heval₁, hrest, rfl⟩ := Eval.bind_eq_some heval
  simp only [max_le_iff] at hneed
  have hround := hlowers
  cases hlowers with
  | bare hexpression => cases hexpression
  | @whileLoop _ _ _ _ ct st₁ cb _ htest hbody =>
      have hstart := hplaced.target hcode
      have hback := hcode.tail.right
      have hend := hplaced.target hback.tail
      obtain ⟨s₁, hstep₁, hrun₁, hmem₁, -⟩ := hrun.label hcode
      refine .step hstep₁ ((hI.evaluate hplaced htest (hbody.leads.trans hleads)
        hcode.tail.left.left.left hrun₁ heval₁ hneed.1).bind fun s₂ h₂ => ?_)
      refine (branchIfZero_leads h₂.running hcode.tail.left.left.right hend).bind
        fun s₃ ⟨hrun₃, hmem₃⟩ => ?_
      have hkept₃ : KeptOutside F s s₃ :=
        ((Kept.of_memory hmem₁).trans (h₂.kept.trans (.of_memory hmem₃))).outside le_rfl
      rw [h₂.value] at hrun₃
      have hpast : st₁.point F.owner = (st.point F.owner).past test := htest.point_past F.owner
      by_cases hzero : o₁.value = 0
      · rw [if_pos hzero] at hrun₃
        replace hrest : (pure .next : Eval Completion) o₁.store = some o₂ := by
          rw [← hrest, if_pos hzero]
        obtain rfl := Eval.pure_eq_some hrest
        obtain ⟨s₄, hstep₄, hrun₄, hmem₄, -⟩ := hrun₃.label hback.tail
        refine .step hstep₄ (.done ⟨?_, hkept₃.trans ((Kept.of_memory hmem₄).outside le_rfl)⟩)
        convert hrun₄ using 1
        simp only [loop, List.length_cons, List.length_append, List.length_nil]
        omega
      · rw [if_neg hzero] at hrun₃
        rw [if_neg hzero] at hrest
        obtain ⟨o₃, o₄, hbodyEval, hnext, rfl⟩ := Eval.bind_eq_some hrest
        simp only [max_le_iff] at hneed
        rw [← hpast] at hbodyEval
        refine (hI.executeAll_leads hplaced hbody hleads hcode.tail.left.third hrun₃ hbodyEval
          hneed.2.1).bind fun s₄ h₄ => ?_
        unfold Completes at h₄
        cases hvalue : o₃.value with
        | returned v =>
            rw [hvalue] at h₄ hnext
            obtain rfl := Eval.pure_eq_some hnext
            exact .done (h₄.of_kept hkept₃)
        | next =>
            rw [hvalue] at h₄ hnext
            have hback' := hcode.tail.third
            rw [List.length_append, ← Nat.add_assoc] at hback'
            obtain ⟨s₅, hstep₅, hrun₅, hmem₅, -⟩ := h₄.1.jump hback' hstart
            refine .step hstep₅ ((hI.execute hplaced hround hleads hcode hrun₅ hnext
              hneed.2.2).mono fun s₆ h₆ => ?_)
            have hkept₅ : KeptOutside F s s₅ :=
              (hkept₃.trans h₄.2).trans ((Kept.of_memory hmem₅).outside le_rfl)
            exact Completes.of_kept hkept₅ h₆

/-- An element is replaced where it was found: its base and its index wait on the stack
while the operand is evaluated. -/
theorem Simulates.updateElement_leads (hI : Simulates E labels I)
    (hplaced : Placed E labels F final) {value : Tree} {op : BinaryOperator} {cv : Code}
    {a i v : Word} {old o : Finished Word} {o' : Finished Unit}
    (hvalue : Lowers (E.env labels F.owner) (.expression value) st cv st')
    (hleads : st'.Leads final)
    (hcode : E.CodeAt F.owner pos (Emit.push line rbx :: Emit.push line rax ::
      (loadElement line ++ rightOperand line value.isLeaf cv ++ applyOperator line op ++
        [Emit.pop line rcx, Emit.pop line rbx, storeElement line])))
    (hrun : Running E F pos height σ s) (ha : s.regs.rbx = a) (hi : s.regs.rax = i)
    (hread : E.world.read (elementAddress a i) σ = some old)
    (heval : I.evaluate (st.point F.owner) (rightHeight (height + 2) value) value old.store = some o)
    (hv : op.result? old.value o.value = some v)
    (hwrite : E.world.write (elementAddress a i) v o.store = some o')
    (hroom : height + 2 ≤ E.stackWords) (hright : rightHeight (height + 2) value ≤ E.stackWords)
    (hneed : o.need ≤ E.stackWords) :
    E.Leads s fun s' => Running E F (pos + 2 + (loadElement line ++
      rightOperand line value.isLeaf cv ++ applyOperator line op).length + 3) height o'.store s' ∧
      Kept height s s' := by
  have hfits := hplaced.compiled.fits
  obtain ⟨s₂, hstep₂, hrun₂, hkept₂, hword₂, hregs₂⟩ := hrun.push hfits hcode (by omega)
  obtain ⟨s₃, hstep₃, hrun₃, hkept₃, hword₃, hregs₃⟩ := hrun₂.push hfits hcode.tail hroom
  have hrbx₃ : s₃.regs.rbx = a :=
    (hregs₃ .rbx (by decide)).trans ((hregs₂ .rbx (by decide)).trans ha)
  have hrax₃ : s₃.regs.rax = i :=
    (hregs₃ .rax (by decide)).trans ((hregs₂ .rax (by decide)).trans hi)
  have htail := hcode.tail.tail
  refine .step hstep₂ (.step hstep₃ ?_)
  apply (loadElement_leads hrun₃ htail.left.left.left hrbx₃ hrax₃ hread).bind
  rintro s₄ ⟨hrun₄, hrax₄, hmem₄⟩
  apply (hI.right_leads hplaced hvalue hleads htail.left.left.right hrun₄ heval hright hneed).bind
  rintro s₅ ⟨h₅, hrbx₅⟩
  apply (applyOperator_leads h₅.running htail.left.third (hrbx₅.trans hrax₄) h₅.value hv).bind
  rintro s₆ ⟨hrun₆, hrax₆, hmem₆⟩
  have hkept₆ : Kept (height + 2) s₃ s₆ :=
    ((Kept.of_memory hmem₄).trans h₅.kept).trans (.of_memory hmem₆)
  have hpops := htail.third
  rw [List.length_append, ← Nat.add_assoc] at hpops
  obtain ⟨s₇, hstep₇, hrun₇, hmem₇, hrcx₇, hregs₇⟩ :=
    hrun₆.pop hfits hpops (hrun.top_le.trans (Nat.le_succ _)) (by decide) (by decide)
  obtain ⟨s₈, hstep₈, hrun₈, hmem₈, hrbx₈, hregs₈⟩ :=
    hrun₇.pop hfits hpops.tail hrun.top_le (by decide) (by decide)
  have hrcx : s₈.regs.rcx = i := by
    refine (hregs₈ .rcx (by decide) (by decide)).trans (hrcx₇.trans ?_)
    rw [hkept₆ _ (Nat.succ_pos _) le_rfl, hword₃]
    exact (hregs₂ .rax (by decide)).trans hi
  have hrbx : s₈.regs.rbx = a := by
    refine hrbx₈.trans ?_
    rw [MachineState.stackWord, hmem₇]
    refine (hkept₆ (height + 1) (Nat.succ_pos _) (Nat.le_succ _)).trans ?_
    rw [hkept₃ _ (Nat.succ_pos _) le_rfl, hword₂]
    exact ha
  have hrax : s₈.regs.rax = v :=
    (hregs₈ .rax (by decide) (by decide)).trans
      ((hregs₇ .rax (by decide) (by decide)).trans hrax₆)
  refine .step hstep₇ (.step hstep₈ ?_)
  apply (storeElement_leads hfits hrun₈ hpops.tail.tail hrbx hrcx hrax hwrite).mono
  rintro s₉ ⟨hrun₉, -, hkept₉⟩
  constructor
  · convert hrun₉ using 1
    simp only [List.length_append]
    omega
  · have hkept₈ : Kept height s₃ s₈ :=
      (hkept₆.mono (by omega)).trans (.of_memory (hmem₈.trans hmem₇))
    exact (hkept₂.trans (hkept₃.mono (Nat.le_succ _))).trans (hkept₈.trans hkept₉)

theorem World.execute_ret {w : World} {pt : Point} {value : Tree} (h : value ≠ .absent) :
    w.execute I pt height (.ret line value) = (do
      let v ← I.evaluate pt height value
      return .returned v) := by
  cases value with
  | absent => exact absurd rfl h
  | _ => rfl

/-- An expression as a statement is evaluated for its effects. -/
theorem World.execute_expression {env : LoweringEnv} {w : World} {pt : Point} {t : Tree}
    (h : Lowers env (.expression t) st code st') :
    w.execute I pt height t = (do
      let _ ← I.evaluate pt height t
      return .next) := by
  cases h <;> rfl

/-- A value that nothing uses. -/
theorem Simulates.discard_leads (hI : Simulates E labels I) (hplaced : Placed E labels F final)
    {t : Tree} {o : Finished Completion}
    (hlowers : Lowers (E.env labels F.owner) (.expression t) st code st')
    (hleads : st'.Leads final) (hcode : E.CodeAt F.owner pos code)
    (hrun : Running E F pos F.top σ s)
    (heval : (do
      let _ ← I.evaluate (st.point F.owner) F.top t
      return .next : Eval Completion) σ = some o)
    (hneed : o.need ≤ E.stackWords) :
    E.Leads s (Completes E F (pos + code.length) o s) := by
  obtain ⟨o₁, _, heval₁, hpure, rfl⟩ := Eval.bind_eq_some heval
  obtain rfl := Eval.pure_eq_some hpure
  simp only [max_le_iff] at hneed
  exact (hI.evaluate hplaced hlowers hleads hcode hrun heval₁ hneed.1).mono
    fun s₁ h₁ => ⟨h₁.running, h₁.kept.outside le_rfl⟩

/-- One level more of statements. -/
theorem Simulates.execute_leads (hI : Simulates E labels I) (hplaced : Placed E labels F final)
    {t : Tree} {o : Finished Completion}
    (hlowers : Lowers (E.env labels F.owner) (.statement t) st code st')
    (hleads : st'.Leads final) (hcode : E.CodeAt F.owner pos code)
    (hrun : Running E F pos F.top σ s)
    (heval : E.world.execute I (st.point F.owner) F.top t σ = some o)
    (hneed : o.need ≤ E.stackWords) :
    E.Leads s (Completes E F (pos + code.length) o s) := by
  have hfits := hplaced.compiled.fits
  have hphrase := hlowers
  cases hlowers with
  | assign _ _ hvalue hstores =>
      obtain ⟨o₁, _, heval₁, hrest, rfl⟩ := Eval.bind_eq_some heval
      obtain ⟨o₂, _, hassign, hpure, rfl⟩ := Eval.bind_eq_some hrest
      obtain rfl := Eval.pure_eq_some hpure
      simp only [max_le_iff] at hneed
      rw [← LoweringState.point_declaring] at heval₁ hassign
      rw [← hvalue.point_past F.owner] at hassign
      refine (hI.evaluate hplaced hvalue (hstores.leads.trans hleads) hcode.left hrun heval₁
        hneed.1).bind fun s₁ h₁ => ?_
      refine (hI.assignAll_leads hplaced hstores hleads hcode.right h₁.running h₁.value hassign
        hneed.2.1).mono fun s₂ ⟨hrun₂, hkept₂⟩ => ?_
      rw [List.length_append, ← Nat.add_assoc]
      exact ⟨hrun₂, (h₁.kept.outside le_rfl).trans hkept₂⟩
  | augElement hbase hindex hvalue =>
      obtain ⟨o₁, _, hoperands, h₁, rfl⟩ := Eval.bind_eq_some heval
      obtain ⟨_, _, huses, h₂, rfl⟩ := Eval.bind_eq_some h₁
      cases huses
      obtain ⟨old, _, hread, h₃, rfl⟩ := Eval.bind_eq_some h₂
      obtain ⟨_, _, huses', h₄, rfl⟩ := Eval.bind_eq_some h₃
      cases huses'
      obtain ⟨o₂, _, hright, h₅, rfl⟩ := Eval.bind_eq_some h₄
      obtain ⟨_, _, hresult, h₆, rfl⟩ := Eval.bind_eq_some h₅
      obtain ⟨v, hv, rfl⟩ := Eval.ofOption_eq_some hresult
      obtain ⟨o₃, _, hwrite, h₇, rfl⟩ := Eval.bind_eq_some h₆
      obtain rfl := Eval.pure_eq_some h₇
      simp only [max_le_iff] at hneed
      rw [← hbase.point_past F.owner, ← hindex.point_past F.owner] at hright
      refine (hI.operands_leads hplaced hbase hindex (hvalue.leads.trans hleads) hcode.left hrun
        hoperands hneed.1).bind fun s₁ h₁ => ?_
      refine (hI.updateElement_leads hplaced hvalue hleads hcode.right h₁.running h₁.left h₁.right
        hread hright hv hwrite hneed.2.1 hneed.2.2.2.1 hneed.2.2.2.2.1).mono
        fun s₂ ⟨hrun₂, hkept₂⟩ => ⟨?_, (h₁.kept.trans hkept₂).outside le_rfl⟩
      convert hrun₂ using 1
      simp only [List.length_cons, List.length_append, List.length_nil]
      omega
  | augName hbuiltin hname hvalue hstore =>
      obtain ⟨o₁, _, hoperands, h₁, rfl⟩ := Eval.bind_eq_some heval
      obtain ⟨_, _, hresult, h₂, rfl⟩ := Eval.bind_eq_some h₁
      obtain ⟨v, hv, rfl⟩ := Eval.ofOption_eq_some hresult
      obtain ⟨o₂, _, hset, hpure, rfl⟩ := Eval.bind_eq_some h₂
      obtain rfl := Eval.pure_eq_some hpure
      simp only [max_le_iff] at hneed
      rw [← LoweringState.point_declaring] at hoperands
      refine (hI.operands_leads hplaced hname hvalue (hstore.leads.trans hleads) hcode.left.left
        hrun hoperands hneed.1).bind fun s₁ h₁ => ?_
      refine (applyOperator_leads h₁.running hcode.left.right h₁.left h₁.right hv).bind
        fun s₂ ⟨hrun₂, hrax₂, hmem₂⟩ => ?_
      refine (hI.assign_leads hplaced hstore hleads hcode.third hrun₂ hrax₂ hset
        hneed.2.2.1).mono fun s₃ ⟨hrun₃, _, hkept₃⟩ => ⟨?_, ?_⟩
      · convert hrun₃ using 1
        simp only [List.length_append]
        omega
      · exact ((h₁.kept.trans (.of_memory hmem₂)).outside le_rfl).trans hkept₃
  | bareReturn =>
      obtain rfl := Eval.pure_eq_some heval
      obtain ⟨s₁, hstep₁, hrun₁, hmem₁, hregs₁⟩ :=
        hrun.setRegs hcode (fun _ => instruction_mov_reg rfl) rfl rfl
      have hrax₁ : s₁.regs.rax = 0 := by rw [hregs₁]; rfl
      exact .step hstep₁ ((epilogue_leads hfits hrun₁ hrax₁ hcode.tail).mono
        fun s₂ h₂ => h₂.of_kept ((Kept.of_memory hmem₁).outside le_rfl))
  | ret hvalue =>
      have hpresent : ∀ {t c st st'}, Lowers (E.env labels F.owner) (.expression t) st c st' →
          t ≠ .absent := by
        rintro _ _ _ _ h rfl
        cases h
      rw [World.execute_ret (hpresent hvalue)] at heval
      obtain ⟨o₁, _, heval₁, hpure, rfl⟩ := Eval.bind_eq_some heval
      obtain rfl := Eval.pure_eq_some hpure
      simp only [max_le_iff] at hneed
      refine (hI.evaluate hplaced hvalue hleads hcode.left hrun heval₁ hneed.1).bind
        fun s₁ h₁ => ?_
      exact (epilogue_leads hfits h₁.running h₁.value hcode.right).mono
        fun s₂ h₂ => h₂.of_kept (h₁.kept.outside le_rfl)
  | expr hvalue => exact hI.discard_leads hplaced hvalue hleads hcode hrun heval hneed
  | ifElse htest hbody horelse =>
      exact hI.conditional_leads hplaced htest hbody horelse hleads hcode hrun heval hneed
  | whileLoop => exact hI.loop_leads hplaced hphrase hleads hcode hrun heval hneed
  | bare hexpression =>
      rw [World.execute_expression hexpression] at heval
      exact hI.discard_leads hplaced hexpression hleads hcode hrun heval hneed

theorem Simulates.level (hI : Simulates E labels I) :
    Simulates E labels { evaluate := E.world.evaluate I, execute := E.world.execute I } where
  evaluate := fun hplaced => hI.evaluate_leads hplaced
  leaf := fun hplaced => leaf_leads hplaced
  execute := fun hplaced => hI.execute_leads hplaced

/-- The machine does what the interpreter does, however deep the run is nested. -/
theorem World.interpreter_simulates (E : Setting) (labels : Nat → Nat → Nat) (fuel : Nat) :
    Simulates E labels (E.world.interpreter fuel) := by
  induction fuel with
  | zero =>
      refine { evaluate := ?_, leaf := ?_, execute := ?_ }
      · intro _ _ _ _ _ _ _ _ _ _ _ _ _ _ _ _ heval
        cases heval
      · intro _ _ _ _ _ _ _ _ _ _ _ _ _ _ _ _ heval
        cases heval
      · intro _ _ _ _ _ _ _ _ _ _ _ _ _ _ _ heval
        cases heval
  | succ fuel ih => exact ih.level

end Arbor
