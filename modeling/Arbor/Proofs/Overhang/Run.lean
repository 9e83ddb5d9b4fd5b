import Mathlib.Tactic
import Arbor.Proofs.Correctness
import Arbor.Proofs.Lockstep.Step
import Arbor.Proofs.Overhang.Program

/-!
Frames that hang over the end of the stack. The slots of a frame are taken off the stack
pointer without a look at the stack's end, so the last slots of the deepest activation can
be words of the data area, and a store to such a slot is a store to a global. The removal
of dead stores does not know that.
-/

namespace Arbor

open Exec Emit

namespace Plunge

/-- A machine that runs the program, with its data area below the stack. -/
structure Hosts (E : Setting) (slots id : Nat) (gone last : Code) : Prop where
  fits : E.Fits
  program_eq : E.world.program = program slots id gone last
  gone_labels : Code.labels gone = []
  last_labels : Code.labels last = []

section Run

variable {E : Setting} {slots id : Nat} {gone last : Code}

namespace Hosts

theorem codeAt (h : Hosts E slots id gone last) : E.CodeAt 0 0 (code slots id gone last) := by
  intro k i hi
  rw [Nat.zero_add, Setting.fetch?, h.program_eq]
  exact hi

/-- The code behind the branch that calls. -/
theorem codeAt_else (h : Hosts E slots id gone last) :
    E.CodeAt 0 (19 + gone.length) (.labelled (numbered "else" id) 2 ::
      .labelled (numbered "end" id) 2 :: mov 5 rax (.imm 7) :: (last ++ landing)) := by
  have hcode := h.codeAt.right.right.tail
  rw [show 0 + (descent slots id).length + gone.length + 1 = 19 + gone.length by
    simp only [descent, opening, calling, epilogue, List.length_append, List.length_cons,
      List.length_nil]
    omega] at hcode
  exact hcode

theorem steps (h : Hosts E slots id gone last) (k : Nat) {i : Instruction} {s s' : MachineState}
    (hi : (code slots id gone last)[k]? = some i) (hunit : s.unit = 0) (hip : s.ip = k)
    (hs : ∀ maxSteps, instruction (E.image maxSteps) i s.next = .ok false s') : E.Steps s s' := by
  intro maxSteps
  refine ⟨i, (Image.fetch?_ofProgram _ _ _ _).trans ?_, hs maxSteps⟩
  rw [hunit, hip, ← Nat.zero_add k]
  exact h.codeAt k i hi

theorem labels_nodup (h : Hosts E slots id gone last) : (code slots id gone last).labels.Nodup := by
  have hlabels : (code slots id gone last).labels =
      ["plunge", numbered "else" id, numbered "end" id] := by
    simp [code, descent, opening, calling, landing, fallthrough, h.gone_labels, h.last_labels]
  have hfree : ∀ word ∈ numberedWords, numbered word id ≠ "plunge" := by
    intro word hword heq
    have hreserved := isReservedSymbol_numbered hword id
    rw [heq] at hreserved
    exact absurd hreserved (by decide)
  have hwords : numbered "else" id ≠ numbered "end" id := fun heq =>
    absurd (numbered_inj heq).1 (by decide)
  simp [hlabels, (hfree "else" (by decide)).symm, (hfree "end" (by decide)).symm, hwords]

/-- The branch that calls is passed when the argument is zero. -/
theorem target (h : Hosts E slots id gone last) (maxSteps : Nat) :
    (E.image maxSteps).target? 0 (numbered "else" id) = some (19 + gone.length) := by
  have hfetch := h.codeAt_else.head
  rw [Setting.fetch?, h.program_eq] at hfetch
  rw [Setting.image, Image.target?_ofProgram, h.program_eq]
  exact (Image.lookup_labels_iff h.labels_nodup).mpr ⟨_, hfetch, rfl⟩

theorem functions (h : Hosts E slots id gone last) (maxSteps : Nat) :
    (E.image maxSteps).functions.lookup "plunge" = some 0 := by
  rw [Setting.image, h.program_eq]
  rfl

theorem units (h : Hosts E slots id gone last) (maxSteps : Nat) :
    (E.image maxSteps).units.size = 1 := by
  rw [Setting.image, h.program_eq]
  rfl

theorem global (h : Hosts E slots id gone last) (maxSteps : Nat) :
    (E.image maxSteps).symbolAddress (globalSymbol "y") = .ok Layout.base := by
  rw [Setting.image, h.program_eq]
  rfl

theorem isData (h : Hosts E slots id gone last) : E.world.isData Layout.base = true := by
  rw [World.isData, World.layout, h.program_eq]
  rfl

end Hosts

/-- An activation is about to start, with the argument at `height + 1` and the return address
above it. -/
structure Entry (height : Nat) (n w : Word) (s : MachineState) : Prop where
  unit_eq : s.unit = 0
  ip_eq : s.ip = 0
  rsp_eq : s.regs.rsp = stackPointer (height + 2)
  argument : s.stackWord (height + 1) = n
  data : s.memory.read Layout.base = w

/-- An activation has set up its frame and looked at its argument. -/
structure Opened (height slots : Nat) (n : Word) (s s' : MachineState) : Prop where
  unit_eq : s'.unit = 0
  ip_eq : s'.ip = 6
  rbp_eq : s'.regs.rbp = stackPointer (height + 3)
  rsp_eq : s'.regs.rsp = stackPointer (height + 3 + slots)
  lhs_eq : s'.lhs = n &&& n
  rhs_eq : s'.rhs = 0
  memory_eq : s'.memory = s.memory.write (stackAddress (height + 3)) s.regs.rbp
  steps_eq : s'.steps = s.steps + 6

/-- An activation that started at a state is about to return. -/
structure Exit (E : Setting) (height : Nat) (v : Word) (cost : Nat) (s s' : MachineState) :
    Prop where
  unit_eq : s'.unit = 0
  fetch : ∃ line, E.fetch? 0 s'.ip = some (.make .ret [] line)
  value : s'.regs.rax = v
  rsp_eq : s'.regs.rsp = stackPointer (height + 2)
  rbp_eq : s'.regs.rbp = s.regs.rbp
  kept : Kept (height + 2) s s'
  data : s'.memory.read Layout.base = v
  steps_eq : s'.steps = s.steps + cost

/-- An activation has given up its frame after so many steps. -/
structure Closed (E : Setting) (height cost : Nat) (s s' : MachineState) : Prop where
  unit_eq : s'.unit = 0
  fetch : ∃ line, E.fetch? 0 s'.ip = some (.make .ret [] line)
  rax_eq : s'.regs.rax = s.regs.rax
  rsp_eq : s'.regs.rsp = stackPointer (height + 2)
  rbp_eq : s'.regs.rbp = s.stackWord (height + 3)
  memory_eq : s'.memory = s.memory
  steps_eq : s'.steps = s.steps + cost

variable {height : Nat} {n w v : Word} {s s₀ : MachineState}

theorem Closed.exit {cost total : Nat} {s' : MachineState} (h : Closed E height cost s s')
    (hkept : Kept (height + 2) s₀ s) (hsaved : s.stackWord (height + 3) = s₀.regs.rbp)
    (hvalue : s.regs.rax = v) (hdata : s.memory.read Layout.base = v)
    (hsteps : s.steps + cost = s₀.steps + total) : Exit E height v total s₀ s' where
  unit_eq := h.unit_eq
  fetch := h.fetch
  value := h.rax_eq.trans hvalue
  rsp_eq := h.rsp_eq
  rbp_eq := h.rbp_eq.trans hsaved
  kept := hkept.trans (.of_memory h.memory_eq)
  data := (congrArg (Memory.read · Layout.base) h.memory_eq).trans hdata
  steps_eq := h.steps_eq.trans hsteps

namespace Opened

variable (hfits : E.Fits) (hroom : height + 3 ≤ E.stackWords) (h : Opened height slots n s₀ s)

include hfits hroom h

theorem stackWord {k : Nat} (hk : k ≤ height + 3) :
    s.stackWord k = if height + 3 = k then s₀.regs.rbp else s₀.stackWord k := by
  rw [MachineState.stackWord, h.memory_eq]
  exact MachineState.stackWord_setWord_stack hfits s₀ (hk.trans hroom) hroom _

theorem saved : s.stackWord (height + 3) = s₀.regs.rbp :=
  (h.stackWord hfits hroom le_rfl).trans (if_pos rfl)

theorem kept : Kept (height + 2) s₀ s := fun _ _ hk =>
  (h.stackWord hfits hroom (by omega)).trans (if_neg (by omega))

theorem data (hdata : E.world.isData Layout.base = true) :
    s.memory.read Layout.base = s₀.memory.read Layout.base := by
  rw [h.memory_eq, Memory.read_write, if_neg (Setting.stackAddress_ne_data hfits hroom hdata)]

end Opened

namespace Hosts

theorem read_argument (h : Hosts E slots id gone last) (hroom : height + 3 ≤ E.stackWords)
    (hrbp : s.regs.rbp = stackPointer (height + 3)) (maxSteps : Nat) :
    Exec.read (E.image maxSteps) (.frameSlot 16) s = .ok (s.stackWord (height + 1)) s := by
  have haddress : s.regs.rbp.toUInt64 + (16 : Word).toUInt64 = stackAddress (height + 1) := by
    have h := Frame.param_address 1 height 0
    rw [show 1 + 2 + height = height + 3 by omega] at h
    rw [hrbp, toUInt64_stackPointer]
    exact h
  refine read_of_address rfl ((addressOf_frameSlot 16).trans (by rw [haddress])) ?_
  exact Setting.accessible_stack h.fits (Nat.succ_pos _) (by omega) maxSteps

/-- The frame is set up and the argument tested. The slots are taken off the stack whether they
fit or not. -/
theorem opened_leads (h : Hosts E slots id gone last) (hroom : height + 3 ≤ E.stackWords)
    (hentry : Entry height n w s) : E.Leads s (Opened height slots n s) := by
  obtain ⟨m, regs, lhs, rhs, u, ip, count⟩ := s
  obtain ⟨hu, hip, hrsp, hargument, hdata⟩ := hentry
  dsimp only at hu hip hrsp hargument hdata
  subst hu hip
  have hpushed : regs.rsp - 8 = stackPointer (height + 3) := by rw [hrsp, stackPointer_sub]
  refine .step (h.steps 0 rfl rfl rfl fun _ => rfl) (.step (h.steps 1 rfl rfl rfl
    fun maxSteps => instruction_push rfl (a := stackAddress (height + 3))
      ((congrArg Int64.toUInt64 hpushed).trans (toUInt64_stackPointer _))
      (Setting.not_lt_stackLimit h.fits hroom maxSteps)
      (Setting.accessible_stack h.fits (Nat.succ_pos _) hroom maxSteps)) ?_)
  refine .step (h.steps 2 rfl rfl rfl fun _ => instruction_mov_reg rfl) ?_
  refine .step (h.steps 3 rfl rfl rfl fun _ => instruction_sub rfl) ?_
  refine .step (h.steps 4 rfl rfl rfl fun maxSteps =>
    instruction_mov_reg (h.read_argument hroom hpushed maxSteps)) ?_
  refine .step (h.steps 5 rfl rfl rfl fun _ => instruction_test .rax .rax) (.done ?_)
  have hkept : (m.write (stackAddress (height + 3)) regs.rbp).read (stackAddress (height + 1)) = n := by
    rw [← hargument]
    exact (MachineState.stackWord_setWord_stack h.fits ⟨m, regs, lhs, rhs, 0, 0, count⟩ (by omega)
      hroom regs.rbp).trans (if_neg (by omega))
  refine { unit_eq := rfl, ip_eq := rfl, rbp_eq := hpushed, rsp_eq := ?_, lhs_eq := ?_,
           rhs_eq := rfl, memory_eq := rfl, steps_eq := rfl }
  · exact (congrArg (· - Int64.ofNat (8 * slots)) hpushed).trans (stackPointer_sub_words _ _)
  · exact congrArg₂ (· &&& ·) hkept hkept

/-- An activation goes on to its call with one less in `rax`. -/
theorem staged_leads (h : Hosts E slots id gone last) (hroom : height + 3 ≤ E.stackWords)
    (hunit : s.unit = 0) (hip : s.ip = 6) (hrbp : s.regs.rbp = stackPointer (height + 3))
    (hholds : conditionHolds .jz s.lhs s.rhs = false) :
    E.Leads s fun s' => s'.unit = 0 ∧ s'.ip = 12 ∧ s'.regs.rax = s.stackWord (height + 1) - 1 ∧
      s'.regs.rbp = s.regs.rbp ∧ s'.regs.rsp = s.regs.rsp ∧ s'.memory = s.memory ∧
      s'.steps = s.steps + 6 := by
  obtain ⟨m, regs, lhs, rhs, u, ip, count⟩ := s
  dsimp only at hunit hip hrbp hholds
  subst hunit hip
  refine .step (h.steps 6 rfl rfl rfl fun _ => instruction_branch_passed rfl hholds) ?_
  refine .step (h.steps 7 rfl rfl rfl fun maxSteps =>
    instruction_mov_reg (h.read_argument hroom hrbp maxSteps)) ?_
  refine .step (h.steps 8 rfl rfl rfl fun _ => instruction_mov_reg rfl) ?_
  refine .step (h.steps 9 rfl rfl rfl fun _ => instruction_mov_reg rfl) ?_
  refine .step (h.steps 10 rfl rfl rfl fun _ => instruction_xchg .rax .rbx) ?_
  refine .step (h.steps 11 rfl rfl rfl fun _ => instruction_sub rfl) (.done ?_)
  exact ⟨rfl, rfl, rfl, rfl, rfl, rfl, rfl⟩

/-- The argument in `rax` is pushed and the next activation entered. -/
theorem called_leads (h : Hosts E slots id gone last) (hroom : height + 2 ≤ E.stackWords)
    (hunit : s.unit = 0) (hip : s.ip = 12) (hrsp : s.regs.rsp = stackPointer height) :
    E.Leads s fun s' => Entry height s.regs.rax (s.memory.read Layout.base) s' ∧
      s'.regs.rbp = s.regs.rbp ∧ s'.stackWord (height + 2) = returnAddress 0 14 ∧
      Kept height s s' ∧ s'.steps = s.steps + 2 := by
  obtain ⟨m, regs, lhs, rhs, u, ip, count⟩ := s
  dsimp only at hunit hip hrsp
  subst hunit hip
  have hpushed : regs.rsp - 8 = stackPointer (height + 1) := by rw [hrsp, stackPointer_sub]
  have hcalled : regs.rsp - 8 - 8 = stackPointer (height + 2) := by rw [hpushed, stackPointer_sub]
  refine .step (h.steps 12 rfl rfl rfl fun maxSteps =>
    instruction_push rfl (a := stackAddress (height + 1))
      ((congrArg Int64.toUInt64 hpushed).trans (toUInt64_stackPointer _))
      (Setting.not_lt_stackLimit h.fits (by omega) maxSteps)
      (Setting.accessible_stack h.fits (Nat.succ_pos _) (by omega) maxSteps)) ?_
  refine .step (h.steps 13 rfl rfl rfl fun maxSteps =>
    instruction_call (h.functions maxSteps) (a := stackAddress (height + 2))
      ((congrArg Int64.toUInt64 hcalled).trans (toUInt64_stackPointer _))
      (Setting.not_lt_stackLimit h.fits (by omega) maxSteps)
      (Setting.accessible_stack h.fits (Nat.succ_pos _) (by omega) maxSteps)) (.done ?_)
  have hword : ∀ k, k ≤ E.stackWords → ((m.write (stackAddress (height + 1)) regs.rax).write
      (stackAddress (height + 2)) (returnAddress 0 14)).read (stackAddress k) =
      if height + 2 = k then returnAddress 0 14 else if height + 1 = k then regs.rax
        else m.read (stackAddress k) := by
    intro k hk
    have houter := MachineState.stackWord_setWord_stack h.fits
      { memory := m.write (stackAddress (height + 1)) regs.rax } hk hroom (returnAddress 0 14)
    have hinner := MachineState.stackWord_setWord_stack h.fits { memory := m } hk
      (Nat.le_of_succ_le hroom) regs.rax
    exact houter.trans (congrArg _ hinner)
  refine ⟨⟨rfl, rfl, hcalled, ?_, ?_⟩, rfl, ?_, ?_, rfl⟩
  · exact (hword _ (by omega)).trans (by simp)
  · change ((m.write _ _).write _ _).read Layout.base = m.read Layout.base
    rw [Memory.read_write, if_neg (Setting.stackAddress_ne_data h.fits hroom h.isData),
      Memory.read_write, if_neg (Setting.stackAddress_ne_data h.fits (by omega) h.isData)]
  · exact (hword _ hroom).trans (by simp)
  · intro k _ hk
    exact (hword k (by omega)).trans (by rw [if_neg (by omega), if_neg (by omega)]; rfl)

/-- An activation gives up its frame and is about to return. -/
theorem closed_leads (h : Hosts E slots id gone last) {pos : Nat} {line : UInt32}
    (hcode : E.CodeAt 0 pos (epilogue line)) (hroom : height + 3 ≤ E.stackWords)
    (hunit : s.unit = 0) (hip : s.ip = pos) (hrbp : s.regs.rbp = stackPointer (height + 3)) :
    E.Leads s (Closed E height 2 s) := by
  obtain ⟨m, regs, lhs, rhs, u, ip, count⟩ := s
  dsimp only at hunit hip hrbp
  subst hunit hip
  have hread : regs.rbp.toUInt64 = stackAddress (height + 3) := by
    rw [hrbp, toUInt64_stackPointer]
  refine .step (hcode.steps rfl rfl fun _ => instruction_mov_reg rfl) ?_
  refine .step (hcode.tail.steps rfl rfl fun maxSteps => instruction_pop ?_) (.done ?_)
  · exact (congrArg _ hread).trans
      (Setting.accessible_stack h.fits (Nat.succ_pos _) hroom maxSteps)
  · refine ⟨rfl, ⟨line, hcode.tail.tail.head⟩, rfl, ?_, congrArg m.read hread, rfl, rfl⟩
    exact (congrArg (· + 8) hrbp).trans (stackPointer_add _)

/-- An activation returns what the one it called returns. -/
theorem returned_leads (h : Hosts E slots id gone last) (hroom : height + 3 ≤ E.stackWords)
    {line : UInt32} {k : Nat} (hunit : s.unit = 0)
    (hfetch : E.fetch? 0 s.ip = some (.make .ret [] line)) (hk : k + 1 ≤ E.stackWords)
    (hrsp : s.regs.rsp = stackPointer (k + 1)) (hreturn : s.stackWord (k + 1) = returnAddress 0 14)
    (hrbp : s.regs.rbp = stackPointer (height + 3)) :
    E.Leads s (Closed E height 4 s) := by
  obtain ⟨m, regs, lhs, rhs, u, ip, count⟩ := s
  dsimp only at hunit hfetch hrsp hrbp
  subst hunit
  have hread : regs.rsp.toUInt64 = stackAddress (k + 1) := by rw [hrsp, toUInt64_stackPointer]
  have hcode : E.CodeAt 0 ip [.make .ret [] line] := by
    intro j i hi
    cases j with
    | zero =>
        cases hi
        exact hfetch
    | succ j => cases hi
  have htarget : m.read regs.rsp.toUInt64 = returnAddress 0 14 :=
    (congrArg m.read hread).trans hreturn
  refine .step (hcode.steps rfl rfl fun maxSteps =>
    instruction_ret ?_ htarget ?_ ?_ (by decide)) ?_
  · exact (congrArg _ hread).trans
      (Setting.accessible_stack h.fits (Nat.succ_pos _) hk maxSteps)
  · rw [h.units]
    exact Nat.one_pos
  · rw [h.units]
    decide
  refine .step (h.steps 14 rfl rfl rfl fun _ => instruction_add rfl) ?_
  refine (h.closed_leads h.codeAt.left.right.right hroom rfl rfl hrbp).mono fun s' hclosed => ?_
  exact ⟨hclosed.unit_eq, hclosed.fetch, hclosed.rax_eq, hclosed.rsp_eq, hclosed.rbp_eq,
    hclosed.memory_eq, hclosed.steps_eq⟩

/-- An activation on zero passes the branch that calls. -/
theorem reached_leads (h : Hosts E slots id gone last) (hunit : s.unit = 0) (hip : s.ip = 6)
    (hholds : conditionHolds .jz s.lhs s.rhs = true) :
    E.Leads s fun s' => s'.unit = 0 ∧ s'.ip = 22 + gone.length ∧ s'.regs.rax = 7 ∧
      s'.regs.rbp = s.regs.rbp ∧ s'.memory = s.memory ∧ s'.steps = s.steps + 4 := by
  obtain ⟨m, regs, lhs, rhs, u, ip, count⟩ := s
  dsimp only at hunit hip hholds
  subst hunit hip
  have hcode := h.codeAt_else
  refine .step (h.steps 6 rfl rfl rfl fun maxSteps =>
    instruction_branch_taken rfl hholds (h.target maxSteps)) ?_
  refine .step (hcode.steps rfl rfl fun _ => rfl) (.step (hcode.tail.steps rfl rfl fun _ => rfl) ?_)
  refine .step (hcode.tail.tail.steps rfl rfl fun _ => instruction_mov_reg rfl) (.done ?_)
  refine ⟨rfl, ?_, rfl, rfl, rfl, rfl⟩
  change 19 + gone.length + 1 + 1 + 1 = _
  omega

end Hosts

/-- Before it loads the global, the deepest activation leaves a word `v` in the data area where
there was a word `w`. -/
def Settles (E : Setting) (pos height : Nat) (last : Code) (w v : Word) : Prop :=
  ∀ s : MachineState, s.unit = 0 → s.ip = pos → s.regs.rax = 7 →
    s.regs.rbp = stackPointer (height + 3) → s.memory.read Layout.base = w →
    E.Leads s fun s' => s'.unit = 0 ∧ s'.ip = pos + last.length ∧ s'.regs.rbp = s.regs.rbp ∧
      Kept (height + 3) s s' ∧ s'.memory.read Layout.base = v ∧ s'.steps = s.steps + last.length

theorem settles_nil (E : Setting) (pos height : Nat) (w : Word) : Settles E pos height [] w w :=
  fun _ hunit hip _ _ hdata => .done ⟨hunit, hip, rfl, .refl _ _, hdata, rfl⟩

namespace Hosts

theorem codeAt_last (h : Hosts E slots id gone last) :
    E.CodeAt 0 (22 + gone.length) (last ++ landing) := by
  have hcode := h.codeAt_else.tail.tail.tail
  rw [show 19 + gone.length + 1 + 1 + 1 = 22 + gone.length by omega] at hcode
  exact hcode

/-- A store to the last slot of a frame that hangs over the end of the stack is a store to the
data area. -/
theorem settles_store (h : Hosts E slots id gone (Plunge.last slots))
    (hroom : height + 3 ≤ E.stackWords) (hover : stackAddress (height + 3 + slots) = Layout.base)
    (w : Word) : Settles E (22 + gone.length) height (Plunge.last slots) w 7 := by
  intro s hunit hip hrax hrbp _
  obtain ⟨m, regs, lhs, rhs, u, ip, count⟩ := s
  dsimp only at hunit hip hrax hrbp
  subst hunit hip
  have haddress : regs.rbp.toUInt64 + (Scope.localDisplacement slots).toUInt64 = Layout.base := by
    rw [hrbp, toUInt64_stackPointer, Frame.local_address, hover]
  refine .step (h.codeAt_last.steps rfl rfl fun maxSteps => instruction_mov rfl
    (write_of_address rfl ((addressOf_frameSlot _).trans (congrArg (EStateM.Result.ok · _) haddress))
      (Setting.accessible_data h.isData maxSteps))) (.done ⟨rfl, rfl, rfl, ?_, ?_, rfl⟩)
  · intro k _ hk
    exact MachineState.stackWord_setWord_data h.fits ⟨m, regs, lhs, rhs, 0, _, count⟩ h.isData _
      (hk.trans hroom)
  · exact (Memory.read_write _ _ _ _).trans ((if_pos rfl).trans hrax)

theorem conditionHolds_and_self (n : Word) : conditionHolds .jz (n &&& n) 0 = (n == 0) := by
  simp [conditionHolds]

/-- The activation on zero. -/
theorem deepest_leads (h : Hosts E slots id gone last) (hroom : height + 3 ≤ E.stackWords)
    (hsettles : Settles E (22 + gone.length) height last w v) (hentry : Entry height 0 w s) :
    E.Leads s (Exit E height v (13 + last.length) s) := by
  refine (h.opened_leads hroom hentry).bind fun s₁ h₁ => ?_
  have hholds : conditionHolds .jz s₁.lhs s₁.rhs = true := by
    rw [h₁.lhs_eq, h₁.rhs_eq, conditionHolds_and_self]
    rfl
  refine (h.reached_leads h₁.unit_eq h₁.ip_eq hholds).bind ?_
  rintro s₂ ⟨hunit₂, hip₂, hrax₂, hrbp₂, hmemory₂, hsteps₂⟩
  have hdata₂ : s₂.memory.read Layout.base = w := by
    rw [hmemory₂, h₁.data h.fits hroom h.isData, hentry.data]
  refine (hsettles s₂ hunit₂ hip₂ hrax₂ (hrbp₂.trans h₁.rbp_eq) hdata₂).bind ?_
  rintro s₃ ⟨hunit₃, hip₃, hrbp₃, hkept₃, hdata₃, hsteps₃⟩
  have hread : ∀ maxSteps, Exec.read (E.image maxSteps) (.global (globalSymbol "y") 0) s₃.next =
      .ok v s₃.next := by
    intro maxSteps
    rw [← hdata₃]
    exact read_of_address rfl (addressOf_global rfl (h.global maxSteps) 0)
      (Setting.accessible_data h.isData maxSteps)
  have hcode := h.codeAt_last.right
  refine .step (hcode.steps hunit₃ hip₃ fun maxSteps => instruction_mov_reg (hread maxSteps)) ?_
  refine (h.closed_leads (s := s₃.next.setReg .rax v) hcode.tail.left hroom hunit₃
    (congrArg (· + 1) hip₃) (hrbp₃.trans (hrbp₂.trans h₁.rbp_eq))).mono fun s₄ h₄ => ?_
  have hkept : Kept (height + 3) s₁ s₃ := (Kept.of_memory hmemory₂).trans hkept₃
  refine h₄.exit ((h₁.kept h.fits hroom).trans (hkept.mono (Nat.le_succ _))) ?_ rfl hdata₃ ?_
  · exact (hkept _ (Nat.succ_pos _) le_rfl).trans (h₁.saved h.fits hroom)
  · have hsteps₁ := h₁.steps_eq
    change s₃.steps + 1 + 2 = _
    omega

/-- An activation that calls another one returns what that one returns, after eighteen steps
more. -/
theorem caller_leads (h : Hosts E slots id gone last) {cost : Nat} (hn : n ≠ 0)
    (hroom : height + 3 + slots + 2 ≤ E.stackWords) (hentry : Entry height n w s)
    (hcallee : ∀ s', Entry (height + 3 + slots) (n - 1) w s' →
      E.Leads s' (Exit E (height + 3 + slots) v cost s')) :
    E.Leads s (Exit E height v (18 + cost) s) := by
  have hframe : height + 3 ≤ E.stackWords := by omega
  refine (h.opened_leads hframe hentry).bind fun s₁ h₁ => ?_
  have hholds : conditionHolds .jz s₁.lhs s₁.rhs = false := by
    rw [h₁.lhs_eq, h₁.rhs_eq, conditionHolds_and_self]
    simpa using hn
  refine (h.staged_leads hframe h₁.unit_eq h₁.ip_eq h₁.rbp_eq hholds).bind ?_
  rintro s₂ ⟨hunit₂, hip₂, hrax₂, hrbp₂, hrsp₂, hmemory₂, hsteps₂⟩
  refine (h.called_leads hroom hunit₂ hip₂ (hrsp₂.trans h₁.rsp_eq)).bind ?_
  rintro s₃ ⟨hentry₃, hrbp₃, hreturn₃, hkept₃, hsteps₃⟩
  have hargument : s₁.stackWord (height + 1) = n :=
    (h₁.kept h.fits hframe _ (Nat.succ_pos _) (Nat.le_succ _)).trans hentry.argument
  rw [hrax₂, hargument, hmemory₂, h₁.data h.fits hframe h.isData, hentry.data] at hentry₃
  refine (hcallee s₃ hentry₃).bind fun s₄ h₄ => ?_
  obtain ⟨line, hfetch⟩ := h₄.fetch
  refine (h.returned_leads hframe h₄.unit_eq hfetch hroom h₄.rsp_eq
    ((h₄.kept _ (Nat.succ_pos _) le_rfl).trans hreturn₃)
    (h₄.rbp_eq.trans (hrbp₃.trans (hrbp₂.trans h₁.rbp_eq)))).mono fun s₅ h₅ => ?_
  have hkept : Kept (height + 3) s₁ s₄ :=
    (Kept.of_memory hmemory₂).trans ((hkept₃.mono (by omega)).trans (h₄.kept.mono (by omega)))
  refine h₅.exit ((h₁.kept h.fits hframe).trans (hkept.mono (Nat.le_succ _))) ?_ h₄.value h₄.data ?_
  · exact (hkept _ (Nat.succ_pos _) le_rfl).trans (h₁.saved h.fits hframe)
  · have hsteps₁ := h₁.steps_eq
    have hsteps₄ := h₄.steps_eq
    omega

/-- All activations, by induction on how deep they go. -/
theorem dive_leads (h : Hosts E slots id gone last) (n : Nat)
    (hroom : height + n * (slots + 3) + 3 ≤ E.stackWords)
    (hsettles : Settles E (22 + gone.length) (height + n * (slots + 3)) last w v)
    (hentry : Entry height (Int64.ofNat n) w s) :
    E.Leads s (Exit E height v (18 * n + 13 + last.length) s) := by
  induction n generalizing height s with
  | zero =>
      rw [Nat.zero_mul, Nat.add_zero] at hroom hsettles
      rw [Nat.mul_zero, Nat.zero_add]
      exact h.deepest_leads hroom hsettles hentry
  | succ n ih =>
      have hdeep : height + (n + 1) * (slots + 3) = height + 3 + slots + n * (slots + 3) := by ring
      rw [hdeep] at hroom hsettles
      have hfits := h.fits
      unfold Setting.Fits Program.Fits at hfits
      have htop : Image.stackTop.toNat = 0x7fff0000 := rfl
      have hle : n ≤ n * (slots + 3) := Nat.le_mul_of_pos_right n (Nat.succ_pos _)
      have hpos : Int64.ofNat (n + 1) ≠ 0 := by
        intro hzero
        have hnat := congrArg (fun v : Word => v.toUInt64.toNat) hzero
        rw [Int64.toUInt64_ofNat', UInt64.toNat_ofNat_of_lt' (by simp [UInt64.size]; omega)] at hnat
        exact absurd hnat (Nat.succ_ne_zero n)
      have hpred : Int64.ofNat (n + 1) - 1 = Int64.ofNat n := by
        rw [Int64.ofNat_add]
        exact Int64.add_sub_cancel _ _
      rw [show 18 * (n + 1) + 13 + last.length = 18 + (18 * n + 13 + last.length) by ring]
      refine h.caller_leads hpos (by omega) hentry fun s' hentry' => ?_
      rw [hpred] at hentry'
      exact ih hroom hsettles hentry'

/-- A call of the function, from any state. -/
theorem callFunction_leads (h : Hosts E slots id gone last) (n : Nat)
    (hroom : n * (slots + 3) + 3 ≤ E.stackWords)
    (hsettles : Settles E (22 + gone.length) (n * (slots + 3)) last w v)
    (hdata : s.memory.read Layout.base = w) :
    ∃ s', s'.steps = s.steps + (18 * n + 14 + last.length) ∧ s'.memory.read Layout.base = v ∧
      ∀ maxSteps, s'.steps ≤ maxSteps →
        callFunction (E.image maxSteps) "plunge" [Int64.ofNat n] s = .ok v s' := by
  have hrsp : ({ s with regs := { rsp := Image.stackTop.toInt64 } } : MachineState).regs.rsp =
      stackPointer 0 := rfl
  have hargs : 0 + [Int64.ofNat n].length ≤ E.stackWords := by
    rw [List.length_singleton]
    omega
  obtain ⟨s₁, hpushArgs, hrsp₁, hholds₁, -, hdata₁, hsteps₁⟩ := pushArgs_leads h.fits hrsp hargs
  obtain ⟨s₂, hpush, hrsp₂, hword₂, hkept₂, hdata₂, hsteps₂⟩ :=
    pushWord_leads h.fits hrsp₁ (by simp; omega) returnSentinel
  have hentry : Entry 0 (Int64.ofNat n) w { s₂ with unit := 0, ip := 0 } := by
    refine ⟨rfl, rfl, by simpa using hrsp₂, ?_, ?_⟩
    · exact (hkept₂ 1 Nat.one_pos (by simp)).trans (hholds₁ 0 _ rfl)
    · exact (hdata₂ _ h.isData).trans ((hdata₁ _ h.isData).trans hdata)
  obtain ⟨s₃, hreaches, h₃⟩ := h.dive_leads n (by omega) (by rwa [Nat.zero_add]) hentry
  obtain ⟨line, hfetch⟩ := h₃.fetch
  have hreturn : s₃.stackWord 2 = returnSentinel := by
    rw [h₃.kept 2 (by omega) (by omega), ← hword₂]
    rfl
  refine ⟨s₃.next.setReg .rsp (stackPointer 1), ?_, ?_, ?_⟩
  · have hsteps₃ : s₃.steps = s₂.steps + (18 * n + 13 + last.length) := h₃.steps_eq
    rw [MachineState.setReg_steps, MachineState.next_steps, hsteps₃, hsteps₂, hsteps₁]
    dsimp only
    omega
  · rw [MachineState.setReg_memory, MachineState.next_memory, h₃.data]
  · intro maxSteps hlimit
    rw [MachineState.setReg_steps, MachineState.next_steps] at hlimit
    rw [← h₃.value]
    exact callFunction_of_reaches h.fits h.functions hpushArgs hpush hreaches
      (by rw [h₃.unit_eq]; exact hfetch) (by omega) h₃.rsp_eq hreturn maxSteps hlimit

theorem call_eq (h : Hosts E slots id gone last) {n : Nat}
    (hroom : n * (slots + 3) + 3 ≤ E.stackWords)
    (hsettles : Settles E (22 + gone.length) (n * (slots + 3)) last (s.memory.read Layout.base) v)
    {maxSteps : Nat} (hsteps : s.steps + (18 * n + 14 + last.length) ≤ maxSteps) :
    (Machine.call ⟨E.image maxSteps, s⟩ "plunge" [Int64.ofNat n]).1 = .ok v := by
  obtain ⟨s', hcount, -, hcall⟩ := h.callFunction_leads n hroom hsettles rfl
  rw [Machine.call_eq_ok.mpr ⟨s', hcall maxSteps (by omega), rfl⟩]

end Hosts

end Run

section Difference

variable {slots id : Nat} {gone last : Code}

theorem mem_code_of_fetch {limits : Limits} {u k : Nat} {i : Instruction}
    (h : (Image.ofProgram (program slots id gone last) limits).fetch? u k = some i) :
    i ∈ code slots id gone last := by
  rw [Image.fetch?_ofProgram] at h
  cases u with
  | zero => exact List.mem_of_getElem? h
  | succ u => cases h

theorem load_program (slots id : Nat) (gone last : Code) (limits : Limits) :
    Machine.load (program slots id gone last) limits =
      .ok (Machine.fresh (Image.ofProgram (program slots id gone last) limits)) := by
  have hnodup : ((Layout.requests (program slots id gone last)).map (·.1)).Nodup :=
    List.nodup_singleton (globalSymbol "y")
  exact Machine.load_eq hnodup limits

/-- The two checks that a call has to pass are passed by every instruction. -/
theorem call_careful (slots id : Nat) (ds : List Word) (limits : Limits) (s : MachineState)
    (args : List Word) :
    let m : Machine := {
      image := Image.ofProgram (program slots id (Plunge.gone ds) (Plunge.last slots)) limits
      state := s }
    m.LoadsFollowStores "plunge" args ∧ m.ElementsOffStack "plunge" args := by
  constructor
  · refine Machine.everyStep_of_forall fun u k i _ stored hi => ?_
    have hcalm := code_calm i (mem_code_of_fetch hi)
    rw [calm, Bool.and_eq_true, List.all_eq_true] at hcalm
    refine List.all_eq_true.mpr fun d hd => ?_
    rw [eq_of_beq (hcalm.1 d hd)]
    rfl
  · refine Machine.everyStep_of_forall fun u k i _ stored hi => ?_
    have hcalm := code_calm i (mem_code_of_fetch hi)
    rw [calm, Bool.and_eq_true, List.all_eq_true, List.all_eq_true] at hcalm
    refine List.all_eq_true.mpr fun o ho => ?_
    rw [hcalm.2 o ho, Bool.true_or]

theorem fits_program {stackWords : Nat}
    (h : Layout.base.toNat + 8 * (stackWords + 1) ≤ Image.stackTop.toNat) :
    (program slots id gone last).Fits stackWords := by
  have htotal : Layout.total (Layout.requests (program slots id gone last)) = 1 := rfl
  rw [Program.Fits, htotal]
  omega

/-- The program on a stack of so many words. -/
def setting (slots id : Nat) (gone last : Code) (stackWords : Nat) : Setting where
  world := { functions := [], program := program slots id gone last }
  stackWords := stackWords

theorem setting_hosts {stackWords : Nat} (hfits : (program slots id gone last).Fits stackWords)
    (hgone : gone.labels = []) (hlast : last.labels = []) :
    Hosts (setting slots id gone last stackWords) slots id gone last := ⟨hfits, rfl, hgone, hlast⟩

theorem labels_gone (ds : List Word) : Code.labels (Plunge.gone ds) = [] := by
  induction ds with
  | nil => rfl
  | cons d rest ih => exact ih

theorem addressable_program (hlength : (code slots id gone last).length < 2 ^ 32) :
    (program slots id gone last).Addressable :=
  ⟨(by decide : 1 < 2 ^ 32), List.forall_mem_singleton.mpr hlength⟩

theorem code_length : (code slots id gone last).length = 30 + gone.length + last.length := by
  simp [code, descent, opening, calling, landing, epilogue, fallthrough]
  omega

end Difference

end Plunge

/-- A dead store shows. The frames of the activations, one after the other, end with the first
word of the data area, which is the global that the function returns. The call keeps to what is
asked of a call whose answer optimization must not change: it loads no local and no element.
As compiled it answers the word stored to the last slot; without the dead store it answers what
the global holds. -/
theorem plunge_differs {spare : List String} (hspare : Plunge.Spare spare) {n : Nat}
    {limits : Limits}
    (hover : Layout.base.toNat + 8 * ((n + 1) * (spare.length + 4)) = Image.stackTop.toNat)
    (hroom : n * (spare.length + 4) + 3 ≤ limits.maxStackWords)
    (hend : limits.maxStackWords < (n + 1) * (spare.length + 4)) (s : MachineState)
    (hsteps : s.steps + (18 * n + 15) ≤ limits.maxSteps) :
    ∃ p m o, Source.compile [some (plunge spare)] 1 = .ok p ∧ p.Addressable ∧
      p.Fits limits.maxStackWords ∧ Machine.load p limits = .ok m ∧
      Machine.load ((Pipeline.standard.setEnabled "peephole" false).run p).1 limits = .ok o ∧
      ({ m with state := s } : Machine).LoadsFollowStores "plunge" [Int64.ofNat n] ∧
      ({ m with state := s } : Machine).ElementsOffStack "plunge" [Int64.ofNat n] ∧
      ({ m with state := s } : Machine).snapshot = ({ o with state := s } : Machine).snapshot ∧
      (({ m with state := s } : Machine).call "plunge" [Int64.ofNat n]).1 = .ok 7 ∧
      (({ o with state := s } : Machine).call "plunge" [Int64.ofNat n]).1 =
        .ok (s.memory.read Layout.base) := by
  obtain ⟨id, ds, hcompile, hcount, hds⟩ := Plunge.compile_eq hspare
  obtain ⟨maxSteps, stackWords⟩ := limits
  dsimp only at hroom hend hsteps
  have htop : Image.stackTop.toNat = 0x7fff0000 := rfl
  have hframe : spare.length + 4 ≤ (n + 1) * (spare.length + 4) :=
    Nat.le_mul_of_pos_left _ (Nat.succ_pos n)
  have hheight : stackAddress (n * (spare.length + 4) + 3 + (spare.length + 1)) = Layout.base := by
    rw [show n * (spare.length + 4) + 3 + (spare.length + 1) = (n + 1) * (spare.length + 4) by ring]
    apply UInt64.toNat_inj.mp
    rw [toNat_stackAddress (by omega)]
    omega
  have hfits : ∀ gone last, (Plunge.program (spare.length + 1) id gone last).Fits stackWords :=
    fun gone last => Plunge.fits_program (by omega)
  have hhosts := Plunge.setting_hosts (hfits (Plunge.gone ds) (Plunge.last (spare.length + 1)))
    (Plunge.labels_gone ds) rfl
  have hhosts' := Plunge.setting_hosts (hfits (Plunge.gone []) []) rfl rfl
  have hrun := Plunge.run_program id (by omega) hds
  obtain ⟨hloads, helements⟩ := Plunge.call_careful (spare.length + 1) id ds
    { maxSteps := maxSteps, maxStackWords := stackWords } s [Int64.ofNat n]
  refine ⟨_, _, _, hcompile, Plunge.addressable_program ?_, hfits _ _, Plunge.load_program _ _ _ _ _,
    (congrArg (Machine.load · _) hrun).trans (Plunge.load_program _ _ _ _ _), hloads, helements, rfl,
    ?_, ?_⟩
  · rw [Plunge.code_length, Plunge.gone, Plunge.last, List.length_cons, List.length_map,
      List.length_singleton]
    omega
  · exact hhosts.call_eq hroom (hhosts.settles_store (Nat.le_trans (by omega) hroom) hheight _) hsteps
  · exact hhosts'.call_eq hroom (Plunge.settles_nil _ _ _ _) (Nat.le_trans (by simp) hsteps)

end Arbor
