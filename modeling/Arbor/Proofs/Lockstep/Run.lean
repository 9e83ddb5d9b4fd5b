import Mathlib.Tactic
import Arbor.Proofs.Lockstep.Calls
import Arbor.Proofs.Lockstep.Removal

/-!
Whole runs side by side. Every step of the one run is followed by at most one step of the
other, so the other run ends too, with the same result and the same words in the data area,
and is no longer.
-/

namespace Arbor

open Exec

/-- The kinds of instructions: those that leave their place, and those that go on. -/
theorem Instruction.Moves.kinds {arity? : String → Option Nat} {size : FrameSize} {σ : Shape}
    {i : Instruction} {next : Option Shape} (h : i.Moves arity? size σ next) :
    (∃ height label line, σ = .inside height 0 ∧ i = .make .jmp [.sym label] line) ∨
      (∃ height m label line, σ = .compared height ∧ next = some (.inside height 0) ∧
        m.isConditionalJump = true ∧ i = .make m [.sym label] line) ∨
      (∃ height callee line, σ = .inside height 0 ∧ i = .make .call [.sym callee] line ∧
        ∀ n, arity? callee = some n → next = some (.inside height n) ∧ size.slots + n ≤ height) ∨
      (∃ line, σ = .outside ∧ i = .make .ret [] line) ∨
      (∃ σ', next = some σ' ∧ i.mnemonic.isJump = false ∧ i.mnemonic ≠ .call ∧
        i.mnemonic ≠ .ret) := by
  cases h with
  | jump => exact .inl ⟨_, _, _, rfl, rfl⟩
  | branch hm => exact .inr (.inl ⟨_, _, _, _, rfl, rfl, hm, rfl⟩)
  | @call height n callee line hn hh =>
      refine .inr (.inr (.inl ⟨height, callee, line, rfl, rfl, ?_⟩))
      intro n' hn'
      rw [hn] at hn'
      cases hn'
      exact ⟨rfl, hh⟩
  | external hn =>
      refine .inr (.inr (.inl ⟨_, _, _, rfl, rfl, ?_⟩))
      intro n hn'
      rw [hn] at hn'
      cases hn'
  | ret => exact .inr (.inr (.inr (.inl ⟨_, rfl, rfl⟩)))
  | compute hi =>
      refine .inr (.inr (.inr (.inr ⟨_, rfl, ?_⟩)))
      cases hi with
      | combine hm =>
          simp only [List.mem_cons, List.not_mem_nil, or_false] at hm
          rcases hm with rfl | rfl | rfl | rfl <;> exact ⟨rfl, by simp [make], by simp [make]⟩
      | lea | extend | divide => exact ⟨rfl, by simp [make], by simp [make]⟩
  | compare hm =>
      refine .inr (.inr (.inr (.inr ⟨_, rfl, ?_⟩)))
      simp only [List.mem_cons, List.not_mem_nil, or_false] at hm
      rcases hm with rfl | rfl <;> exact ⟨rfl, by simp [make], by simp [make]⟩
  | pushBase | setBase | reserve | move | push | pop | drop | leave | popBase =>
      exact .inr (.inr (.inr (.inr ⟨_, rfl, rfl, by simp [make], by simp [make]⟩)))

theorem Registers.rax_set_rsp (rs : Registers) (v : Word) : (rs.set .rsp v).rax = rs.rax := rfl

namespace Lockstep

variable {L : Lockstep} {f : Activation} {callers : List Activation} {σ : Shape}
  {i : Instruction} {s s' t : MachineState} {b : Bool}

/-- The slots that one run has stored to, by activation. -/
def storedOf (f : Activation) (callers : List Activation) : List (List Word) :=
  (f :: callers).map (·.stored)

/-- The slots that the other run has stored to, by activation. -/
def keptOf (f : Activation) (callers : List Activation) : List (List Word) :=
  (f :: callers).map (·.kept)

/-- The other run takes at most one step, which passes the check. -/
def Follows (L : Lockstep) (kept kept' : List (List Word)) (t t' : MachineState) : Prop :=
  (kept' = kept ∧ t' = t) ∨
    ∃ i, L.target.fetch? t.unit t.ip = some i ∧ L.target.careful t (kept.headD []) i = true ∧
      instruction L.target i t.next = .ok false t' ∧ kept' = i.track kept

/-- After a step of the one run, the other has followed. -/
def Progress (L : Lockstep) (f : Activation) (callers : List Activation) (i : Instruction)
    (s' t : MachineState) : Prop :=
  ∃ f' callers' σ' t', L.Paired f' callers' σ' s' t' ∧
    storedOf f' callers' = i.track (storedOf f callers) ∧
    L.Follows (keptOf f callers) (keptOf f' callers') t t'

/-- Both calls end with the same result. -/
def Ends (L : Lockstep) (f : Activation) (callers : List Activation) (s' t : MachineState) :
    Prop :=
  ∃ i t', L.target.fetch? t.unit t.ip = some i ∧
    L.target.careful t ((keptOf f callers).headD []) i = true ∧
    instruction L.target i t.next = .ok true t' ∧ t'.regs.rax = s'.regs.rax ∧
    ∀ a, L.IsData a → s'.memory.read a = t'.memory.read a

/-- What one run may do, the other may. -/
theorem Paired.careful (hL : L.Sound) (hp : L.Paired f callers σ s t)
    (hi : f.unit.code[f.ip]? = some i) (hcareful : L.source.careful s f.stored i = true) :
    L.target.careful t f.kept i = true := by
  simp only [Image.careful, Bool.and_eq_true] at hcareful ⊢
  obtain ⟨hloads, hoff⟩ := hcareful
  have hplan := hL.plans f.unit (List.mem_of_getElem? hp.owner)
  constructor
  · rw [Instruction.loadsStored, List.all_eq_true] at hloads ⊢
    intro d hd
    have hstored := hloads d hd
    simp only [Bool.or_eq_true, decide_eq_true_eq, List.contains_iff_mem] at hstored ⊢
    rcases hstored with hparam | hstored
    · exact .inl hparam
    · exact hp.tracks f List.mem_cons_self d (hplan.reads f.ip i d hi hd) hstored
  · simpa only [Image.elementsOffStack, hL.isStack_target, hp.regs_eq] using hoff

theorem Paired.fetch?_target (hp : L.Paired f callers σ s t) (hi : f.unit.code[f.ip]? = some i)
    (hkeep : (L.plan f.unit.code).keep f.ip = true) :
    L.target.fetch? t.unit t.ip = some i := by
  rw [hp.target_unit, hp.target_ip]
  exact (Lockstep.fetch?_target hp.owner hkeep).trans hi

section Kept

variable (hL : L.Sound) (hp : L.Paired f callers σ s t) (hi : f.unit.code[f.ip]? = some i)
  (hkeep : (L.plan f.unit.code).keep f.ip = true)
  (hcareful : L.source.careful s f.stored i = true)

include hL hp hi hkeep hcareful

/-- Both runs execute an instruction and go on after it. -/
theorem Paired.go_on {σ' : Shape} (hfalls : i.mnemonic ≠ .ret ∧ i.mnemonic ≠ .jmp)
    (hcall : i.mnemonic ≠ .call) (hshaped : L.ShapedAt f.unit (f.ip + 1) σ')
    (hmoved : i.mnemonic ≠ .none → ∃ σ₀, i.Moves L.program.arity? f.unit.frameSize σ₀ (some σ'))
    (hmatches : L.Matches f callers σ σ' i s t s')
    (h : instruction L.source i s.next = .ok false s') : L.Progress f callers i s' t := by
  obtain ⟨c, rfl, htarget, hsuits⟩ := hmatches
  have hloads : i.loadsStored f.stored = true := by
    simp only [Image.careful, Bool.and_eq_true] at hcareful
    exact hcareful.1
  have htrack : ∀ slots : List Word, ∀ rest, i.record slots :: rest = i.track (slots :: rest) :=
    fun slots rest => (Instruction.track_cons hcall hfalls.1 slots rest).symm
  exact ⟨_, callers, σ', _, hp.advance hL hi hkeep hshaped hsuits hmoved
    (past_of_instruction hfalls h hloads rfl), htrack _ _,
    .inr ⟨i, hp.fetch?_target hi hkeep, hp.careful hL hi hcareful, htarget, htrack _ _⟩⟩

/-- Both runs execute an instruction that changes nothing and go on after it. -/
theorem Paired.go_past {σ' : Shape} (hfalls : i.mnemonic ≠ .ret ∧ i.mnemonic ≠ .jmp)
    (hcall : i.mnemonic ≠ .call) (hslot : i.slotWritten? = none)
    (hshaped : L.ShapedAt f.unit (f.ip + 1) σ')
    (hmoved : i.mnemonic ≠ .none → ∃ σ₀, i.Moves L.program.arity? f.unit.frameSize σ₀ (some σ'))
    (hσ : σ' = σ ∨ ∃ height, σ = .compared height ∧ σ' = .inside height 0)
    (h : instruction L.source i s.next = .ok false s.next)
    (h' : instruction L.target i t.next = .ok false t.next) : L.Progress f callers i s.next t := by
  have hsuits : L.Suits f callers σ σ' i { regs := s.regs } := by
    rcases hσ with rfl | ⟨height, rfl, rfl⟩
    · exact hp.suits_quiet rfl hp.stands hp.within (fun _ heq => .inr heq) id hslot
        (.inl (Nat.le_refl _))
    · exact hp.suits_quiet rfl hp.stands hp.within (by simp) (by simp) hslot (.inl (Nat.le_refl _))
  refine hp.go_on hL hi hkeep hcareful hfalls hcall hshaped hmoved
    ⟨{ regs := s.regs }, rfl, ?_, hsuits⟩ h
  rw [h', ← hp.regs_eq]
  rfl

/-- Both runs jump to a label. -/
theorem Paired.go_to {height k : Nat} {label : String} (hσ : σ = .inside height 0 ∨ σ = .compared height)
    (hm : i.mnemonic = .jmp ∨ i.mnemonic.isConditionalJump = true) (hos : i.operands = [.sym label])
    (hshaped : ∀ j target, f.unit.code[j]? = some target → target.label = some label →
      L.ShapedAt f.unit j σ.landing)
    (hk : L.source.target? s.next.unit label = some k)
    (h' : ∀ k', L.target.target? t.next.unit label = some k' →
      instruction L.target i t.next = .ok false (t.next.goto k')) :
    L.Progress f callers i (s.next.goto k) t := by
  rw [MachineState.next_unit, hp.source_unit] at hk
  obtain ⟨target, htarget, hlabel⟩ := (hL.target?_source hp.owner).mp hk
  have hplan := hL.plans f.unit (List.mem_of_getElem? hp.owner)
  have hk' := hL.target?_target hp.owner hk
  have hstep := h' _ (by rw [MachineState.next_unit, hp.target_unit]; exact hk')
  have hcall : i.mnemonic ≠ .call := by
    intro heq
    rw [heq] at hm
    rcases hm with hm | hm <;> cases hm
  have hret : i.mnemonic ≠ .ret := by
    intro heq
    rw [heq] at hm
    rcases hm with hm | hm <;> cases hm
  have hslot : i.slotWritten? = none := by
    unfold Instruction.slotWritten?
    split
    · rename_i heq _
      rw [heq] at hm
      rcases hm with hm | hm <;> cases hm
    · rfl
  have htrack : ∀ (slots : List Word) rest, slots :: rest = i.track (slots :: rest) := by
    intro slots rest
    rw [Instruction.track_cons hcall hret, Instruction.record, hslot]
  refine ⟨f.land k, callers, .inside height 0,
    t.next.goto (Code.rank (L.plan f.unit.code).keep k), hp.land hσ htarget hlabel
    (hshaped k target htarget hlabel)
    (fun d => hplan.jump f.ip i label k target d hi hm hos htarget hlabel)
    ⟨rfl, rfl, rfl, rfl⟩, htrack _ _,
    .inr ⟨i, hp.fetch?_target hi hkeep, hp.careful hL hi hcareful, hstep, htrack _ _⟩⟩

end Kept

/-- Both runs call a function. -/
theorem Paired.go_into (hL : L.Sound) {height : Nat} {callee : String} {line : UInt32}
    (hp : L.Paired f callers (.inside height 0) s t)
    (hi : f.unit.code[f.ip]? = some (.make .call [.sym callee] line))
    (hkeep : (L.plan f.unit.code).keep f.ip = true)
    (hcareful : L.source.careful s f.stored (.make .call [.sym callee] line) = true)
    (hcall : ∀ n, L.program.arity? callee = some n →
      L.ShapedAt f.unit (f.ip + 1) (.inside height n) ∧ f.unit.slots + n ≤ height)
    (h : instruction L.source (.make .call [.sym callee] line) s.next = .ok b s') :
    b = false ∧ L.Progress f callers (.make .call [.sym callee] line) s' t := by
  obtain ⟨rfl, u, hlookup, hlimit, haccess, rfl⟩ := instruction_call_eq_ok h
  obtain ⟨unit, -, harity⟩ := hL.exists_unit hlookup
  obtain ⟨hshaped, hslots⟩ := hcall _ harity
  have hsub : s.regs.rsp - 8 = stackPointer (f.base + height + 1) := by
    rw [hp.stands.1, stackPointer_sub]
  have hsub' : t.next.regs.rsp - 8 = stackPointer (f.base + height + 1) := by
    rw [MachineState.next_regs, hp.regs_eq, hsub]
  rw [MachineState.next_regs, hsub] at hlimit haccess ⊢
  rw [toUInt64_stackPointer] at hlimit haccess ⊢
  have hstep : instruction L.target (.make .call [.sym callee] line) t.next =
      .ok false (((t.next.setReg .rsp (t.next.regs.rsp - 8)).setWord
        (stackAddress (f.base + height + 1)) (returnAddress t.next.unit t.next.ip)).enter u 0) :=
    instruction_call (functions_target ▸ hlookup) (by rw [hsub', toUInt64_stackPointer])
      (by rw [hL.stackLimit_target]; exact hlimit) ((hL.accessTrap?_target _).trans haccess)
  rw [MachineState.next_unit, MachineState.next_ip, hp.source_unit, hp.source_ip]
  rw [hsub', MachineState.next_unit, MachineState.next_ip, hp.target_unit, hp.target_ip] at hstep
  obtain ⟨unit', hpaired⟩ := hp.call hL hi hkeep harity hslots hshaped hlookup hlimit
    haccess (s.enters_call _ _ _ _) (t.enters_call _ _ _ _)
  exact ⟨rfl, _, _, .outside, _, hpaired, rfl,
    .inr ⟨_, hp.fetch?_target hi hkeep, hp.careful hL hi hcareful, hstep, rfl⟩⟩

/-- Both runs return, to the caller or from the call as a whole. -/
theorem Paired.go_back (hL : L.Sound) {line : UInt32} (hp : L.Paired f callers .outside s t)
    (hi : f.unit.code[f.ip]? = some (.make .ret [] line))
    (hkeep : (L.plan f.unit.code).keep f.ip = true)
    (hcareful : L.source.careful s f.stored (.make .ret [] line) = true)
    (h : instruction L.source (.make .ret [] line) s.next = .ok b s') :
    (b = false ∧ L.Progress f callers (.make .ret [] line) s' t) ∨
      (b = true ∧ L.Ends f callers s' t) := by
  have haccess := instruction_ret_eq_ok h
  have hrsp : s.next.regs.rsp = stackPointer (f.base - 1) := hp.stands.1
  have hrsp' : t.next.regs.rsp = stackPointer (f.base - 1) := by
    rw [MachineState.next_regs, hp.regs_eq]
    exact hrsp
  have haccess' : L.target.accessTrap? t.next.regs.rsp.toUInt64 = none := by
    rw [hL.accessTrap?_target, hrsp', ← hrsp]
    exact haccess
  have hword : s.next.memory.read s.next.regs.rsp.toUInt64 = returnWord (·.ip) callers := by
    rw [hrsp, toUInt64_stackPointer]
    exact hp.source_anchored.returns
  have hword' : t.next.memory.read t.next.regs.rsp.toUInt64 = returnWord L.place callers := by
    rw [hrsp', toUInt64_stackPointer]
    exact hp.target_anchored.returns
  have hfetch := hp.fetch?_target hi hkeep
  have hcareful' := hp.careful hL hi hcareful
  have hfloor := hp.stacked.floor_le
  have hup : stackPointer (f.base - 1) + 8 = stackPointer (f.base - 2) := by
    rw [← stackPointer_add (f.base - 2)]
    congr 2
    omega
  cases callers with
  | nil =>
      right
      rw [instruction_ret_last haccess hword] at h
      cases h
      refine ⟨rfl, _, _, hfetch, hcareful', instruction_ret_last haccess' hword', ?_, hp.data⟩
      rw [MachineState.setReg_regs, MachineState.setReg_regs, Registers.rax_set_rsp,
        Registers.rax_set_rsp]
      exact congrArg Registers.rax hp.regs_eq
  | cons g rest =>
      left
      obtain ⟨-, hwaits, -⟩ := hp.stacked
      obtain ⟨k, callee, line', hip, hk, -⟩ := hwaits.called
      have hunits : L.source.units.size = L.program.units.length := by
        simp [source, Image.ofProgram]
      have hunits' : L.target.units.size = L.program.units.length := by
        simp [target, Image.ofProgram, thinned, Program.mapCode]
      have howner : g.owner < L.program.units.length :=
        (List.getElem?_eq_some_iff.mp hwaits.owner).1
      have hlength := hL.addressable.code_lt g.unit (List.mem_of_getElem? hwaits.owner)
      have hcount := hL.addressable.units_lt
      have hlt : k < g.unit.code.length := (List.getElem?_eq_some_iff.mp hk).1
      have hplace : L.place g ≤ g.ip := Code.rank_le _
      have hword : s.next.memory.read s.next.regs.rsp.toUInt64 = returnAddress g.owner g.ip := hword
      have hword' : t.next.memory.read t.next.regs.rsp.toUInt64 =
          returnAddress g.owner (L.place g) := hword'
      have hstep' : instruction L.target (.make .ret [] line) t.next =
          .ok false ((t.next.setReg .rsp (t.next.regs.rsp + 8)).enter g.owner (L.place g)) :=
        instruction_ret haccess' hword' (by omega) (by omega) (by omega)
      rw [instruction_ret haccess hword (by omega) (by omega) (by omega), hrsp, hup] at h
      rw [hrsp', hup] at hstep'
      cases h
      obtain ⟨height, hpaired⟩ := hp.ret (s.enters_ret _ _ _) (t.enters_ret _ _ _)
      exact ⟨rfl, g, rest, _, _, hpaired, rfl, .inr ⟨_, hfetch, hcareful', hstep', rfl⟩⟩

/-- A step of both runs. -/
theorem Paired.step_kept (hL : L.Sound) (hp : L.Paired f callers σ s t)
    (hi : f.unit.code[f.ip]? = some i) (hkeep : (L.plan f.unit.code).keep f.ip = true)
    (hcareful : L.source.careful s f.stored i = true)
    (h : instruction L.source i s.next = .ok b s') :
    (b = false ∧ L.Progress f callers i s' t) ∨ (b = true ∧ L.Ends f callers s' t) := by
  rcases hp.shaped.cases hi with ⟨name, line, rfl, hshaped⟩ | ⟨next, hmoves, hnext, hjump⟩
  · rw [instruction_labelled] at h
    cases h
    exact .inl ⟨rfl, hp.go_past hL hi hkeep hcareful (by simp [Instruction.labelled])
      (by simp [Instruction.labelled]) rfl hshaped (fun hm => absurd rfl hm) (.inl rfl)
      (instruction_labelled name) (instruction_labelled name)⟩
  · rcases hmoves.kinds with ⟨height, label, line, rfl, rfl⟩ |
      ⟨height, m, label, line, rfl, rfl, hm, rfl⟩ | ⟨height, callee, line, rfl, rfl, hcall⟩ |
      ⟨line, rfl, rfl⟩ | ⟨σ', rfl, hplain, hcall, hret⟩
    · left
      obtain ⟨rfl, k, hk, rfl⟩ := instruction_jmp_eq_ok h
      exact ⟨rfl, hp.go_to hL hi hkeep hcareful (.inl rfl) (.inl rfl) rfl
        (fun j target => hjump label rfl rfl j target) hk fun k' hk' => instruction_jmp hk'⟩
    · left
      have hjumps : (Instruction.make m [.sym label] line).mnemonic.isJump = true := by
        simp [Mnemonic.isJump, Instruction.make, hm]
      obtain ⟨hlhs, hrhs⟩ := hp.flags_eq height rfl
      obtain ⟨rfl, ⟨hholds, k, hk, rfl⟩ | ⟨hholds, rfl⟩⟩ := instruction_branch_eq_ok hm h
      · refine ⟨rfl, hp.go_to hL hi hkeep hcareful (.inr rfl) (.inr hm) rfl
          (fun j target => hjump label hjumps rfl j target) hk fun k' hk' => ?_⟩
        refine instruction_branch_taken hm ?_ hk'
        rw [MachineState.next_lhs, MachineState.next_rhs, hlhs, hrhs]
        exact hholds
      · have hpassed : conditionHolds m t.next.lhs t.next.rhs = false := by
          rw [MachineState.next_lhs, MachineState.next_rhs, hlhs, hrhs]
          exact hholds
        have hother : m ≠ .ret ∧ m ≠ .jmp ∧ m ≠ .call ∧ m ≠ .mov := by
          cases m <;> cases hm <;> simp
        refine ⟨rfl, hp.go_past hL hi hkeep hcareful ⟨hother.1, hother.2.1⟩ hother.2.2.1 ?_
          (hnext _ rfl) (fun _ => ⟨_, hmoves⟩) (.inr ⟨height, rfl, rfl⟩)
          (instruction_branch_passed hm hholds) (instruction_branch_passed hm hpassed)⟩
        cases m <;> cases hm <;> rfl
    · left
      refine hp.go_into hL hi hkeep hcareful (fun n hn => ?_) h
      obtain ⟨hnext', hslots⟩ := hcall n hn
      exact ⟨hnext _ hnext', hslots⟩
    · exact hp.go_back hL hi hkeep hcareful h
    · left
      have hchecks := hcareful
      simp only [Image.careful, Bool.and_eq_true] at hchecks
      obtain ⟨rfl, hmatches⟩ :=
        hp.matches_moves hL hi hmoves hplain hcall hchecks.1 hchecks.2 h
      have hjmp : i.mnemonic ≠ .jmp := by
        intro heq
        rw [heq] at hplain
        cases hplain
      exact ⟨rfl, hp.go_on hL hi hkeep hcareful ⟨hret, hjmp⟩ hcall (hnext σ' rfl)
        (fun _ => ⟨σ, hmoves⟩) hmatches h⟩

theorem mnemonic_of_slotWritten? {d : Word} (h : i.slotWritten? = some d) : i.mnemonic = .mov := by
  unfold Instruction.slotWritten? at h
  split at h
  · assumption
  · cases h

/-- A step that the other run has not. -/
theorem Paired.step_gone (hL : L.Sound) (hp : L.Paired f callers σ s t)
    (hi : f.unit.code[f.ip]? = some i) (hgone : (L.plan f.unit.code).keep f.ip = false)
    (hcareful : L.source.careful s f.stored i = true)
    (h : instruction L.source i s.next = .ok b s') :
    b = false ∧ L.Progress f callers i s' t := by
  have hdrops := (hL.plans f.unit (List.mem_of_getElem? hp.owner)).drops f.ip i hi hgone
  have hchecks := hcareful
  simp only [Image.careful, Bool.and_eq_true] at hchecks
  have skipped : i.mnemonic = .mov → b = false ∧ L.Paired (f.skip i) callers σ s' t →
      b = false ∧ L.Progress f callers i s' t := by
    rintro hm ⟨rfl, hpaired⟩
    refine ⟨rfl, f.skip i, callers, σ, t, hpaired, ?_, .inl ⟨rfl, rfl⟩⟩
    exact (Instruction.track_cons (by simp [hm]) (by simp [hm]) _ _).symm
  rcases hp.shaped.cases hi with ⟨name, line, rfl, -⟩ | ⟨next, hmoves, hnext, hjump⟩
  · cases hdrops.label
  · cases hdrops with
    | @deadStore d hapart _ hd _ hdead =>
        obtain rfl := hmoves.of_slotWritten (by rw [hd]; rfl)
        exact skipped (mnemonic_of_slotWritten? hd) (hp.skip_deadStore hL hi hgone hapart hd hdead
          hmoves (hnext σ rfl) hchecks.1 hchecks.2 h)
    | redundant hredundant hlive =>
        rcases hp.arrived.next_of_redundant hi hredundant hmoves with rfl | ⟨hm, hstarts⟩
        · have hjmp : i.mnemonic ≠ .jmp := fun hm => by cases hmoves.eq_none (.inr hm)
          obtain ⟨dst, src, v, hmove, -⟩ := hp.arrived.same_of_redundant hi hredundant hjmp
          exact skipped (Instruction.moveOperands?_eq_some hmove).1 (hp.skip_redundant hi hgone
            hredundant hlive hjmp hmoves (hnext σ rfl) hchecks.1 h)
        · obtain ⟨height, label, line, rfl, rfl, rfl⟩ := hmoves.of_jmp hm
          have hstarts : Code.startsAt label (f.unit.code.drop (f.ip + 1)) := by
            simpa [Code.jumpsToNext, Instruction.make, Operand.sym] using hstarts
          obtain ⟨rfl, k, t', hpaired, hfollows⟩ := hp.land_next hL hi hgone hstarts
            (fun j target => hjump label rfl rfl j target) h
          refine ⟨rfl, f.land k, callers, _, t', hpaired, rfl, ?_⟩
          rcases hfollows with rfl | ⟨name, line', rfl, hfetch⟩
          · exact .inl ⟨rfl, rfl⟩
          · exact .inr ⟨_, hfetch, rfl, instruction_labelled name, rfl⟩

/-- The other run ends with the same result and the same data, after no more steps. -/
theorem Paired.passes {stored : List (List Word)} (hL : L.Sound)
    (h : Passes L.source L.source.careful stored s s') (hp : L.Paired f callers σ s t)
    (hstored : stored = storedOf f callers) :
    ∃ t', Passes L.target L.target.careful (keptOf f callers) t t' ∧
      t'.regs.rax = s'.regs.rax ∧ (∀ a, L.IsData a → s'.memory.read a = t'.memory.read a) ∧
      t'.steps + s.steps ≤ s'.steps + t.steps := by
  have position : ∀ {i f callers σ} {s t : MachineState}, L.Paired f callers σ s t →
      L.source.fetch? s.unit s.ip = some i → f.unit.code[f.ip]? = some i := by
    intro i f callers σ s t hp hi
    rw [hp.source_unit, hp.source_ip, fetch?_source hp.owner] at hi
    exact hi
  have step : ∀ {i f callers σ b} {s s' t : MachineState}, L.Paired f callers σ s t →
      L.source.fetch? s.unit s.ip = some i →
      L.source.careful s ((storedOf f callers).headD []) i = true →
      instruction L.source i s.next = .ok b s' →
      (b = false ∧ L.Progress f callers i s' t) ∨ (b = true ∧ L.Ends f callers s' t) := by
    intro i f callers σ b s s' t hp hi hcareful h
    cases hkeep : (L.plan f.unit.code).keep f.ip with
    | true => exact hp.step_kept hL (position hp hi) hkeep hcareful h
    | false => exact .inl (hp.step_gone hL (position hp hi) hkeep hcareful h)
  induction h generalizing f callers σ t with
  | @last stored s s' i hi hcareful h =>
      subst hstored
      rcases step hp hi hcareful h with ⟨hb, -⟩ | ⟨-, i', t', hfetch, hcareful', h', hrax, hdata⟩
      · cases hb
      · have hsteps : s'.steps = s.steps + 1 := instruction_keepsSteps _ _ _ _ _ h
        have hsteps' : t'.steps = t.steps + 1 := instruction_keepsSteps _ _ _ _ _ h'
        exact ⟨t', .last hfetch hcareful' h', hrax, hdata, by omega⟩
  | @step stored s s₁ s' i hi hcareful h hrest ih =>
      subst hstored
      have hsteps : s₁.steps = s.steps + 1 := instruction_keepsSteps _ _ _ _ _ h
      rcases step hp hi hcareful h with ⟨-, f', callers', σ', t₁, hp', hstored, hfollows⟩ | ⟨hb, -⟩
      · obtain ⟨t', hpasses, hrax, hdata, hle⟩ := ih hp' hstored.symm
        rcases hfollows with ⟨hkept, rfl⟩ | ⟨i', hfetch, hcareful', h', hkept⟩
        · rw [hkept] at hpasses
          exact ⟨t', hpasses, hrax, hdata, by omega⟩
        · have hsteps' : t₁.steps = t.steps + 1 := instruction_keepsSteps _ _ _ _ _ h'
          rw [hkept] at hpasses
          exact ⟨t', .step hfetch hcareful' h' hpasses, hrax, hdata, by omega⟩
      · cases hb

end Lockstep

end Arbor
