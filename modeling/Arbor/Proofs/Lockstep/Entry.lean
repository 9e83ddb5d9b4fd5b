import Mathlib.Tactic
import Arbor.Proofs.Lockstep.Run

/-!
Whole calls side by side. Two machines whose data areas agree enter a function in the same
way, whatever else their memories hold, and from there on one run follows the other.
-/

namespace Arbor

open Exec

namespace Lockstep

variable {L : Lockstep} {height : Nat} {s s' t : MachineState}

/-- Two states while the arguments of a call are pushed. -/
structure Loading (L : Lockstep) (height : Nat) (s t : MachineState) : Prop where
  regs_eq : t.regs = s.regs
  rsp_eq : s.regs.rsp = stackPointer height
  rbp_eq : s.regs.rbp = 0
  height_le : height ≤ L.limits.maxStackWords
  data : ∀ a, L.IsData a → s.memory.read a = t.memory.read a
  words : ∀ x, 1 ≤ x → x ≤ height → s.memory.read (stackAddress x) = t.memory.read (stackAddress x)

/-- Both machines push a word. -/
theorem Loading.push (hL : L.Sound) (h : L.Loading height s t) {v : Word}
    (hpush : Exec.push L.source v s = .ok () s') :
    ∃ t', Exec.push L.target v t = .ok () t' ∧ L.Loading (height + 1) s' t' ∧
      s'.memory.read (stackAddress (height + 1)) = v ∧
      t'.memory.read (stackAddress (height + 1)) = v ∧
      s'.steps = s.steps ∧ t'.steps = t.steps := by
  obtain ⟨hlimit, haccess, rfl⟩ := push_eq_ok hpush
  have hsub : s.regs.rsp - 8 = stackPointer (height + 1) := by rw [h.rsp_eq, stackPointer_sub]
  have hsub' : t.regs.rsp - 8 = stackPointer (height + 1) := by rw [h.regs_eq, hsub]
  rw [hsub] at hlimit haccess ⊢
  rw [toUInt64_stackPointer] at hlimit haccess ⊢
  have hheight_le := h.height_le
  have hroom := le_of_pushed hL.fits (by omega) haccess hlimit
  have hpush' : Exec.push L.target v t =
      .ok () ((t.setReg .rsp (t.regs.rsp - 8)).setWord (stackAddress (height + 1)) v) :=
    push_of_room (by rw [hsub', toUInt64_stackPointer])
      (by rw [hL.stackLimit_target]; exact hlimit) ((hL.accessTrap?_target _).trans haccess)
  rw [hsub'] at hpush'
  refine ⟨_, hpush', ?_, by simp, by simp, by simp, by simp⟩
  exact {
    regs_eq := by
      rw [MachineState.setWord_regs, MachineState.setWord_regs, MachineState.setReg_regs,
        MachineState.setReg_regs, h.regs_eq]
    rsp_eq := by
      rw [MachineState.setWord_regs, MachineState.setReg_regs, Registers.rsp_set_rsp]
    rbp_eq := by
      rw [MachineState.setWord_regs, MachineState.setReg_regs, Registers.rbp_set (by simp)]
      exact h.rbp_eq
    height_le := by omega
    data := by
      intro a ha
      simp only [MachineState.setWord_memory, MachineState.setReg_memory]
      exact Memory.read_write_congr (.inl (h.data a ha))
    words := by
      intro x hpos hle
      simp only [MachineState.setWord_memory, MachineState.setReg_memory]
      apply Memory.read_write_congr
      by_cases hx : x = height + 1
      · exact .inr (by rw [hx])
      · exact .inl (h.words x hpos (by omega)) }

/-- Both machines push the arguments of a call. -/
theorem Loading.pushArgs (hL : L.Sound) (h : L.Loading height s t) {args : List Word}
    (hpush : Exec.pushArgs L.source args s = .ok () s') :
    ∃ t', Exec.pushArgs L.target args t = .ok () t' ∧ L.Loading (height + args.length) s' t' ∧
      s'.steps = s.steps ∧ t'.steps = t.steps := by
  induction args generalizing height s t with
  | nil =>
      cases hpush
      exact ⟨t, rfl, h, rfl, rfl⟩
  | cons v rest ih =>
      obtain ⟨⟨⟩, s₁, hpush₁, hrest⟩ := bind_eq_ok hpush
      obtain ⟨t₁, hpush₁', h₁, -, -, hsteps₁, hsteps₁'⟩ := h.push hL hpush₁
      obtain ⟨t', hrest', h', hsteps, hsteps'⟩ := ih h₁ hrest
      refine ⟨t', ?_, ?_, hsteps.trans hsteps₁, hsteps'.trans hsteps₁'⟩
      · rw [Exec.pushArgs, bind_of_ok hpush₁', hrest']
      · rwa [List.length_cons, Nat.add_comm rest.length 1, ← Nat.add_assoc]

/-- Both machines enter a function. -/
theorem Sound.enterFunction (hL : L.Sound) {name : String} {args : List Word}
    (hdata : ∀ a, L.IsData a → s.memory.read a = t.memory.read a)
    (henter : Exec.enterFunction L.source name args s = .ok () s') :
    ∃ u unit t', Exec.enterFunction L.target name args t = .ok () t' ∧
      L.Paired (.fresh u unit (args.length + 2)) [] .outside s' t' ∧
      s'.steps = s.steps ∧ t'.steps = t.steps := by
  unfold Exec.enterFunction at henter ⊢
  rw [functions_target]
  cases hlookup : L.source.functions.lookup name with
  | none =>
      rw [hlookup] at henter
      cases henter
  | some u =>
      rw [hlookup] at henter
      dsimp only at henter ⊢
      obtain ⟨unit, hunit, -⟩ := hL.exists_unit hlookup
      have hset : ∀ s, (modify fun s => { s with regs := { rsp := Image.stackTop.toInt64 } } :
          Exec Unit) s = .ok () { s with regs := { rsp := Image.stackTop.toInt64 } } := fun _ => rfl
      rw [bind_of_ok (hset s)] at henter
      rw [bind_of_ok (hset t)]
      obtain ⟨⟨⟩, s₁, hargs, hrest⟩ := bind_eq_ok henter
      obtain ⟨⟨⟩, s₂, hpush, hlast⟩ := bind_eq_ok hrest
      obtain ⟨-, rfl⟩ := EStateM.Result.ok.inj hlast
      have h₀ : L.Loading 0 { s with regs := { rsp := Image.stackTop.toInt64 } }
          { t with regs := { rsp := Image.stackTop.toInt64 } } :=
        ⟨rfl, rfl, rfl, Nat.zero_le _, hdata, fun x hpos hle => by omega⟩
      obtain ⟨t₁, hargs', h₁, hsteps₁, hsteps₁'⟩ := h₀.pushArgs hL hargs
      obtain ⟨t₂, hpush', h₂, hword, hword', hsteps₂, hsteps₂'⟩ := h₁.push hL hpush
      have hroom := h₂.height_le
      rw [Nat.zero_add] at h₂ hword hword' hroom
      refine ⟨u, unit, { t₂ with unit := u, ip := 0 }, ?_, ?_, hsteps₂.trans hsteps₁,
        hsteps₂'.trans hsteps₁'⟩
      · rw [bind_of_ok hargs', bind_of_ok hpush']
        rfl
      · exact {
          owner := hunit
          shaped := by
            obtain ⟨marks, hmarks⟩ := hL.shaped unit (List.mem_of_getElem? hunit)
            exact ⟨marks, hmarks, hmarks⟩
          stacked := Nat.le_add_left _ _
          within := by
            simp only [Shape.Within, Activation.fresh_base]
            omega
          top_eq := rfl
          source_unit := rfl
          source_ip := rfl
          target_unit := rfl
          target_ip := Code.rank_zero.symm
          regs_eq := h₂.regs_eq
          flags_eq := by
            intro _ heq
            cases heq
          stands := ⟨h₂.rsp_eq, h₂.rbp_eq⟩
          source_anchored := ⟨hword, fun hσ => absurd rfl hσ, trivial⟩
          target_anchored := ⟨hword', fun hσ => absurd rfl hσ, trivial⟩
          data := h₂.data
          words := by
            intro g hg a ha
            obtain rfl := List.mem_singleton.mp hg
            obtain ⟨x, rfl, hpos, -, hle⟩ := hL.exists_argument hunit (by omega) ha
            exact h₂.words x hpos (by omega)
          tracks := by
            intro g hg d _ hstored
            obtain rfl := List.mem_singleton.mp hg
            cases hstored
          arrived := .entry rfl }

/-- If a careful call returns on the one machine, it is careful on the other, returns the same
word, leaves the same data and takes no more steps. -/
theorem Sound.callFunction (hL : L.Sound) {name : String} {args : List Word} {v : Word}
    (hdata : ∀ a, L.IsData a → s.memory.read a = t.memory.read a)
    (hcall : Exec.callFunction L.source name args s = .ok v s')
    (hcareful : Machine.everyStep ⟨L.source, s⟩ L.source.careful name args = true)
    (hroom : t.steps + (s'.steps - s.steps) ≤ L.limits'.maxSteps) :
    ∃ t', Exec.callFunction L.target name args t = .ok v t' ∧
      Machine.everyStep ⟨L.target, t⟩ L.target.careful name args = true ∧
      (∀ a, L.IsData a → s'.memory.read a = t'.memory.read a) ∧
      t'.steps + s.steps ≤ s'.steps + t.steps := by
  obtain ⟨s₁, henter, hrun, hv⟩ := callFunction_eq_ok.mp hcall
  obtain ⟨u, unit, t₁, henter', hpaired, hsteps, hsteps'⟩ := hL.enterFunction hdata henter
  have hevery : Exec.everyStep L.source L.source.careful (L.source.limits.maxSteps - s₁.steps) [[]]
      s₁ = true := by
    simpa only [Machine.everyStep, henter] using hcareful
  obtain ⟨hpasses, -⟩ := passes_of_run rfl hrun hevery
  obtain ⟨t', hpasses', hrax, hdata', hle⟩ := hpaired.passes hL hpasses rfl
  have hlimit : t'.steps ≤ L.target.limits.maxSteps := by
    have hlimits : L.target.limits = L.limits' := rfl
    rw [hlimits]
    omega
  obtain ⟨hrun', hevery'⟩ := run_of_passes hpasses' hlimit
  refine ⟨t', callFunction_eq_ok.mpr ⟨t₁, henter', hrun', hrax.trans hv⟩, ?_, hdata', by omega⟩
  simp only [Machine.everyStep, henter']
  exact hevery'

end Lockstep

end Arbor
