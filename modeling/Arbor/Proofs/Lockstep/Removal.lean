import Mathlib.Tactic
import Arbor.Proofs.Lockstep.Effects

/-!
The instructions that one run has and the other has not. A redundant move writes a word
where it is already, since the instruction before it has run; a dead store writes to a slot
that nothing reads; a jump to the next position takes no longer than the labels it passes.
-/

namespace Arbor

open Exec

theorem Registers.set_get (rs : Registers) (r : Reg) : rs.set r (rs.get r) = rs := by
  cases r <;> rfl

namespace Exec

/-- Writing the word that is there changes no word. -/
theorem write_same {img : Image} {o : Operand} {v : Word} {s s' : MachineState}
    (hread : Exec.read img o s = .ok v s) (hwrite : Exec.write img o v s = .ok () s') :
    ∃ word, s' = s.after { regs := s.regs, word := word } ∧
      ∀ a, s'.memory.read a = s.memory.read a := by
  rcases write_eq_ok hwrite with ⟨hkind, rfl⟩ | ⟨hkind, a, haddress, haccess, rfl⟩
  · have hv : v = s.regs.get o.reg := by
      simp only [Exec.read, hkind] at hread
      cases hread
      rfl
    refine ⟨none, ?_, fun _ => rfl⟩
    rw [MachineState.setReg, hv, Registers.set_get]
    rfl
  · obtain ⟨-, a', haddress', -, hv⟩ := read_memory_eq_ok hkind hread
    rw [haddress] at haddress'
    cases haddress'
    refine ⟨some (a, v), rfl, fun b => ?_⟩
    rw [MachineState.setWord_memory, Memory.read_write]
    split
    · rename_i heq
      rw [hv, heq]
    · rfl

end Exec

namespace Lockstep

variable {L : Lockstep} {f : Activation} {callers : List Activation} {σ : Shape}
  {i : Instruction} {s s' t : MachineState} {b : Bool}

/-- The instruction before one without label has run. -/
theorem Arrived.past {k : Nat} {first : Instruction} (h : L.Arrived f σ s)
    (hi : f.unit.code[f.ip]? = some i) (hlabel : i.label = none) (hip : f.ip = k + 1)
    (hfirst : f.unit.code[k]? = some first) :
    L.Past f first s ∧
      (first.mnemonic ≠ .none → ∃ σ₀, first.Moves L.program.arity? f.unit.frameSize σ₀ (some σ)) := by
  cases h with
  | entry h =>
      rw [hip] at h
      cases h
  | label hi' hname =>
      rw [hi] at hi'
      cases hi'
      rw [hlabel] at hname
      cases hname
  | fall hip' hi' hmoved hpast =>
      rw [hip] at hip'
      cases hip'
      rw [hfirst] at hi'
      cases hi'
      exact ⟨hpast, hmoved⟩

/-- The operands of a redundant move stand for the same word already. -/
theorem Arrived.same_of_redundant (h : L.Arrived f σ s) (hi : f.unit.code[f.ip]? = some i)
    (hredundant : Code.Redundant f.unit.code f.ip i) (hm : i.mnemonic ≠ .jmp) :
    ∃ dst src v, i.moveOperands? = some (dst, src) ∧ Exec.read L.source dst s = .ok v s ∧
      Exec.read L.source src s = .ok v s ∧
      ∀ d, i.slotWritten? = some d → 0 ≤ d ∨ d ∈ f.stored := by
  have hlabel := hredundant.label
  generalize hip : f.ip = k at hredundant
  cases hredundant with
  | selfMove hself =>
      obtain ⟨-, o, hmove, hkind⟩ := Instruction.of_isSelfMove hself
      have hread : Exec.read L.source o s = .ok (s.regs.get o.reg) s := by
        simp only [Exec.read, hkind]
        rfl
      refine ⟨o, o, _, hmove, hread, hread, ?_⟩
      intro d hd
      obtain ⟨hm, hos⟩ := Instruction.moveOperands?_eq_some hmove
      simp [Instruction.slotWritten?, hm, hos, Operand.isFrame, hkind] at hd
  | @repeated k first i hfirst hrepeats =>
      obtain ⟨hpast, -⟩ := h.past hi hlabel hip hfirst
      obtain ⟨-, dst, src, hmove, hmove', huses⟩ := Instruction.of_repeats hrepeats
      obtain ⟨v, hdst, hsrc⟩ := hpast.moved dst src hmove huses
      refine ⟨dst, src, v, hmove', hdst, hsrc, ?_⟩
      intro d hd
      obtain ⟨hm₁, hos₁⟩ := Instruction.moveOperands?_eq_some hmove
      obtain ⟨hm₂, hos₂⟩ := Instruction.moveOperands?_eq_some hmove'
      refine hpast.slots d (.inl ?_)
      rw [← hd]
      simp [Instruction.slotWritten?, hm₁, hos₁, hm₂, hos₂]
  | @undone k first i hfirst hundoes =>
      obtain ⟨hpast, -⟩ := h.past hi hlabel hip hfirst
      obtain ⟨-, dst, src, hmove, hmove', hkinds⟩ := Instruction.of_undoes hundoes
      have huses : src.kind = .register → dst.usesReg src.reg = false := by
        intro hkind
        rcases hkinds with ⟨-, hmemory⟩ | ⟨-, -, huses⟩
        · rw [hkind] at hmemory
          cases hmemory
        · exact huses
      obtain ⟨v, hsrc, hdst⟩ := hpast.moved _ _ hmove huses
      refine ⟨dst, src, v, hmove', hdst, hsrc, ?_⟩
      intro d hd
      obtain ⟨hm₁, hos₁⟩ := Instruction.moveOperands?_eq_some hmove
      obtain ⟨hm₂, hos₂⟩ := Instruction.moveOperands?_eq_some hmove'
      -- a slot that is stored back was loaded by the move before
      simp only [Instruction.slotWritten?, hm₂, hos₂] at hd
      split at hd
      · rename_i hframe
        cases hd
        simp only [Bool.and_eq_true] at hframe
        have hregister : src.kind = .register := by
          rcases hkinds with ⟨hregister, -⟩ | ⟨-, hregister, -⟩
          · simp [Operand.isFrame, hregister] at hframe
          · exact hregister
        refine hpast.slots _ (.inr ?_)
        have hnone : first.slotWritten? = none := by
          simp [Instruction.slotWritten?, hm₁, hos₁, Operand.isFrame, hregister]
        simp only [Instruction.slotsRead, Instruction.slotReaders, hnone, hos₁, List.mem_map,
          List.mem_filter]
        exact ⟨dst, ⟨by simp, by simpa using hframe⟩, rfl⟩
      · cases hd
  | jumpToNext hjump => exact absurd (Code.of_jumpsToNext hjump).1 hm
  | shadowed hfirst hshadows =>
      simp only [Instruction.shadows, Bool.and_eq_true, beq_iff_eq] at hshadows
      exact absurd hshadows.1.2 hm

/-- What is redundant keeps the shape, unless it is a jump to the next position. -/
theorem Arrived.next_of_redundant {next : Option Shape} (h : L.Arrived f σ s)
    (hi : f.unit.code[f.ip]? = some i) (hredundant : Code.Redundant f.unit.code f.ip i)
    (hmoves : i.Moves L.program.arity? f.unit.frameSize σ next) :
    next = some σ ∨
      (i.mnemonic = .jmp ∧ Code.jumpsToNext i (f.unit.code.drop (f.ip + 1))) := by
  have hlabel := hredundant.label
  generalize hip : f.ip = k at hredundant
  -- the window that the reason looks at
  have window : ∀ prev : Instruction,
      (prev.mnemonic ≠ .none → ∃ σ₀, prev.Moves L.program.arity? f.unit.frameSize σ₀ (some σ)) →
      Code.Redundant (prev :: i :: f.unit.code.drop (k + 1)) 1 i →
      next = some σ ∨ (i.mnemonic = .jmp ∧ Code.jumpsToNext i (f.unit.code.drop (k + 1))) :=
    fun prev hprev hwindow => hmoves.of_redundant hprev hwindow
  cases hredundant with
  | selfMove hself => exact window (.labelled "" 0) (fun hm => absurd rfl hm) (.selfMove hself)
  | jumpToNext hjump =>
      exact window (.labelled "" 0) (fun hm => absurd rfl hm) (.jumpToNext hjump)
  | repeated hfirst hrepeats =>
      exact window _ (h.past hi hlabel hip hfirst).2 (.repeated rfl hrepeats)
  | undone hfirst hundoes => exact window _ (h.past hi hlabel hip hfirst).2 (.undone rfl hundoes)
  | shadowed hfirst hshadows =>
      exact window _ (h.past hi hlabel hip hfirst).2 (.shadowed rfl hshadows)

/-- One run executes a redundant move. -/
theorem Paired.skip_redundant (hp : L.Paired f callers σ s t) (hi : f.unit.code[f.ip]? = some i)
    (hgone : (L.plan f.unit.code).keep f.ip = false)
    (hredundant : Code.Redundant f.unit.code f.ip i)
    (hlive : ∀ d, (L.plan f.unit.code).live (f.ip + 1) d → (L.plan f.unit.code).live f.ip d)
    (hm : i.mnemonic ≠ .jmp) (hmoves : i.Moves L.program.arity? f.unit.frameSize σ (some σ))
    (hshaped : L.ShapedAt f.unit (f.ip + 1) σ) (hloads : i.loadsStored f.stored = true)
    (h : instruction L.source i s.next = .ok b s') :
    b = false ∧ L.Paired (f.skip i) callers σ s' t := by
  obtain ⟨dst, src, v, hmove, hdst, hsrc, hslots⟩ := hp.arrived.same_of_redundant hi hredundant hm
  obtain ⟨rfl, v', hread, hwrite⟩ := instruction_mov_eq_ok (instruction_of_moveOperands? hmove h)
  have hnext : ∀ {o w}, Exec.read L.source o s = .ok w s →
      Exec.read L.source o s.next = .ok w s.next := fun hread =>
    read_congr (s := s) (fun _ => rfl) (fun _ h => h) (fun _ _ => rfl) (fun _ _ _ _ => rfl) hread
  rw [hnext hsrc] at hread
  cases hread
  obtain ⟨word, hs', hsame⟩ := write_same (hnext hdst) hwrite
  have hmov := (Instruction.moveOperands?_eq_some hmove).1
  refine ⟨rfl, hp.skip hi hgone hshaped hmoves hs' (hp.source_anchored.congr hsame)
    (fun a _ => hsame a) (fun _ _ a _ => hsame a) ?_
    (past_of_instruction (by simp [hmov]) h hloads rfl)⟩
  rintro d ⟨hd, hstored⟩
  refine ⟨hlive d hd, ?_⟩
  rcases hstored with hparam | hstored
  · exact .inl hparam
  · rcases Instruction.mem_record.mp hstored with hwritten | hstored
    · exact hslots d hwritten
    · exact .inr hstored

/-- A store to a slot is a move inside the frame. -/
theorem exists_store_of_moves {arity? : String → Option Nat} {size : FrameSize}
    {next : Option Shape} {d : Word} (hmoves : i.Moves arity? size σ next)
    (hd : i.slotWritten? = some d) :
    ∃ height dst src line, i = .make .mov [dst, src] line ∧ σ = .inside height 0 ∧
      next = some σ ∧ dst.Movable size := by
  cases hmoves with
  | move hh hdst hsrc => exact ⟨_, _, _, _, rfl, rfl, rfl, hdst⟩
  | compute hi =>
      rw [slotWritten?_of_computes hi] at hd
      cases hd
  | compare hm =>
      simp only [List.mem_cons, List.not_mem_nil, or_false] at hm
      rcases hm with rfl | rfl <;> cases hd
  | @branch _ m _ _ hm => cases m <;> cases hm <;> cases hd
  | _ => cases hd

/-- One run stores to a slot that nothing reads. -/
theorem Paired.skip_deadStore (hL : L.Sound) (hp : L.Paired f callers σ s t)
    (hi : f.unit.code[f.ip]? = some i) (hgone : (L.plan f.unit.code).keep f.ip = false)
    (hapart : L.program.FramesApart L.limits.maxStackWords) {d : Word}
    (hd : i.slotWritten? = some d) (hdead : ¬(L.plan f.unit.code).live (f.ip + 1) d)
    (hmoves : i.Moves L.program.arity? f.unit.frameSize σ (some σ))
    (hshaped : L.ShapedAt f.unit (f.ip + 1) σ) (hloads : i.loadsStored f.stored = true)
    (hoff : L.source.elementsOffStack s i = true)
    (h : instruction L.source i s.next = .ok b s') :
    b = false ∧ L.Paired (f.skip i) callers σ s' t := by
  obtain ⟨height, dst, src, line, rfl, rfl, -, hdst⟩ := exists_store_of_moves hmoves hd
  obtain ⟨rfl, v, -, hwrite⟩ := instruction_mov_eq_ok h
  have hframe : dst.isFrame = true ∧ dst.value = d := by
    simp only [Instruction.slotWritten?, Instruction.make] at hd
    split at hd
    · rename_i hframe
      cases hd
      simp only [Bool.and_eq_true] at hframe
      exact ⟨hframe.1, rfl⟩
    · cases hd
  rcases write_eq_ok hwrite with ⟨hkind, -⟩ | ⟨hkind, a, haddress, haccess, hs'⟩
  · simp [Operand.isFrame, hkind] at hframe
  · rcases hp.address_cases hL (List.mem_of_getElem? hi) hoff (by simp [Instruction.make]) hdst
      hkind haddress haccess with ⟨-, hother⟩ | ⟨d', rfl, hslot, rfl⟩
    · rw [hother] at hframe
      cases hframe.1
    · obtain rfl : d' = d := hframe.2
      have hbase : f.base ≤ L.limits.maxStackWords := hp.within.1
      have hframe := Program.le_widestFrame (List.mem_of_getElem? hp.owner)
      have htop : f.top = f.base + height := hp.top_eq
      have hwithin := hp.within.2
      obtain ⟨z, hz, hfloor, -, -, hle⟩ := hp.height_of_slot hL hbase hslot haccess
      have hother : ∀ {a}, slotAddress f.base d' ≠ a → s'.memory.read a = s.memory.read a := by
        intro a hne
        rw [hs', MachineState.setWord_memory, Memory.read_write, if_neg hne]
        rfl
      have hplan := hL.plans f.unit (List.mem_of_getElem? hp.owner)
      have hknows : ∀ d, L.Knows (f.skip (.make .mov [.frameSlot d', src] line)) d →
          d ≠ d' ∧ L.Knows f d := by
        rintro d ⟨hlive, hstored⟩
        have hne : d ≠ d' := by
          rintro rfl
          exact hdead hlive
        have hwritten : (Instruction.make .mov [.frameSlot d', src] line).slotWritten? ≠ some d := by
          rw [hd]
          exact fun heq => hne (Option.some.inj heq).symm
        refine ⟨hne, (hplan.next f.ip _ d hi (by simp [Instruction.make])
          (by simp [Instruction.make]) hlive).resolve_right hwritten, ?_⟩
        exact hstored.imp_right fun hmem => (Instruction.mem_record.mp hmem).resolve_left hwritten
      have hafter : s' = s.next.after
          { regs := s.regs, word := some (slotAddress f.base d', v) } := hs'
      refine ⟨rfl, hp.skip hi hgone hshaped hmoves hafter ?_ ?_ ?_ (fun d hd => (hknows d hd).2)
        (past_of_instruction (by simp [Instruction.make]) h hloads rfl)⟩
      · rw [hs']
        exact hp.stacked.anchored_write hp.source_anchored
          (hp.free_slot hL hbase hslot haccess)
      · intro a ha
        apply hother
        rintro rfl
        exact not_isData_of_height hz hapart (by omega) ha
      · intro g hg a ha
        apply hother
        rintro rfl
        rcases List.mem_cons.mp hg with rfl | hg
        · generalize haddr : slotAddress f.base d' = a at ha
          cases ha with
          | slot _ hknown _ => exact (hknows _ hknown).1 (slotAddress_inj haddr).symm
          | @word x hlow hhigh =>
              simp only [Activation.skip_base, Activation.skip_unit, Activation.skip_top] at hlow hhigh
              have hheight := height_stackAddress (x := x) hapart (by omega)
              rw [← haddr] at hheight
              have := hheight.unique hz
              omega
        · obtain ⟨z', hz', hle'⟩ := hp.stacked.height_of_shares hL hg ha
          have := hz'.unique hz
          omega

/-- One run jumps to the next position, and the other passes one label at most. -/
theorem Paired.land_next (hL : L.Sound) {height : Nat} {label : String} {line : UInt32}
    (hp : L.Paired f callers (.inside height 0) s t)
    (hi : f.unit.code[f.ip]? = some (.make .jmp [.sym label] line))
    (hgone : (L.plan f.unit.code).keep f.ip = false)
    (hnext : Code.startsAt label (f.unit.code.drop (f.ip + 1)))
    (hshaped : ∀ k target, f.unit.code[k]? = some target → target.label = some label →
      L.ShapedAt f.unit k (.inside height 0))
    (h : instruction L.source (.make .jmp [.sym label] line) s.next = .ok b s') :
    b = false ∧ ∃ k t', L.Paired (f.land k) callers (.inside height 0) s' t' ∧
      (t' = t ∨ ∃ name line', t' = t.next ∧
        L.target.fetch? t.unit t.ip = some (.labelled name line')) := by
  obtain ⟨rfl, k, hk, rfl⟩ := instruction_jmp_eq_ok h
  have hmem := List.mem_of_getElem? hp.owner
  have hplan := hL.plans f.unit hmem
  rw [MachineState.next_unit, hp.source_unit] at hk
  obtain ⟨target, htarget, hlabel⟩ := (hL.target?_source hp.owner).mp hk
  have hat : ∀ {j i}, f.unit.code[j]? = some i → i.label = some label → j = k := by
    intro j i hj hname
    have := (hL.target?_source hp.owner).mpr ⟨i, hj, hname⟩
    rw [hk] at this
    exact (Option.some.inj this).symm
  have hlive := fun d => hplan.jump f.ip _ label k target d hi (.inl rfl) rfl htarget hlabel
  have hland : ∀ t', t'.unit = t.unit → t'.ip = L.place (f.land k) → t'.regs = t.regs →
      t'.memory = t.memory → L.Paired (f.land k) callers (.inside height 0) (s.next.goto k) t' :=
    fun t' hunit hip hregs hmemory => hp.land (.inl rfl) htarget hlabel
      (hshaped k target htarget hlabel) hlive ⟨hunit, hip, hregs, hmemory⟩
  have hrank : Code.rank (L.plan f.unit.code).keep (f.ip + 1) = t.ip :=
    (Code.rank_succ_of_gone hgone).trans hp.target_ip.symm
  have hnear := (hL.landing f.unit hmem).near (hL.labels f.unit hmem) hi hnext
  generalize hrest : f.unit.code.drop (f.ip + 1) = rest at hnear
  have hcode : ∀ j, f.unit.code[f.ip + 1 + j]? = rest[j]? := by
    intro j
    rw [← hrest, List.getElem?_drop]
  refine ⟨rfl, k, ?_⟩
  cases hnear with
  | first =>
      obtain rfl := hat (hcode 0) rfl
      exact ⟨t, hland t rfl hrank.symm rfl rfl, .inl rfl⟩
  | @second name line₁ line₂ rest =>
      obtain rfl := hat (hcode 1) rfl
      have hkept := hplan.keeps_label (hcode 0) rfl
      refine ⟨t.next, hland t.next rfl ?_ rfl rfl, .inr ⟨name, line₁, rfl, ?_⟩⟩
      · rw [MachineState.next_ip, ← hrank]
        exact (Code.rank_succ_of_kept hkept).symm
      · rw [hp.target_unit, ← hrank, fetch?_target hp.owner hkept]
        exact hcode 0

end Lockstep

end Arbor
