import Mathlib.Tactic
import Arbor.Proofs.ReturnRun
import Arbor.Proofs.Lockstep.Passes

/-!
Arbitrary code and what sweeps leave of it. Operands are arbitrary, and any label may be jumped
to. Whatever a sweep leaves out writes a word where it is already, jumps to the next position,
or is never reached. The swept code therefore reaches a return in the same state, or faults,
when the code does. It executes no more instructions, but it may pass bare label lines that a
jump has skipped before.
-/

namespace Arbor

open Exec

/-- A unit of the second image has what a sweep leaves of its code in the first. -/
structure Image.Sweeps (u : Nat) (code : Code) (keep : Nat → Bool) (img img' : Image) : Prop
    extends img.SharesLayout img' where
  plain : code.Plain
  source : img.Holds u code
  target : img'.Holds u (code.thin keep)
  gone : ∀ k i, code[k]? = some i → keep k = false → code.Redundant k i

/-- How a run got where it is: at the entry, at a label, or past an instruction that falls through.
If that one is a move, its operands stand for the same word, and the first can be written. -/
inductive Image.Arrived (img : Image) (code : Code) (s : MachineState) : Prop where
  | entry (hip : s.ip = 0)
  | label {i : Instruction} {l : String} (hi : code[s.ip]? = some i) (hl : i.label = some l)
  | fall {k : Nat} {i : Instruction} (hip : s.ip = k + 1) (hi : code[k]? = some i)
      (hjmp : i.mnemonic ≠ .jmp) (hret : i.mnemonic ≠ .ret)
      (hmoved : ∀ dst src, i.moveOperands? = some (dst, src) →
        (dst.kind = .register → src.usesReg dst.reg = false) →
        (dst.kind = .register ∨ dst.kind = .memory) ∧
        ∃ v, Exec.read img dst s = .ok v s ∧ Exec.read img src s = .ok v s)

namespace Code

/-- A redundant jump goes to the next position or is never reached. -/
theorem Redundant.jump_cases {code : Code} {k : Nat} {i : Instruction} (h : Redundant code k i)
    (hm : i.mnemonic = .jmp) :
    jumpsToNext i (code.drop (k + 1)) ∨
      ∃ j first, k = j + 1 ∧ code[j]? = some first ∧ first.shadows i := by
  have hmove : ∀ {dst src}, i.moveOperands? = some (dst, src) → False := by
    intro dst src hmove
    rw [(Instruction.moveOperands?_eq_some hmove).1] at hm
    cases hm
  cases h with
  | selfMove h =>
      obtain ⟨-, o, h, -⟩ := Instruction.of_isSelfMove h
      exact absurd h hmove
  | repeated _ h =>
      obtain ⟨-, dst, src, -, h, -⟩ := Instruction.of_repeats h
      exact absurd h hmove
  | undone _ h =>
      obtain ⟨-, dst, src, -, h, -⟩ := Instruction.of_undoes h
      exact absurd h hmove
  | jumpToNext h => exact .inl h
  | shadowed hfirst h => exact .inr ⟨_, _, rfl, hfirst, h⟩

/-- The labels up to one that the code starts at. -/
theorem exists_of_startsAt {label : String} {code : Code} {m : Nat}
    (h : startsAt label (code.drop m)) :
    ∃ d i, code[m + d]? = some i ∧ i.label = some label ∧
      ∀ j < d, ∃ i l, code[m + j]? = some i ∧ i.mnemonic = .none ∧ i.label = some l := by
  generalize hrest : code.drop m = rest at h
  induction rest generalizing m with
  | nil => cases h
  | cons first rest ih =>
      have hfirst : code[m]? = some first := by
        rw [← Nat.add_zero m, ← List.getElem?_drop, hrest]
        rfl
      have hdrop : code.drop (m + 1) = rest := by
        rw [← List.tail_drop, hrest, List.tail_cons]
      unfold startsAt at h
      split at h
      · cases h
      · rename_i l hl
        simp only [Bool.or_eq_true, beq_iff_eq, Bool.and_eq_true, Instruction.isLabelOnly] at h
        rcases h with rfl | ⟨honly, h⟩
        · exact ⟨0, first, hfirst, hl, fun j hj => by omega⟩
        · obtain ⟨d, i, hi, hlabel, hbetween⟩ := ih hdrop h
          refine ⟨d + 1, i, by rw [← hi]; congr 1; omega, hlabel, ?_⟩
          intro j hj
          cases j with
          | zero => exact ⟨first, l, hfirst, honly, hl⟩
          | succ j =>
              obtain ⟨i, l, hi, honly, hl⟩ := hbetween j (by omega)
              exact ⟨i, l, by rw [← hi]; congr 1; omega, honly, hl⟩

end Code

/-- An instruction that falls through has been passed. -/
theorem Image.Arrived.of_fall {img : Image} {code : Code} {s s₁ : MachineState} {i : Instruction}
    {k : Nat} (h : instruction img i s = .ok false s₁) (hip : s₁.ip = k + 1) (hi : code[k]? = some i)
    (hjmp : i.mnemonic ≠ .jmp) (hret : i.mnemonic ≠ .ret) : img.Arrived code s₁ := by
  refine .fall hip hi hjmp hret ?_
  intro dst src hmove huses
  obtain ⟨-, v, hread, hwrite⟩ := instruction_mov_eq_ok (Lockstep.instruction_of_moveOperands? hmove h)
  refine ⟨?_, v, reads_of_mov huses hread hwrite⟩
  rcases write_eq_ok hwrite with ⟨hkind, -⟩ | ⟨hkind, -⟩
  · exact .inl hkind
  · exact .inr hkind

/-- A place without label is reached past the instruction before it. -/
theorem Image.Arrived.past {img : Image} {code : Code} {s : MachineState} {i first : Instruction}
    {k : Nat} (h : img.Arrived code s) (hi : code[s.ip]? = some i) (hlabel : i.label = none)
    (hip : s.ip = k + 1) (hfirst : code[k]? = some first) :
    first.mnemonic ≠ .jmp ∧ first.mnemonic ≠ .ret ∧
      ∀ dst src, first.moveOperands? = some (dst, src) →
        (dst.kind = .register → src.usesReg dst.reg = false) →
        (dst.kind = .register ∨ dst.kind = .memory) ∧
        ∃ v, Exec.read img dst s = .ok v s ∧ Exec.read img src s = .ok v s := by
  cases h with
  | entry hentry =>
      rw [hip] at hentry
      cases hentry
  | label hi' hl =>
      rw [hi] at hi'
      cases hi'
      rw [hlabel] at hl
      cases hl
  | fall hip' hi' hjmp hret hmoved =>
      rw [hip] at hip'
      cases hip'
      rw [hfirst] at hi'
      cases hi'
      exact ⟨hjmp, hret, hmoved⟩

/-- The operands of a redundant move stand for the same word already. -/
theorem Image.Arrived.same_of_redundant {img : Image} {code : Code} {s : MachineState}
    {i : Instruction} (h : img.Arrived code s) (hi : code[s.ip]? = some i)
    (hredundant : code.Redundant s.ip i) (hm : i.mnemonic ≠ .jmp) :
    ∃ dst src v, i.moveOperands? = some (dst, src) ∧
      (dst.kind = .register ∨ dst.kind = .memory) ∧
      Exec.read img dst s = .ok v s ∧ Exec.read img src s = .ok v s := by
  have hlabel := hredundant.label
  generalize hip : s.ip = k at hredundant
  cases hredundant with
  | selfMove hself =>
      obtain ⟨-, o, hmove, hkind⟩ := Instruction.of_isSelfMove hself
      have hread : Exec.read img o s = .ok (s.regs.get o.reg) s := by
        simp only [Exec.read, hkind]
        rfl
      exact ⟨o, o, _, hmove, .inl hkind, hread, hread⟩
  | repeated hfirst hrepeats =>
      obtain ⟨-, dst, src, hmove, hmove', huses⟩ := Instruction.of_repeats hrepeats
      obtain ⟨hkind, v, hdst, hsrc⟩ := (h.past hi hlabel hip hfirst).2.2 dst src hmove huses
      exact ⟨dst, src, v, hmove', hkind, hdst, hsrc⟩
  | undone hfirst hundoes =>
      obtain ⟨-, dst, src, hmove, hmove', hkinds⟩ := Instruction.of_undoes hundoes
      have huses : src.kind = .register → dst.usesReg src.reg = false := by
        intro hkind
        rcases hkinds with ⟨-, hmemory⟩ | ⟨-, -, huses⟩
        · rw [hkind] at hmemory
          cases hmemory
        · exact huses
      obtain ⟨-, v, hsrc, hdst⟩ := (h.past hi hlabel hip hfirst).2.2 src dst hmove huses
      exact ⟨dst, src, v, hmove', hkinds.imp And.left And.left, hdst, hsrc⟩
  | jumpToNext hjump => exact absurd (Code.of_jumpsToNext hjump).1 hm
  | shadowed hfirst hshadows =>
      simp only [Instruction.shadows, Bool.and_eq_true, beq_iff_eq] at hshadows
      exact absurd hshadows.1.2 hm

/-- A place that can be read and is no constant can be written. -/
theorem Exec.exists_write_of_read {img : Image} {o : Operand} {v : Word} {s : MachineState}
    (hkind : o.kind = .register ∨ o.kind = .memory) (hread : Exec.read img o s = .ok v s) (w : Word) :
    ∃ s', Exec.write img o w s = .ok () s' := by
  rcases hkind with hkind | hkind
  · exact ⟨s.setReg o.reg w, by simp only [Exec.write, hkind]; rfl⟩
  · obtain ⟨-, a, haddress, haccess, -⟩ := read_memory_eq_ok hkind hread
    exact ⟨_, write_of_address hkind haddress haccess⟩

/-- A jump, by its only operand. -/
theorem Exec.instruction_jmp_eq {img : Image} {i : Instruction} {o : Operand}
    (hm : i.mnemonic = .jmp) (hos : i.operands = [o]) :
    instruction img i = (jump img o.symbol >>= fun _ => pure false) := by
  unfold instruction unary
  simp only [hm, hos]

namespace Image.Sweeps

variable {u : Nat} {code : Code} {keep : Nat → Bool} {img img' : Image} {s t s₁ s' : MachineState}
  {i : Instruction} {k : Nat}

theorem keeps_label (h : Sweeps u code keep img img') (hi : code[k]? = some i) {l : String}
    (hl : i.label = some l) : keep k = true := by
  by_contra hkeep
  have hnone := (h.gone k i hi (by simpa using hkeep)).label
  rw [hl] at hnone
  cases hnone

theorem fetch_kept (h : Sweeps u code keep img img') (hi : code[k]? = some i) (hkeep : keep k = true) :
    img'.fetch? u (Code.rank keep k) = some i := by
  rw [h.target.fetch, Code.thin_getElem? hkeep, hi]

/-- A label is at the same place in both units, up to what has gone. -/
theorem label_place (h : Sweeps u code keep img img') (label : String) :
    (∃ k i, img.target? u label = some k ∧ img'.target? u label = some (Code.rank keep k) ∧
      code[k]? = some i ∧ i.label = some label) ∨
    (img.target? u label = none ∧ img'.target? u label = none) := by
  cases hk : img.target? u label with
  | some k =>
      obtain ⟨i, hi, hl⟩ := (h.source.target label k).mp hk
      refine .inl ⟨k, i, rfl, ?_, hi, hl⟩
      exact (h.target.target label _).mpr
        ⟨i, (Code.thin_getElem? (h.keeps_label hi hl) code).trans hi, hl⟩
  | none =>
      cases hk' : img'.target? u label with
      | none => exact .inr ⟨rfl, rfl⟩
      | some j =>
          obtain ⟨i, hi, hl⟩ := (h.target.target label j).mp hk'
          obtain ⟨k, -, -, hi'⟩ := Code.exists_of_thin_getElem? hi
          rw [(h.source.target label k).mpr ⟨i, hi', hl⟩] at hk
          cases hk

/-- States of the two runs that belong together. -/
abbrev Paired (u : Nat) (keep : Nat → Bool) : MachineState → MachineState → Prop :=
  MachineState.Same u fun k j => j = Code.rank keep k

/-- An instruction that both units have. -/
theorem step_kept (h : Sweeps u code keep img img') (hst : Paired u keep s t)
    (hi : code[s.ip]? = some i) (hkeep : keep s.ip = true) (hret : i.mnemonic ≠ .ret) :
    (∃ s₁ t₁, instruction img i s.next = .ok false s₁ ∧ instruction img' i t.next = .ok false t₁ ∧
      Paired u keep s₁ t₁ ∧ img.Arrived code s₁) ∨
    ∃ e s₁ e' t₁, instruction img i s.next = .error e s₁ ∧ instruction img' i t.next = .error e' t₁ := by
  have hcall := h.plain.calls i (List.mem_of_getElem? hi)
  -- both runs fall through or go to a label
  let places : Nat → Nat → Prop := fun a b => b = Code.rank keep a ∧
    (a = s.ip + 1 ∨ ∃ j l, code[a]? = some j ∧ j.label = some l)
  have hplaces : ∀ label, (∃ k k', img.target? u label = some k ∧ img'.target? u label = some k' ∧
      places k k') ∨ (img.target? u label = none ∧ img'.target? u label = none) := by
    intro label
    rcases h.label_place label with ⟨k, j, hk, hk', hj, hl⟩ | hnone
    · exact .inl ⟨k, _, hk, hk', rfl, .inr ⟨j, label, hj, hl⟩⟩
    · exact .inr hnone
  have hnext : MachineState.Same u places s.next t.next :=
    { hst with ip := ⟨by simp only [MachineState.next_ip, hst.ip, Code.rank_succ_of_kept hkeep], .inl rfl⟩ }
  rcases instruction_alike h.toSharesLayout hplaces hcall hret s.next t.next hnext with
    ⟨b, s₁, t₁, hs, ht, hsame⟩ | hfaults
  · obtain rfl := eq_false_of_instruction hret hs
    refine .inl ⟨s₁, t₁, hs, ht, { hsame with ip := hsame.ip.1 }, ?_⟩
    by_cases hjmp : i.mnemonic = .jmp
    · obtain ⟨o, hos⟩ := List.length_eq_one_iff.mp (h.plain.jumps i (List.mem_of_getElem? hi) hjmp)
      rw [instruction_jmp_eq hjmp hos] at hs
      obtain ⟨k, hk, rfl⟩ := jump_eq_ok (continue_eq_ok hs).2
      rw [MachineState.next_unit, hst.unit] at hk
      obtain ⟨j, hj, hl⟩ := (h.source.target _ k).mp hk
      exact .label hj hl
    · rcases hsame.ip.2 with hip | ⟨j, l, hj, hl⟩
      · exact .of_fall hs hip hi hjmp hret
      · exact .label hj hl
  · exact .inr hfaults

/-- The bare label lines before a label are passed without an instruction. -/
theorem walks_labels (h : Sweeps u code keep img img') {m d : Nat}
    (hlines : ∀ j < d, ∃ i l, code[m + j]? = some i ∧ i.mnemonic = .none ∧ i.label = some l)
    (hunit : t.unit = u) (hip : t.ip = Code.rank keep m) :
    ∃ t', img'.Walks t 0 t' ∧ t'.ip = Code.rank keep (m + d) ∧ t'.unit = u ∧ t'.regs = t.regs ∧
      t'.lhs = t.lhs ∧ t'.rhs = t.rhs ∧ t'.memory = t.memory := by
  induction d generalizing m t with
  | zero => exact ⟨t, .refl t, hip, hunit, rfl, rfl, rfl, rfl⟩
  | succ d ih =>
      obtain ⟨i, l, hi, hm, hl⟩ := hlines 0 (Nat.succ_pos d)
      rw [Nat.add_zero] at hi
      have hkeep := h.keeps_label hi hl
      have hfetch : img'.fetch? t.unit t.ip = some i := by
        rw [hunit, hip]
        exact h.fetch_kept hi hkeep
      have hline : instruction img' i t.next = .ok false t.next := by
        unfold instruction
        rw [hm]
        rfl
      have hip' : t.next.ip = Code.rank keep (m + 1) := by
        rw [MachineState.next_ip, hip, Code.rank_succ_of_kept hkeep]
      obtain ⟨t', hwalks, hip'', hunit', hsame⟩ := ih (fun j hj => by
        obtain ⟨i, l, hi, hm, hl⟩ := hlines (j + 1) (by omega)
        exact ⟨i, l, by rw [← hi]; congr 1; omega, hm, hl⟩) (t := t.next) hunit hip'
      have hweight : i.weight = 0 := by simp [Instruction.weight, Instruction.isLabelOnly, hm]
      refine ⟨t', ?_, by rw [hip'']; congr 1; omega, hunit', hsame⟩
      have hstep := Walks.step hfetch (by simp [hm]) hline hwalks
      rwa [hweight] at hstep

/-- A move that has gone wrote a word where it was already. -/
theorem step_move (h : Sweeps u code keep img img') (hst : Paired u keep s t)
    (harrived : img.Arrived code s) (hi : code[s.ip]? = some i) (hgone : keep s.ip = false)
    (hm : i.mnemonic ≠ .jmp) :
    ∃ s₁, instruction img i s.next = .ok false s₁ ∧ Paired u keep s₁ t ∧ img.Arrived code s₁ := by
  obtain ⟨dst, src, v, hmove, hkind, hdst, hsrc⟩ :=
    harrived.same_of_redundant hi (h.gone _ i hi hgone) hm
  have hnext : ∀ {o w}, Exec.read img o s = .ok w s → Exec.read img o s.next = .ok w s.next :=
    fun hread => read_congr (s := s) (fun _ => rfl) (fun _ h => h) (fun _ _ => rfl)
      (fun _ _ _ _ => rfl) hread
  obtain ⟨s₁, hwrite⟩ := exists_write_of_read hkind (hnext hdst) v
  obtain ⟨hm, hos⟩ := Instruction.moveOperands?_eq_some hmove
  have hrun : instruction img i s.next = .ok false s₁ := by
    have hmov : instruction img (.make .mov [dst, src] i.line) s.next = .ok false s₁ :=
      instruction_mov (hnext hsrc) hwrite
    rw [← hmov, ← hm, ← hos]
    rfl
  obtain ⟨word, hs₁, hsame⟩ := write_same (hnext hdst) hwrite
  have hip : s₁.ip = s.ip + 1 := by rw [hs₁]; rfl
  refine ⟨s₁, hrun, ?_, .of_fall hrun hip hi (by simp [hm]) (by simp [hm])⟩
  exact {
    regs := by rw [hst.regs, hs₁]; rfl
    lhs := by rw [hst.lhs, hs₁]; rfl
    rhs := by rw [hst.rhs, hs₁]; rfl
    memory := fun a => (hst.memory a).trans (hsame a).symm
    unit := by rw [hs₁]; exact hst.unit
    unit' := hst.unit'
    ip := by rw [hip, Code.rank_succ_of_gone hgone, hst.ip] }

/-- A jump that has gone went past bare label lines only. -/
theorem step_jumpToNext (h : Sweeps u code keep img img') (hst : Paired u keep s t)
    (hi : code[s.ip]? = some i) (hgone : keep s.ip = false)
    (hjump : Code.jumpsToNext i (code.drop (s.ip + 1))) :
    ∃ s₁ t₁, instruction img i s.next = .ok false s₁ ∧ img'.Walks t 0 t₁ ∧ Paired u keep s₁ t₁ ∧
      img.Arrived code s₁ := by
  obtain ⟨hm, -, o, os, hos, hstarts⟩ := Code.of_jumpsToNext hjump
  have hlength := h.plain.jumps i (List.mem_of_getElem? hi) hm
  obtain rfl : os = [] := by simpa [hos] using hlength
  obtain ⟨d, j, hj, hl, hlines⟩ := Code.exists_of_startsAt hstarts
  have htarget : img.target? s.next.unit o.symbol = some (s.ip + 1 + d) := by
    rw [MachineState.next_unit, hst.unit]
    exact (h.source.target _ _).mpr ⟨j, hj, hl⟩
  have hip : t.ip = Code.rank keep (s.ip + 1) := by rw [hst.ip, Code.rank_succ_of_gone hgone]
  obtain ⟨t₁, hwalks, hip₁, hunit₁, hregs, hlhs, hrhs, hmemory⟩ := h.walks_labels hlines hst.unit' hip
  refine ⟨s.next.goto (s.ip + 1 + d), t₁, ?_, hwalks, ?_, .label hj hl⟩
  · rw [instruction_jmp_eq hm hos]
    exact continue_of_ok (jump_of_target htarget)
  · exact {
      regs := hregs.trans hst.regs
      lhs := hlhs.trans hst.lhs
      rhs := hrhs.trans hst.rhs
      memory := fun a => by rw [hmemory]; exact hst.memory a
      unit := hst.unit
      unit' := hunit₁
      ip := hip₁ }

/-- An instruction that only the first unit has. It does not trap. -/
theorem step_gone (h : Sweeps u code keep img img') (hst : Paired u keep s t)
    (harrived : img.Arrived code s) (hi : code[s.ip]? = some i) (hgone : keep s.ip = false) :
    ∃ s₁ t₁, instruction img i s.next = .ok false s₁ ∧ img'.Walks t 0 t₁ ∧ Paired u keep s₁ t₁ ∧
      img.Arrived code s₁ := by
  by_cases hm : i.mnemonic = .jmp
  · rcases (h.gone _ i hi hgone).jump_cases hm with hjump | ⟨k, first, hip, hfirst, hshadows⟩
    · exact h.step_jumpToNext hst hi hgone hjump
    · obtain ⟨hjmp, hret, -⟩ := harrived.past hi (h.gone _ i hi hgone).label hip hfirst
      simp [Instruction.shadows, hjmp, hret] at hshadows
  · obtain ⟨s₁, hs, hst₁, harrived₁⟩ := h.step_move hst harrived hi hgone hm
    exact ⟨s₁, t, hs, .refl t, hst₁, harrived₁⟩

theorem code_of_fetch (h : Sweeps u code keep img img') (hst : Paired u keep s t)
    (hfetch : img.fetch? s.unit s.ip = some i) : code[s.ip]? = some i := by
  rw [← h.source.fetch, ← hst.unit, hfetch]

/-- The second run keeps up with the first. -/
theorem walks (h : Sweeps u code keep img img') {n : Nat} (hwalks : img.Walks s n s')
    (hst : Paired u keep s t) (harrived : img.Arrived code s) :
    ∃ n' t', img'.Walks t n' t' ∧ n' ≤ n ∧ Paired u keep s' t' ∧ img.Arrived code s' := by
  induction hwalks generalizing t with
  | refl s => exact ⟨0, t, .refl t, le_rfl, hst, harrived⟩
  | @step s s₁ s' i n hfetch hret hs hrest ih =>
      have hi := h.code_of_fetch hst hfetch
      cases hkeep : keep s.ip with
      | true =>
          rcases h.step_kept hst hi hkeep hret with
            ⟨s₂, t₂, hs₂, ht, hst₂, harrived₂⟩ | ⟨e, s₂, e', t₂, hs₂, -⟩ <;> rw [hs] at hs₂ <;> cases hs₂
          obtain ⟨n', t', hwalks, hle, hst', harrived'⟩ := ih hst₂ harrived₂
          have hfetch' : img'.fetch? t.unit t.ip = some i := by
            rw [hst.unit', hst.ip]
            exact h.fetch_kept hi hkeep
          exact ⟨_, t', .step hfetch' hret ht hwalks, Nat.add_le_add_right hle _, hst', harrived'⟩
      | false =>
          obtain ⟨s₂, t₂, hs₂, ht, hst₂, harrived₂⟩ := h.step_gone hst harrived hi hkeep
          rw [hs] at hs₂
          cases hs₂
          obtain ⟨n', t', hwalks, hle, hst', harrived'⟩ := ih hst₂ harrived₂
          exact ⟨n', t', ht.trans hwalks, Nat.le_add_right_of_le hle, hst', harrived'⟩

/-- A return never goes. -/
theorem atReturn (h : Sweeps u code keep img img') (hst : Paired u keep s t)
    (harrived : img.Arrived code s) (hs : img.AtReturn s) : img'.AtReturn t := by
  obtain ⟨i, hfetch, hret⟩ := hs
  have hi := h.code_of_fetch hst hfetch
  refine ⟨i, ?_, hret⟩
  rw [hst.unit', hst.ip]
  apply h.fetch_kept hi
  by_contra hkeep
  have hredundant := h.gone _ i hi (by simpa using hkeep)
  obtain ⟨dst, src, v, hmove, -⟩ := harrived.same_of_redundant hi hredundant (by simp [hret])
  rw [(Instruction.moveOperands?_eq_some hmove).1] at hret
  cases hret

/-- Where the first run is stuck, so is the second. -/
theorem stuck (h : Sweeps u code keep img img') (hst : Paired u keep s t)
    (harrived : img.Arrived code s) (hs : img.Stuck s) : img'.Stuck t := by
  rcases hs with hnone | ⟨i, e, s₁, hfetch, hret, hs⟩
  · left
    rw [hst.unit, h.source.fetch, List.getElem?_eq_none_iff] at hnone
    rw [hst.unit', hst.ip, h.target.fetch, List.getElem?_eq_none_iff, Code.thin_length]
    exact Code.rank_mono hnone
  · right
    have hi := h.code_of_fetch hst hfetch
    cases hkeep : keep s.ip with
    | true =>
        rcases h.step_kept hst hi hkeep hret with ⟨s₂, t₂, hs₂, -⟩ | ⟨_, _, e', t₂, -, ht⟩
        · rw [hs] at hs₂
          cases hs₂
        · refine ⟨i, e', t₂, ?_, hret, ht⟩
          rw [hst.unit', hst.ip]
          exact h.fetch_kept hi hkeep
    | false =>
        obtain ⟨s₂, t₂, hs₂, -⟩ := h.step_gone hst harrived hi hkeep
        rw [hs] at hs₂
        cases hs₂

end Image.Sweeps

/-- From the entry of the unit, the second image reaches a return in the same state, or is stuck,
when the first does. It gets there with no more instructions. -/
structure Image.Follows (u : Nat) (img img' : Image) : Prop extends img.SharesLayout img' where
  returns : ∀ {s s' : MachineState} {n : Nat}, s.unit = u → s.ip = 0 → img.Walks s n s' →
    img.AtReturn s' → ∃ n' t', img'.Walks s n' t' ∧ img'.AtReturn t' ∧ n' ≤ n ∧
      s'.Same u (fun _ _ => True) t'
  stuck : ∀ {s s' : MachineState} {n : Nat}, s.unit = u → s.ip = 0 → img.Walks s n s' →
    img.Stuck s' → ∃ n' t', img'.Walks s n' t' ∧ img'.Stuck t'

theorem Image.Follows.trans {u : Nat} {img img' img'' : Image} (h : img.Follows u img')
    (h' : img'.Follows u img'') : img.Follows u img'' where
  layout := h'.layout.trans h.layout
  limits := h'.limits.trans h.limits
  returns := by
    intro s s' n hunit hip hwalks hreturn
    obtain ⟨n₁, t₁, hwalks₁, hreturn₁, hle₁, hsame₁⟩ := h.returns hunit hip hwalks hreturn
    obtain ⟨n₂, t₂, hwalks₂, hreturn₂, hle₂, hsame₂⟩ := h'.returns hunit hip hwalks₁ hreturn₁
    exact ⟨n₂, t₂, hwalks₂, hreturn₂, hle₂.trans hle₁, {
      regs := hsame₂.regs.trans hsame₁.regs
      lhs := hsame₂.lhs.trans hsame₁.lhs
      rhs := hsame₂.rhs.trans hsame₁.rhs
      memory := fun a => (hsame₂.memory a).trans (hsame₁.memory a)
      unit := hsame₁.unit
      unit' := hsame₂.unit'
      ip := trivial }⟩
  stuck := by
    intro s s' n hunit hip hwalks hstuck
    obtain ⟨n₁, t₁, hwalks₁, hstuck₁⟩ := h.stuck hunit hip hwalks hstuck
    exact h'.stuck hunit hip hwalks₁ hstuck₁

/-- One sweep. -/
theorem Image.Sweeps.follows {u : Nat} {code : Code} {keep : Nat → Bool} {img img' : Image}
    (h : Sweeps u code keep img img') : img.Follows u img' where
  layout := h.layout
  limits := h.limits
  returns := by
    intro s s' n hunit hip hwalks hreturn
    have hst : Paired u keep s s := ⟨rfl, rfl, rfl, fun _ => rfl, hunit, hunit, by simp [hip]⟩
    obtain ⟨n', t', hwalks', hle, hst', harrived⟩ := h.walks hwalks hst (.entry hip)
    exact ⟨n', t', hwalks', h.atReturn hst' harrived hreturn, hle, { hst' with ip := trivial }⟩
  stuck := by
    intro s s' n hunit hip hwalks hstuck
    have hst : Paired u keep s s := ⟨rfl, rfl, rfl, fun _ => rfl, hunit, hunit, by simp [hip]⟩
    obtain ⟨n', t', hwalks', -, hst', harrived⟩ := h.walks hwalks hst (.entry hip)
    exact ⟨n', t', hwalks', h.stuck hst' harrived hstuck⟩

/-- Less code with the same labels is as plain. -/
theorem Code.Plain.trims {code : Code} {f : Code → Code} (h : code.Plain) (hf : Trims f) :
    Code.Plain (f code) where
  labels := by
    rw [hf.labels]
    exact h.labels
  calls := fun i hi => h.calls i ((hf.sublist code).subset hi)
  jumps := fun i hi => h.jumps i ((hf.sublist code).subset hi)

namespace Program

variable {p : Program} {limits : Limits} {img img' : Image} {u : Nat} {unit : CompiledUnit}

/-- A program after one sweep. -/
theorem follows_sweepWindows (h : Image.load p limits = .ok img) (hunit : p.units[u]? = some unit)
    (hplain : unit.code.Plain)
    (h' : Image.load (p.mapCode Code.sweepWindows) limits = .ok img') : img.Follows u img' := by
  obtain ⟨keep, heq, hgone⟩ := Code.exists_thin_eq_sweepWindows unit.code
  obtain ⟨img'', hload, hshares⟩ := Image.load_mapCode h Code.sweepWindows
  rw [h'] at hload
  cases hload
  have hunit' : (p.mapCode Code.sweepWindows).units[u]? =
      some { unit with code := Code.sweepWindows unit.code } := by
    rw [mapCode_getElem?, hunit, Option.map_some]
  have htarget := Image.holds_of_load h' hunit' (hplain.trims Code.Trims.sweepWindows).labels
  rw [heq] at htarget
  exact Image.Sweeps.follows {
    toSharesLayout := hshares
    plain := hplain
    source := Image.holds_of_load h hunit hplain.labels
    target := htarget
    gone := hgone }

/-- A program after any number of sweeps. -/
theorem follows_iterate (h : Image.load p limits = .ok img) (hunit : p.units[u]? = some unit)
    (hplain : unit.code.Plain) (n : Nat)
    (h' : Image.load (p.mapCode Code.sweepWindows^[n + 1]) limits = .ok img') :
    img.Follows u img' := by
  induction n generalizing p img unit with
  | zero => exact follows_sweepWindows h hunit hplain h'
  | succ n ih =>
      obtain ⟨img₁, hload, -⟩ := Image.load_mapCode h Code.sweepWindows
      have hunit₁ : (p.mapCode Code.sweepWindows).units[u]? =
          some { unit with code := Code.sweepWindows unit.code } := by
        rw [mapCode_getElem?, hunit, Option.map_some]
      have hrest := ih hload hunit₁ (hplain.trims Code.Trims.sweepWindows)
      rw [mapCode_comp] at hrest
      exact (follows_sweepWindows h hunit hplain hload).trans (hrest h')

/-- A program after all sweeps. -/
theorem follows_peephole (h : Image.load p limits = .ok img) (hunit : p.units[u]? = some unit)
    (hplain : unit.code.Plain)
    (h' : Image.load (p.mapCode Code.peephole) limits = .ok img') : img.Follows u img' := by
  let n := (p.units.map (·.code.length)).foldr max 0
  have hsweeps : p.mapCode Code.peephole = p.mapCode Code.sweepWindows^[n + 1] := by
    apply mapCode_congr
    intro unit hunit
    apply Code.peephole_eq_iterate
    exact Nat.le_succ_of_le (List.le_max_of_le (List.mem_map_of_mem hunit) le_rfl)
  rw [hsweeps] at h'
  exact follows_iterate h hunit hplain n h'

end Program

namespace Machine

/-- Sweeps preserve what arbitrary code does, from its entry to the first return, if it calls
nothing. When the code reaches a return, the swept code reaches one with the same registers,
compared words and memory after no more instructions, unless the bare label lines on its way
take it over the step limit. When the code faults, so does the swept code. -/
theorem peephole_preserves_runToReturn {p : Program} {limits : Limits} {m : Machine} {u : Nat}
    {unit : CompiledUnit} (hload : Machine.load p limits = .ok m) (hunit : p.units[u]? = some unit)
    (hplain : unit.code.Plain) :
    ∃ m', Machine.load (p.mapCode Code.peephole) limits = .ok m' ∧
      ∀ s : MachineState, s.unit = u → s.ip = 0 →
        (∀ n s', runToReturn m.image (limits.maxSteps - s.steps) s = .ok n s' →
          (∃ n' t', runToReturn m'.image (limits.maxSteps - s.steps) s = .ok n' t' ∧ n' ≤ n ∧
            t'.regs = s'.regs ∧ t'.lhs = s'.lhs ∧ t'.rhs = s'.rhs ∧
            ∀ a, t'.memory.read a = s'.memory.read a) ∨
          (limits.maxSteps < s.steps + (n + (n + 1) * unit.code.labelLines) ∧
            ∃ e t', runToReturn m'.image (limits.maxSteps - s.steps) s = .error e t' ∧
              e.isStepLimit = true)) ∧
        ∀ e s', runToReturn m.image (limits.maxSteps - s.steps) s = .error e s' →
          e.isStepLimit = false →
          ∃ e' t', runToReturn m'.image (limits.maxSteps - s.steps) s = .error e' t' := by
  obtain ⟨himage, hlimits⟩ : Image.load p limits = .ok m.image ∧ m.image.limits = limits := by
    have himage := image_of_load hload
    exact ⟨himage, (Image.eq_of_load himage).2.1⟩
  obtain ⟨img', himage', hshares⟩ := Image.load_mapCode himage Code.peephole
  have hfollows := Program.follows_peephole himage hunit hplain himage'
  have hlimits' : img'.limits.maxSteps = limits.maxSteps := by rw [hshares.limits, hlimits]
  refine ⟨Machine.fresh img', by rw [Machine.load, himage'], ?_⟩
  intro s hs hip
  constructor
  · intro n s' hrun
    obtain ⟨hwalks, hreturn⟩ := walks_of_runToReturn hrun
    obtain ⟨n', t', hwalks', hreturn', hle, hsame⟩ := hfollows.returns hs hip hwalks hreturn
    have hruns := runToReturn_of_walks hwalks' hreturn'
    rw [hlimits'] at hruns
    rcases hruns with hrun' | ⟨hover, e, t, hfault, he⟩
    · exact .inl ⟨n', t', hrun', hle, hsame.regs, hsame.lhs, hsame.rhs, hsame.memory⟩
    · refine .inr ⟨lt_of_lt_of_le hover ?_, e, t, hfault, he⟩
      -- the lines that the swept code has are lines of the code
      have hunit' : (p.mapCode Code.peephole).units[u]? =
          some { unit with code := Code.peephole unit.code } := by
        rw [Program.mapCode_getElem?, hunit, Option.map_some]
      have hplain' := hplain.trims Code.Trims.peephole
      have hsteps := hwalks'.steps_le_add (Image.holds_of_load himage' hunit' hplain'.labels) hplain' hs
      have hlines : Code.labelLines (Code.peephole unit.code) ≤ unit.code.labelLines :=
        (Code.Trims.peephole.sublist unit.code).countP_le
      rw [hip, List.drop_zero] at hsteps
      calc t'.steps
          ≤ s.steps + n' * (Code.labelLines (Code.peephole unit.code) + 1) +
              Code.labelLines (Code.peephole unit.code) := hsteps
        _ ≤ s.steps + n * (unit.code.labelLines + 1) + unit.code.labelLines := by gcongr
        _ = s.steps + (n + (n + 1) * unit.code.labelLines) := by ring
  · intro e s' hrun he
    obtain ⟨n, s₁, hwalks, hstuck⟩ := stuck_of_runToReturn hrun he
    obtain ⟨n', t', hwalks', hstuck'⟩ := hfollows.stuck hs hip hwalks hstuck
    exact runToReturn_of_stuck hwalks' hstuck' _

/-- Counts down through memory. Sweeps find every rule at work in it, one of them only after
another has removed the instruction between. -/
def shuttle : CompiledUnit where
  name := "shuttle"
  data := [.reserve "from" 1, .reserve "to" 1]
  code := [
    .make .mov [.ofReg .rax, .imm 3] 1,
    .labelled "top" 2,
    .make .mov [.global "from" 0, .ofReg .rax] 2,
    .make .mov [.ofReg .rax, .global "from" 0] 2,
    .make .mov [.global "to" 0, .global "from" 0] 3,
    .make .mov [.ofReg .rbx, .ofReg .rbx] 3,
    .make .mov [.global "to" 0, .global "from" 0] 3,
    .make .sub [.ofReg .rax, .imm 1] 4,
    .make .cmp [.ofReg .rax, .imm 0] 5,
    .make .jg [.sym "top"] 5,
    .make .jmp [.sym "done"] 6,
    .make .jmp [.sym "top"] 6,
    .labelled "passed" 7,
    .labelled "done" 7,
    .make .ret [] 8]

def shuttleMachine : Machine := .fresh (Image.ofProgram { units := [shuttle] } { maxSteps := 128 })

/-- The sweeps remove five of its instructions, and it still ends with the same words. -/
theorem shuttle_preserved :
    shuttle.code.Plain ∧ (Code.peephole shuttle.code).length + 5 = shuttle.code.length ∧
    Machine.load { units := [shuttle] } { maxSteps := 128 } = .ok shuttleMachine ∧
    ∃ m', Machine.load ({ units := [shuttle] : Program }.mapCode Code.peephole) { maxSteps := 128 } = .ok m' ∧
      ∃ n s' n' t', runToReturn shuttleMachine.image 128 shuttleMachine.state = .ok n s' ∧
        runToReturn m'.image 128 shuttleMachine.state = .ok n' t' ∧ n' ≤ n ∧ t'.regs = s'.regs ∧
        t'.lhs = s'.lhs ∧ t'.rhs = s'.rhs ∧ ∀ a, t'.memory.read a = s'.memory.read a := by
  have hplain : shuttle.code.Plain := ⟨by decide, by decide, by decide⟩
  have hload : Machine.load { units := [shuttle] } { maxSteps := 128 } = .ok shuttleMachine := rfl
  obtain ⟨m', hload', hruns⟩ := peephole_preserves_runToReturn hload (u := 0) rfl hplain
  have hcount : (match runToReturn shuttleMachine.image 128 shuttleMachine.state with
      | .ok n _ => n
      | .error _ _ => 0) = 26 := by decide +kernel
  obtain ⟨s', hrun⟩ : ∃ s', runToReturn shuttleMachine.image 128 shuttleMachine.state = .ok 26 s' := by
    split at hcount
    · rename_i hrun
      exact ⟨_, hcount ▸ hrun⟩
    · cases hcount
  refine ⟨hplain, ?_, hload, m', hload', 26, s', ?_⟩
  · rw [Code.peephole_eq_iterate shuttle.code 15 (by decide)]
    decide
  · rcases (hruns shuttleMachine.state rfl rfl).1 26 s' hrun with ⟨n', t', hrun', hsame⟩ | ⟨hover, -⟩
    · exact ⟨n', t', hrun, hrun', hsame⟩
    · exact absurd hover (by decide)

/-- A jump over two labels that nothing jumps to. -/
def skip : CompiledUnit where
  name := "skip"
  code := [
    .make .jmp [.sym "over"] 1,
    .labelled "first" 2,
    .labelled "second" 3,
    .labelled "over" 4,
    .make .ret [] 5]

/-- Without the jump the labels are passed one by one, and the step limit is reached earlier. -/
theorem skip_takes_longer :
    skip.code.Plain ∧
    (∃ m, Machine.load { units := [skip] } { maxSteps := 3 } = .ok m ∧
      (m.call "skip" []).1 = .ok 0 ∧
      ∃ s, runToReturn m.image 3 m.state = .ok 1 s ∧ s.steps = 2) ∧
    ∃ m, Machine.load ({ units := [skip] : Program }.mapCode Code.peephole) { maxSteps := 3 } = .ok m ∧
      (∃ e, (m.call "skip" []).1 = .error e ∧ e.isStepLimit) ∧
      ∃ s, runToReturn m.image 3 m.state = .ok 0 s ∧ s.steps = 3 := by
  have hpeephole : ({ units := [skip] : Program }.mapCode Code.peephole) =
      { units := [{ skip with code := skip.code.tail }] } := by
    simp only [Program.mapCode, List.map, Code.peephole_eq_iterate skip.code 5 (by decide)]
    rfl
  rw [hpeephole]
  exact ⟨⟨by decide, by decide, by decide⟩, ⟨_, rfl, rfl, _, rfl, rfl⟩, _, rfl, ⟨_, rfl, rfl⟩, _, rfl, rfl⟩

end Machine

end Arbor
