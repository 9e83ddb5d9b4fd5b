import Mathlib.Tactic
import Arbor.Proofs.Sweeping

/-!
Where the sweeps end. A sweep skips positions and makes new windows behind itself, but one that
changes nothing has looked at every position and found no rule that applies. The normal form is
told without the rules: what single instructions and neighbours the code no longer has.
-/

namespace Arbor

namespace Instruction

/-- A move with two operands. -/
def IsMove (i : Instruction) (dst src : Operand) : Prop :=
  i.mnemonic = .mov ∧ i.operands = [dst, src]

/-- A register is stored and loaded again, or loaded and stored again, with the same operands. -/
def MovesBack (first second : Instruction) (memory register : Operand) : Prop :=
  memory.kind = .memory ∧ register.kind = .register ∧
    ((first.IsMove memory register ∧ second.IsMove register memory) ∨
      (first.IsMove register memory ∧ second.IsMove memory register))

variable {i first second : Instruction} {dst src : Operand}

theorem IsMove.moveOperands? (h : i.IsMove dst src) : i.moveOperands? = some (dst, src) := by
  obtain ⟨hm, hos⟩ := h
  rw [Instruction.moveOperands?, hm, hos]

theorem IsMove.isRemovable (h : i.IsMove dst src) (hlabel : i.label = none) : i.isRemovable := by
  simp [Instruction.isRemovable, isLabelOnly, h.1, hlabel]

theorem IsMove.isSelfMove (h : i.IsMove dst dst) (hlabel : i.label = none)
    (hkind : dst.kind = .register) : i.isSelfMove := by
  simp [Instruction.isSelfMove, h.moveOperands?, h.isRemovable hlabel, hkind]

theorem IsMove.repeats (hfirst : first.IsMove dst src) (hsecond : second.IsMove dst src)
    (hlabel : second.label = none) (huses : ¬(dst.kind = .register ∧ src.usesReg dst.reg = true)) :
    first.repeats second := by
  rw [not_and_or] at huses
  simpa [Instruction.repeats, hfirst.moveOperands?, hsecond.moveOperands?,
    hsecond.isRemovable hlabel] using huses

theorem MovesBack.undoes {memory register : Operand} (h : first.MovesBack second memory register)
    (hlabel : second.label = none) (huses : memory.usesReg register.reg = false) :
    first.undoes second := by
  obtain ⟨hmemory, hregister, ⟨hfirst, hsecond⟩ | ⟨hfirst, hsecond⟩⟩ := h
  · simp [Instruction.undoes, hfirst.moveOperands?, hsecond.moveOperands?,
      hsecond.isRemovable hlabel, hmemory, hregister, huses]
  · simp [Instruction.undoes, hfirst.moveOperands?, hsecond.moveOperands?,
      hsecond.isRemovable hlabel, hmemory, hregister, huses]

end Instruction

namespace Code

/-- The label is on an instruction at the position or later, with only bare labels before it. -/
def LabelsAt (code : Code) (m : Nat) (label : String) : Prop :=
  ∃ n i, code[m + n]? = some i ∧ i.label = some label ∧
    ∀ j < n, ∃ i l, code[m + j]? = some i ∧ i.mnemonic = .none ∧ i.label = some l

/-- Code in normal form. A move back may stay if its address uses the register. -/
structure Swept (code : Code) : Prop where
  selfMove : ∀ (k : Nat) (i : Instruction) (o : Operand), code[k]? = some i → i.label = none →
    i.IsMove o o → o.kind ≠ .register
  repeated : ∀ (k : Nat) (first second : Instruction) (dst src : Operand),
    code[k]? = some first → code[k + 1]? = some second → second.label = none →
    first.IsMove dst src → second.IsMove dst src → dst.kind = .register ∧ src.usesReg dst.reg = true
  movedBack : ∀ (k : Nat) (first second : Instruction) (memory register : Operand),
    code[k]? = some first → code[k + 1]? = some second → second.label = none →
    first.MovesBack second memory register → memory.usesReg register.reg = true
  jumpToNext : ∀ (k : Nat) (i : Instruction) (o : Operand) (os : List Operand),
    code[k]? = some i → i.label = none → i.mnemonic = .jmp → i.operands = o :: os →
    o.kind = .symbol → ¬code.LabelsAt (k + 1) o.symbol
  unreachable : ∀ (k : Nat) (first second : Instruction),
    code[k]? = some first → code[k + 1]? = some second →
    first.mnemonic = .jmp ∨ first.mnemonic = .ret → second.mnemonic = .jmp → second.label ≠ none

variable {code : Code} {k : Nat} {i : Instruction}

theorem LabelsAt.startsAt {m : Nat} {label : String} (h : code.LabelsAt m label) :
    startsAt label (code.drop m) := by
  obtain ⟨n, i, hi, hlabel, hbefore⟩ := h
  induction n generalizing m with
  | zero =>
      obtain ⟨hlt, rfl⟩ := List.getElem?_eq_some_iff.mp hi
      rw [Nat.add_zero] at hlt
      rw [List.drop_eq_getElem_cons hlt, Code.startsAt]
      simp only [Nat.add_zero] at hlabel
      simp [hlabel]
  | succ n ih =>
      obtain ⟨first, l, hfirst, honly, hl⟩ := hbefore 0 n.succ_pos
      obtain ⟨hlt, rfl⟩ := List.getElem?_eq_some_iff.mp hfirst
      rw [Nat.add_zero] at hlt
      simp only [Nat.add_zero] at honly hl
      have hrest : Code.startsAt label (code.drop (m + 1)) := by
        refine ih (by rwa [Nat.add_right_comm]) fun j hj => ?_
        rw [Nat.add_right_comm]
        exact hbefore (j + 1) (Nat.succ_lt_succ hj)
      rw [List.drop_eq_getElem_cons hlt, Code.startsAt]
      simp [hl, honly, Instruction.isLabelOnly, hrest]

theorem LabelsAt.jumpsToNext {o : Operand} {os : List Operand} (h : code.LabelsAt (k + 1) o.symbol)
    (hlabel : i.label = none) (hm : i.mnemonic = .jmp) (hos : i.operands = o :: os)
    (hkind : o.kind = .symbol) : jumpsToNext i (code.drop (k + 1)) := by
  simp [Code.jumpsToNext, hlabel, hm, hos, hkind, h.startsAt]

/-- A window in which no rule applies. -/
theorem matchWindow_eq_nothing_iff {rest : Code} :
    matchWindow i rest = .nothing ↔
      i.isSelfMove = false ∧ rest.head?.any i.repeats = false ∧ rest.head?.any i.undoes = false ∧
        jumpsToNext i rest = false ∧ rest.head?.any i.shadows = false := by
  unfold matchWindow
  split_ifs <;> simp_all

/-- A sweep that changes nothing has left every window alone. -/
theorem matchWindow_of_sweepWindows_eq (h : sweepWindows code = code) (hi : code[k]? = some i) :
    matchWindow i (code.drop (k + 1)) = .nothing := by
  induction code generalizing k with
  | nil => cases hi
  | cons first rest ih =>
      unfold sweepWindows at h
      cases hmatch : matchWindow first rest with
      | nothing =>
          simp only [hmatch] at h
          cases k with
          | zero =>
              cases hi
              exact hmatch
          | succ k => exact ih (List.cons.inj h).2 hi
      | first =>
          -- the code would have become shorter
          have hlength := congrArg List.length h
          cases rest with
          | nil => simp [hmatch] at hlength
          | cons next rest =>
              have hle := (Trims.sweepWindows.sublist rest).length_le
              simp [hmatch] at hlength
              omega
      | second =>
          have hlength := congrArg List.length h
          cases rest with
          | nil => exact absurd hmatch (matchWindow_nil_ne_second first)
          | cons next rest =>
              have hle := (Trims.sweepWindows.sublist rest).length_le
              simp [hmatch] at hlength
              omega

/-- Code in which no window matches a rule is in normal form. -/
theorem swept_of_matchWindow
    (h : ∀ k i, code[k]? = some i → matchWindow i (code.drop (k + 1)) = .nothing) :
    code.Swept := by
  have hsecond : ∀ {k : Nat} {second : Instruction} {rule : Instruction → Bool},
      code[k + 1]? = some second → (code.drop (k + 1)).head?.any rule = false →
        rule second = false := by
    intro k second rule hsecond hany
    rwa [List.head?_drop, hsecond, Option.any_some] at hany
  constructor
  · intro k i o hi hlabel hmove hkind
    obtain ⟨hself, -⟩ := matchWindow_eq_nothing_iff.mp (h k i hi)
    rw [hmove.isSelfMove hlabel hkind] at hself
    cases hself
  · intro k first second dst src hi hi' hlabel hmove hmove'
    obtain ⟨-, hrepeats, -⟩ := matchWindow_eq_nothing_iff.mp (h k first hi)
    by_contra huses
    have hnot := hsecond hi' hrepeats
    rw [hmove.repeats hmove' hlabel huses] at hnot
    cases hnot
  · intro k first second memory register hi hi' hlabel hback
    obtain ⟨-, -, hundoes, -⟩ := matchWindow_eq_nothing_iff.mp (h k first hi)
    by_contra huses
    have hnot := hsecond hi' hundoes
    rw [hback.undoes hlabel (by simpa using huses)] at hnot
    cases hnot
  · intro k i o os hi hlabel hm hos hkind hlabels
    obtain ⟨-, -, -, hjump, -⟩ := matchWindow_eq_nothing_iff.mp (h k i hi)
    rw [hlabels.jumpsToNext hlabel hm hos hkind] at hjump
    cases hjump
  · intro k first second hi hi' hm hm' hlabel
    obtain ⟨-, -, -, -, hshadows⟩ := matchWindow_eq_nothing_iff.mp (h k first hi)
    have hnot := hsecond hi' hshadows
    rcases hm with hm | hm <;>
      simp [Instruction.shadows, Instruction.isRemovable, Instruction.isLabelOnly, hm, hm',
        hlabel] at hnot

/-- The sweeps of a run: each removes something, except for the last, which changes nothing. -/
theorem exists_sweeps (code : Code) :
    ∃ n ≤ code.length, peephole code = sweepWindows^[n] code ∧
      (∀ m < n, (sweepWindows^[m + 1] code).length < (sweepWindows^[m] code).length) ∧
      sweepWindows (sweepWindows^[n] code) = sweepWindows^[n] code := by
  fun_induction peephole code with
  | case1 code next hlt ih =>
      obtain ⟨n, hn, heq, hshorter, hfixed⟩ := ih
      refine ⟨n + 1, by omega, heq, ?_, hfixed⟩
      intro m hm
      cases m with
      | zero => exact hlt
      | succ m => exact hshorter m (by omega)
  | case2 code next hge =>
      refine ⟨0, Nat.zero_le _, rfl, fun m hm => by omega, ?_⟩
      exact (Trims.sweepWindows.sublist code).eq_of_length_le (Nat.le_of_not_lt hge)

theorem peephole_of_sweepWindows_eq (h : sweepWindows code = code) : peephole code = code := by
  rw [peephole, h]
  simp

/-- The sweeps over any code come to an end, after no more of them than it has instructions. In
what they leave, no window matches a rule, at any position: it is in normal form, and sweeping it
again changes nothing. -/
theorem peephole_reaches_normal_form (code : Code) :
    (∃ n ≤ code.length, peephole code = sweepWindows^[n] code ∧
      (∀ m < n, (sweepWindows^[m + 1] code).length < (sweepWindows^[m] code).length) ∧
      sweepWindows (sweepWindows^[n] code) = sweepWindows^[n] code) ∧
    (∀ k i, (peephole code)[k]? = some i →
      matchWindow i ((peephole code).drop (k + 1)) = .nothing) ∧
    (peephole code).Swept ∧ peephole (peephole code) = peephole code := by
  have hsweeps := exists_sweeps code
  have hfixed : sweepWindows (peephole code) = peephole code := by
    obtain ⟨n, -, heq, -, hfixed⟩ := hsweeps
    rw [heq, hfixed]
  have hwindows := fun k i => matchWindow_of_sweepWindows_eq (k := k) (i := i) hfixed
  exact ⟨hsweeps, hwindows, swept_of_matchWindow hwindows, peephole_of_sweepWindows_eq hfixed⟩

/-- Stores the word in `rax` where it points to, and loads it again. -/
def bounce : Code := [
  .make .mov [.element .rax .none 0, .ofReg .rax] 1,
  .make .mov [.ofReg .rax, .element .rax .none 0] 1]

/-- A move back stays, because its address uses the register. -/
theorem bounce_stays :
    peephole bounce = bounce ∧
    ∃ first second memory register, (peephole bounce)[0]? = some first ∧
      (peephole bounce)[1]? = some second ∧ second.label = none ∧
      first.MovesBack second memory register := by
  have hbounce : peephole bounce = bounce := by
    rw [peephole_eq_iterate bounce 2 (by decide)]
    decide
  rw [hbounce]
  exact ⟨rfl, _, _, .element .rax .none 0, .ofReg .rax, rfl, rfl, rfl, rfl, rfl,
    .inl ⟨⟨rfl, rfl⟩, rfl, rfl⟩⟩

end Code

end Arbor
