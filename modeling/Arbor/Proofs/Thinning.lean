import Mathlib.Data.Nat.Count
import Mathlib.Tactic
import Arbor.Optimize.Pipeline
import Arbor.Proofs.Uniqueness

/-!
Every pass leaves out instructions and keeps the others in their order. A thinning
says which positions are kept, so it also says where each position goes. The passes
are sequences of thinnings, and each instruction that one of them leaves out comes
with the reason for which it may go. No reason applies to an instruction that carries
a label, so the labels of a unit stay as they are.
-/

namespace Arbor

namespace Code

/-- The instructions at the positions that are kept. -/
def thin (keep : Nat → Bool) : Code → Code
  | [] => []
  | i :: rest =>
    if keep 0 then i :: thin (fun k => keep (k + 1)) rest else thin (fun k => keep (k + 1)) rest

/-- Where a position goes: the number of positions kept before it. -/
def rank (keep : Nat → Bool) (k : Nat) : Nat := Nat.count (fun j => keep j = true) k

section Thin

variable {keep : Nat → Bool}

@[simp] theorem rank_zero : rank keep 0 = 0 := Nat.count_zero _

theorem rank_succ (k : Nat) : rank keep (k + 1) = rank keep k + if keep k then 1 else 0 :=
  Nat.count_succ _ k

theorem rank_succ_of_kept {k : Nat} (h : keep k = true) : rank keep (k + 1) = rank keep k + 1 := by
  rw [rank_succ, if_pos h]

theorem rank_succ_of_gone {k : Nat} (h : keep k = false) : rank keep (k + 1) = rank keep k := by
  simp [rank_succ, h]

theorem rank_succ_shift (k : Nat) :
    rank keep (k + 1) = rank (fun j => keep (j + 1)) k + if keep 0 then 1 else 0 :=
  Nat.count_succ' _ k

theorem rank_mono {j k : Nat} (h : j ≤ k) : rank keep j ≤ rank keep k := Nat.count_monotone _ h

theorem rank_le (k : Nat) : rank keep k ≤ k := Nat.count_le _

theorem thin_sublist (code : Code) : (thin keep code).Sublist code := by
  induction code generalizing keep with
  | nil => exact List.Sublist.slnil
  | cons i rest ih =>
      rw [thin]
      split
      · exact ih.cons_cons i
      · exact ih.cons i

theorem thin_length (code : Code) : (thin keep code).length = rank keep code.length := by
  induction code generalizing keep with
  | nil => rfl
  | cons i rest ih =>
      rw [thin, List.length_cons, rank_succ_shift, ← ih]
      split <;> rfl

/-- A kept position goes where its rank says. -/
theorem thin_getElem? {k : Nat} (h : keep k = true) (code : Code) :
    (thin keep code)[rank keep k]? = code[k]? := by
  induction code generalizing keep k with
  | nil => rfl
  | cons i rest ih =>
      cases k with
      | zero => simp [thin, h]
      | succ k =>
          rw [rank_succ_shift, List.getElem?_cons_succ, thin]
          have hrest : (thin (fun j => keep (j + 1)) rest)[rank (fun j => keep (j + 1)) k]? = rest[k]? :=
            ih h
          split
          · rw [List.getElem?_cons_succ, hrest]
          · rw [Nat.add_zero, hrest]

/-- Every instruction of the thinned code stood at a position that is kept. -/
theorem exists_of_thin_getElem? {code : Code} {j : Nat} {i : Instruction}
    (h : (thin keep code)[j]? = some i) :
    ∃ k, keep k = true ∧ rank keep k = j ∧ code[k]? = some i := by
  induction code generalizing keep j with
  | nil => cases h
  | cons first rest ih =>
      rw [thin] at h
      cases hkeep : keep 0 with
      | true =>
          rw [if_pos hkeep] at h
          cases j with
          | zero => exact ⟨0, hkeep, rank_zero, h⟩
          | succ j =>
              obtain ⟨k, hk, hrank, hi⟩ := ih h
              exact ⟨k + 1, hk, by rw [rank_succ_shift, hrank, if_pos hkeep], hi⟩
      | false =>
          rw [if_neg (by simp [hkeep])] at h
          obtain ⟨k, hk, hrank, hi⟩ := ih h
          exact ⟨k + 1, hk, by simp [rank_succ_shift, hrank, hkeep], hi⟩

theorem thin_append (a b : Code) :
    thin keep (a ++ b) = thin keep a ++ thin (fun k => keep (a.length + k)) b := by
  induction a generalizing keep with
  | nil => simp [thin]
  | cons i rest ih =>
      have hshift : (fun k => keep ((i :: rest).length + k)) =
          fun k => (fun j => keep (j + 1)) (rest.length + k) := by
        funext k
        rw [List.length_cons, Nat.add_right_comm]
      rw [List.cons_append, thin, thin, ih, hshift]
      split <;> rfl

/-- Two thinnings in turn are one. -/
theorem thin_thin (keep' : Nat → Bool) (code : Code) :
    thin keep' (thin keep code) = thin (fun k => keep k && keep' (rank keep k)) code := by
  induction code generalizing keep keep' with
  | nil => rfl
  | cons i rest ih =>
      cases hkeep : keep 0 with
      | true =>
          simp only [thin, hkeep, if_true, rank_zero, Bool.true_and, rank_succ_shift]
          rw [ih fun k => keep' (k + 1)]
      | false =>
          simp only [thin, hkeep, Bool.false_eq_true, if_false, Bool.false_and, rank_succ_shift,
            Nat.add_zero]
          rw [ih keep']

theorem rank_rank (keep' : Nat → Bool) (k : Nat) :
    rank keep' (rank keep k) = rank (fun k => keep k && keep' (rank keep k)) k := by
  induction k with
  | zero => simp
  | succ k ih =>
      have hboth := @rank_succ (fun k => keep k && keep' (rank keep k)) k
      rw [hboth, ← ih]
      cases hkeep : keep k with
      | true => rw [rank_succ_of_kept hkeep, rank_succ, Bool.true_and]
      | false => simp [rank_succ_of_gone hkeep]

/-- What does not change at a position that goes is a matter of the position it goes to. -/
theorem exists_eq_at_rank {α : Type} {f : Nat → α} {n : Nat}
    (h : ∀ k < n, keep k = false → f (k + 1) = f k) :
    ∃ g : Nat → α, ∀ k ≤ n, g (rank keep k) = f k := by
  induction n with
  | zero =>
      refine ⟨fun _ => f 0, ?_⟩
      intro k hk
      rw [Nat.le_zero.mp hk]
  | succ n ih =>
      obtain ⟨g, hg⟩ := ih fun k hk => h k (Nat.lt_succ_of_lt hk)
      refine ⟨fun j => if j = rank keep (n + 1) then f (n + 1) else g j, ?_⟩
      intro k hk
      dsimp only
      split
      · rename_i hrank
        rcases Nat.lt_or_ge k (n + 1) with hlt | hge
        · cases hkeep : keep n with
          | true =>
              have hle : rank keep k ≤ rank keep n := rank_mono (Nat.le_of_lt_succ hlt)
              rw [rank_succ_of_kept hkeep] at hrank
              omega
          | false =>
              rw [rank_succ_of_gone hkeep] at hrank
              rw [h n n.lt_succ_self hkeep, ← hg n le_rfl, ← hg k (Nat.le_of_lt_succ hlt), hrank]
        · rw [Nat.le_antisymm hk hge]
      · rename_i hrank
        apply hg
        rcases Nat.lt_or_ge k (n + 1) with hlt | hge
        · exact Nat.le_of_lt_succ hlt
        · exact absurd (by rw [Nat.le_antisymm hk hge]) hrank

theorem thin_congr {keep' : Nat → Bool} {code : Code}
    (h : ∀ k < code.length, keep k = keep' k) : thin keep code = thin keep' code := by
  induction code generalizing keep keep' with
  | nil => rfl
  | cons i rest ih =>
      have hrest : thin (fun k => keep (k + 1)) rest = thin (fun k => keep' (k + 1)) rest :=
        ih fun k hk => h (k + 1) (by simpa using hk)
      rw [thin, thin, h 0 (by simp), hrest]

/-- Where the instruction alone decides, thinning is filtering. -/
theorem thin_eq_filter {keeps : Instruction → Bool} {code : Code}
    (h : ∀ k i, code[k]? = some i → keep k = keeps i) : thin keep code = code.filter keeps := by
  induction code generalizing keep with
  | nil => rfl
  | cons i rest ih =>
      have hrest : thin (fun k => keep (k + 1)) rest = rest.filter keeps :=
        ih fun k j hj => h (k + 1) j hj
      rw [thin, h 0 i rfl, hrest, List.filter_cons]

theorem thin_true (code : Code) : thin (fun _ => true) code = code := by
  induction code with
  | nil => rfl
  | cons i rest ih => rw [thin, if_pos rfl, ih]

theorem filter_zipIdx_eq_thin (keep : Nat → Bool) (code : Code) (n : Nat) :
    ((code.zipIdx n).filter fun entry => keep entry.2).map (·.1) =
      thin (fun k => keep (n + k)) code := by
  induction code generalizing n with
  | nil => rfl
  | cons i rest ih =>
      have hrest : thin (fun k => keep (n + (k + 1))) rest =
          thin (fun k => keep (n + 1 + k)) rest := thin_congr fun k _ => by congr 1; omega
      rw [List.zipIdx_cons, thin, hrest, ← ih (n + 1), List.filter_cons]
      dsimp only [Nat.add_zero]
      split <;> rfl

/-- What is collected stays, if nothing is collected from the instructions that go. -/
theorem filterMap_thin {α : Type} {f : Instruction → Option α} {code : Code}
    (h : ∀ k i, code[k]? = some i → keep k = false → f i = none) :
    (thin keep code).filterMap f = code.filterMap f := by
  induction code generalizing keep with
  | nil => rfl
  | cons i rest ih =>
      have hrest : (thin (fun k => keep (k + 1)) rest).filterMap f = rest.filterMap f :=
        ih fun k j hj => h (k + 1) j hj
      rw [thin]
      split
      · rw [List.filterMap_cons, List.filterMap_cons, hrest]
      · rename_i hgone
        have hnone : f i = none := h 0 i rfl (by simpa using hgone)
        rw [hrest, List.filterMap_cons, hnone]

/-- If only instructions without label go, the labels stay. -/
theorem labels_thin {code : Code}
    (h : ∀ k i, code[k]? = some i → keep k = false → i.label = none) :
    labels (thin keep code) = labels code :=
  filterMap_thin h

end Thin

/-- Why a window lets an instruction go: it does nothing, the instruction before it
has done the same already, or it is never reached. -/
inductive Redundant (code : Code) : Nat → Instruction → Prop where
  | selfMove {k : Nat} {i : Instruction} (h : i.isSelfMove) : Redundant code k i
  | repeated {k : Nat} {first i : Instruction} (hfirst : code[k]? = some first)
      (h : first.repeats i) : Redundant code (k + 1) i
  | undone {k : Nat} {first i : Instruction} (hfirst : code[k]? = some first)
      (h : first.undoes i) : Redundant code (k + 1) i
  | jumpToNext {k : Nat} {i : Instruction} (h : jumpsToNext i (code.drop (k + 1))) :
      Redundant code k i
  | shadowed {k : Nat} {first i : Instruction} (hfirst : code[k]? = some first)
      (h : first.shadows i) : Redundant code (k + 1) i

theorem Redundant.cons {code : Code} {k : Nat} {i : Instruction} (h : Redundant code k i)
    (j : Instruction) : Redundant (j :: code) (k + 1) i := by
  cases h with
  | selfMove h => exact .selfMove h
  | repeated hfirst h => exact .repeated hfirst h
  | undone hfirst h => exact .undone hfirst h
  | jumpToNext h => exact .jumpToNext h
  | shadowed hfirst h => exact .shadowed hfirst h

/-- A reason looks back at one instruction only. -/
theorem Redundant.of_cons {code : Code} {k : Nat} {i j : Instruction}
    (h : Redundant (j :: code) (k + 2) i) : Redundant code (k + 1) i := by
  cases h with
  | selfMove h => exact .selfMove h
  | repeated hfirst h => exact .repeated hfirst h
  | undone hfirst h => exact .undone hfirst h
  | jumpToNext h => exact .jumpToNext h
  | shadowed hfirst h => exact .shadowed hfirst h

end Code

namespace Instruction

theorem label_of_isRemovable {i : Instruction} (h : i.isRemovable) : i.label = none := by
  simp only [isRemovable, Bool.and_eq_true] at h
  simpa using h.1

/-- What a self move looks like. -/
theorem of_isSelfMove {i : Instruction} (h : i.isSelfMove) :
    i.isRemovable ∧ ∃ o, i.moveOperands? = some (o, o) ∧ o.kind = .register := by
  unfold isSelfMove at h
  split at h
  · rename_i dst src hmove
    simp only [Bool.and_eq_true, beq_iff_eq] at h
    obtain ⟨⟨hremovable, hkind⟩, rfl⟩ := h
    exact ⟨hremovable, dst, hmove, hkind⟩
  · cases h

/-- What a repeated move looks like. -/
theorem of_repeats {first i : Instruction} (h : first.repeats i) :
    i.isRemovable ∧ ∃ dst src, first.moveOperands? = some (dst, src) ∧
      i.moveOperands? = some (dst, src) ∧ (dst.kind = .register → src.usesReg dst.reg = false) := by
  unfold repeats at h
  split at h
  · rename_i dst src dst' src' hmove hmove'
    simp only [Bool.and_eq_true, beq_iff_eq, Bool.not_eq_true', Bool.and_eq_false_iff] at h
    obtain ⟨⟨⟨hremovable, rfl⟩, rfl⟩, huses⟩ := h
    exact ⟨hremovable, dst, src, hmove, hmove', fun hkind => by simpa [hkind] using huses⟩
  · cases h

/-- What a move back looks like. -/
theorem of_undoes {first i : Instruction} (h : first.undoes i) :
    i.isRemovable ∧ ∃ dst src, first.moveOperands? = some (src, dst) ∧
      i.moveOperands? = some (dst, src) ∧
      ((dst.kind = .register ∧ src.kind = .memory) ∨
        (dst.kind = .memory ∧ src.kind = .register ∧ dst.usesReg src.reg = false)) := by
  unfold undoes at h
  split at h
  · rename_i src dst dst' src' hmove hmove'
    simp only [Bool.and_eq_true, Bool.or_eq_true, beq_iff_eq, Bool.not_eq_true'] at h
    obtain ⟨⟨⟨hremovable, rfl⟩, rfl⟩, hkinds⟩ := h
    refine ⟨hremovable, dst', src', hmove, hmove', ?_⟩
    rcases hkinds with ⟨⟨hmemory, hregister⟩, -⟩ | ⟨⟨hregister, hmemory⟩, huses⟩
    · exact .inl ⟨hregister, hmemory⟩
    · exact .inr ⟨hmemory, hregister, huses⟩
  · cases h

theorem isRemovable_of_shadows {first i : Instruction} (h : first.shadows i) : i.isRemovable := by
  simp only [shadows, Bool.and_eq_true] at h
  exact h.2

end Instruction

namespace Code

/-- What a jump to the next position looks like. -/
theorem of_jumpsToNext {i : Instruction} {rest : Code} (h : jumpsToNext i rest) :
    i.mnemonic = .jmp ∧ i.label = none ∧
      ∃ o os, i.operands = o :: os ∧ startsAt o.symbol rest := by
  unfold jumpsToNext at h
  split at h
  · rename_i o os hos
    simp only [Bool.and_eq_true, beq_iff_eq, Option.isNone_iff_eq_none] at h
    exact ⟨h.1.1.1, h.1.1.2, o, os, hos, h.2⟩
  · cases h

theorem Redundant.label {code : Code} {k : Nat} {i : Instruction} (h : Redundant code k i) :
    i.label = none := by
  cases h with
  | selfMove h => exact i.label_of_isRemovable (Instruction.of_isSelfMove h).1
  | repeated _ h => exact i.label_of_isRemovable (Instruction.of_repeats h).1
  | undone _ h => exact i.label_of_isRemovable (Instruction.of_undoes h).1
  | jumpToNext h => exact (of_jumpsToNext h).2.1
  | shadowed _ h => exact i.label_of_isRemovable (Instruction.isRemovable_of_shadows h)

/-- What a window that removes its first instruction has found. -/
theorem redundant_of_matchWindow_first {i : Instruction} {rest : Code}
    (h : matchWindow i rest = .first) : Redundant (i :: rest) 0 i := by
  unfold matchWindow at h
  split_ifs at h with hself _ _ hjump
  · exact .selfMove hself
  · exact .jumpToNext hjump

/-- What a window that removes its second instruction has found. -/
theorem redundant_of_matchWindow_second {i next : Instruction} {rest : Code}
    (h : matchWindow i (next :: rest) = .second) : Redundant (i :: next :: rest) 1 next := by
  unfold matchWindow at h
  split_ifs at h with _ hrepeats hundoes _ hshadows
  · exact .repeated rfl (by simpa using hrepeats)
  · exact .undone rfl (by simpa using hundoes)
  · exact .shadowed rfl (by simpa using hshadows)

theorem matchWindow_nil_ne_second (i : Instruction) : matchWindow i [] ≠ .second := by
  unfold matchWindow
  split_ifs <;> simp_all

/-- The choice for the first position put before the choices for the others. -/
def keepCons (first : Bool) (keep : Nat → Bool) : Nat → Bool
  | 0 => first
  | k + 1 => keep k

theorem thin_keepCons (first : Bool) (keep : Nat → Bool) (i : Instruction) (rest : Code) :
    thin (keepCons first keep) (i :: rest) = if first then i :: thin keep rest else thin keep rest :=
  rfl

/-- What goes is redundant, if the first instruction is when it goes and the others are. -/
theorem redundant_keepCons {first : Bool} {keep : Nat → Bool} {i : Instruction} {rest : Code}
    (hfirst : first = false → Redundant (i :: rest) 0 i)
    (hrest : ∀ k j, rest[k]? = some j → keep k = false → Redundant (i :: rest) (k + 1) j) :
    ∀ k j, (i :: rest)[k]? = some j → keepCons first keep k = false →
      Redundant (i :: rest) k j := by
  intro k j hj hgone
  cases k with
  | zero =>
      cases hj
      exact hfirst hgone
  | succ k => exact hrest k j hj hgone

/-- A sweep is a thinning, and all that it leaves out is redundant in the code it
started from: a window never looks at what the same sweep has left out. -/
theorem exists_thin_eq_sweepWindows (code : Code) :
    ∃ keep, sweepWindows code = thin keep code ∧
      ∀ k i, code[k]? = some i → keep k = false → Redundant code k i := by
  fun_induction sweepWindows code with
  | case1 => exact ⟨fun _ => true, rfl, by simp⟩
  | case2 i hmatch =>
      refine ⟨keepCons false fun _ => true, by simp only [hmatch]; rfl,
        redundant_keepCons ?_ (by simp)⟩
      exact fun _ => redundant_of_matchWindow_first hmatch
  | case3 i next rest hmatch ih =>
      obtain ⟨keep, heq, hgone⟩ := ih
      refine ⟨keepCons false (keepCons true keep), ?_, redundant_keepCons ?_ ?_⟩
      · simp only [hmatch, thin_keepCons, heq]
        rfl
      · exact fun _ => redundant_of_matchWindow_first hmatch
      · intro k j hj hk
        cases k with
        | zero => cases hk
        | succ k => exact ((hgone k j hj hk).cons next).cons i
  | case4 i hmatch => exact absurd hmatch (matchWindow_nil_ne_second i)
  | case5 i next rest hmatch ih =>
      obtain ⟨keep, heq, hgone⟩ := ih
      refine ⟨keepCons true (keepCons false keep), ?_, redundant_keepCons ?_ ?_⟩
      · simp only [hmatch, thin_keepCons, heq]
        rfl
      · intro h
        cases h
      · intro k j hj hk
        cases k with
        | zero =>
            cases hj
            exact redundant_of_matchWindow_second hmatch
        | succ k => exact ((hgone k j hj hk).cons next).cons i
  | case6 i rest hmatch ih =>
      obtain ⟨keep, heq, hgone⟩ := ih
      refine ⟨keepCons true keep, ?_, redundant_keepCons ?_ ?_⟩
      · simp only [hmatch, thin_keepCons, heq]
        rfl
      · intro h
        cases h
      · exact fun k j hj hk => (hgone k j hj hk).cons i

/-- What every sweep preserves, the repeated sweeps preserve. -/
theorem peephole_of_sweepWindows {P : Code → Prop} (hsweep : ∀ code, P code → P (sweepWindows code))
    {code : Code} (h : P code) : P (peephole code) := by
  fun_induction peephole code with
  | case1 code next hlt ih => exact ih (hsweep code h)
  | case2 => exact h

/-- The liveness that the removal of dead stores looks at. -/
def liveness (code : Code) : List (Word × Array Bool) :=
  code.slotsWritten.map fun slot => (slot, code.flow.live slot)

/-- The position of an instruction in the flow graph of its code. -/
def nodeAt (code : Code) (k : Nat) (i : Instruction) : FlowNode :=
  { instruction := i, successors := code.successorsOf k i }

/-- Whether the removal of dead stores keeps a position. -/
def keepsStore (code : Code) (k : Nat) : Bool :=
  match code[k]? with
  | none => true
  | some i => !isDeadStore code.liveness (code.nodeAt k i)

theorem removeDeadStores_eq_thin (code : Code) :
    removeDeadStores code = thin (keepsStore code) code := by
  have hremove : removeDeadStores code =
      (((code.zipIdx.map fun entry => code.nodeAt entry.2 entry.1).filter
        fun node => !isDeadStore code.liveness node).map (·.instruction)) := rfl
  have hkeeps : ∀ entry ∈ code.zipIdx,
      (!isDeadStore code.liveness (code.nodeAt entry.2 entry.1)) = keepsStore code entry.2 := by
    rintro ⟨i, k⟩ hmem
    rw [List.mem_zipIdx_iff_getElem?] at hmem
    simp only [keepsStore, hmem]
  have hthin := filter_zipIdx_eq_thin (keepsStore code) code 0
  simp only [Nat.zero_add] at hthin
  rw [hremove, ← hthin, List.filter_map, List.map_map, ← List.filter_congr hkeeps]
  rfl

/-- A store that goes carries no label. -/
theorem label_of_keepsStore {code : Code} {k : Nat} {i : Instruction} (hi : code[k]? = some i)
    (h : keepsStore code k = false) : i.label = none := by
  simp only [keepsStore, hi, isDeadStore] at h
  split at h
  · cases h
  · simp at h
    exact h.1.1.1

/-- A transformation that leaves out instructions without label and does nothing else. -/
structure Trims (f : Code → Code) : Prop where
  sublist : ∀ code, (f code).Sublist code
  labels : ∀ code, labels (f code) = labels code

namespace Trims

theorem id : Trims fun code => code := ⟨fun _ => List.Sublist.refl _, fun _ => rfl⟩

theorem comp {f g : Code → Code} (hg : Trims g) (hf : Trims f) : Trims fun code => g (f code) where
  sublist := fun code => (hg.sublist (f code)).trans (hf.sublist code)
  labels := fun code => (hg.labels (f code)).trans (hf.labels code)

theorem removeDeadStores : Trims removeDeadStores where
  sublist := fun code => by
    rw [removeDeadStores_eq_thin]
    exact thin_sublist code
  labels := fun code => by
    rw [removeDeadStores_eq_thin]
    exact labels_thin fun _ _ hi hgone => label_of_keepsStore hi hgone

theorem sweepWindows : Trims sweepWindows where
  sublist := fun code => by
    obtain ⟨keep, heq, -⟩ := exists_thin_eq_sweepWindows code
    rw [heq]
    exact thin_sublist code
  labels := fun code => by
    obtain ⟨keep, heq, hgone⟩ := exists_thin_eq_sweepWindows code
    rw [heq]
    exact labels_thin fun k i hi hk => (hgone k i hi hk).label

theorem peephole : Trims peephole where
  sublist := fun code => peephole_of_sweepWindows
    (P := fun next => next.Sublist code) (fun next h => (sweepWindows.sublist next).trans h)
    (List.Sublist.refl code)
  labels := fun code => peephole_of_sweepWindows
    (P := fun next => Code.labels next = Code.labels code)
    (fun next h => (sweepWindows.labels next).trans h) rfl

theorem run (pass : Pass) : Trims pass.run := by
  cases pass with
  | deadStore => exact removeDeadStores
  | peephole => exact peephole

/-- Whatever passes a pipeline has and whichever are switched on. -/
theorem runAll (stages : List PipelineStage) :
    Trims fun code => (PipelineStage.runAll stages code).1 := by
  induction stages with
  | nil => exact id
  | cons stage rest ih =>
      apply ih.comp (f := stage.run)
      unfold PipelineStage.run
      split
      · exact run stage.pass
      · exact id

end Trims

end Code

/-- The program with the code of every unit transformed. -/
def Program.mapCode (f : Code → Code) (p : Program) : Program :=
  { p with units := p.units.map fun unit => { unit with code := f unit.code } }

theorem Pipeline.run_eq_mapCode (pipeline : Pipeline) (p : Program) :
    (pipeline.run p).1 = p.mapCode fun code => (PipelineStage.runAll pipeline.stages code).1 := rfl

namespace Program

variable {f : Code → Code}

@[simp] theorem mapCode_globals (p : Program) : (p.mapCode f).globals = p.globals := rfl

theorem mapCode_getElem? (p : Program) (u : Nat) :
    (p.mapCode f).units[u]? = p.units[u]?.map fun unit => { unit with code := f unit.code } :=
  List.getElem?_map

theorem mem_mapCode {p : Program} {unit : CompiledUnit} :
    unit ∈ (p.mapCode f).units ↔ ∃ old ∈ p.units, { old with code := f old.code } = unit :=
  List.mem_map

@[simp] theorem defines_mapCode (p : Program) (name : String) :
    (p.mapCode f).defines name = p.defines name := by
  simp [defines, mapCode, List.any_map, Function.comp_def]

@[simp] theorem requests_mapCode (p : Program) :
    Layout.requests (p.mapCode f) = Layout.requests p := by
  simp [Layout.requests, mapCode, List.flatMap_map]

@[simp] theorem imports_mapCode (p : Program) : (p.mapCode f).imports = p.imports := by
  simp only [imports, defines_mapCode]
  simp [mapCode, List.flatMap_map]

end Program

end Arbor
