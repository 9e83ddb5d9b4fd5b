import Mathlib.Tactic
import Arbor.Proofs.Liveness

/-!
What the removal of dead stores removes. A store to a frame slot is dead if no path from
a position after it reads the slot before a move overwrites it. Paths are those of the
flow graph of arbitrary code: loops, positions that nothing reaches, labels that occur
twice and jumps to labels that do not occur. The slots found live at a position are those
that some path from there reads, so the stores that go are exactly the dead ones.
-/

namespace Arbor

open Relation

/-- A memory operand addressed from the frame base, with or without an index. -/
def Operand.OnFrame (o : Operand) : Prop := o.kind = .memory ∧ o.reg = .rbp ∧ o.symbol = ""

theorem Operand.isFrame_iff {o : Operand} : o.isFrame = true ↔ o.OnFrame := by
  simp [isFrame, OnFrame, and_assoc]

namespace Instruction

/-- The instruction names the slot other than as the destination of a move, or indexes from
the frame base. -/
def Reads (i : Instruction) (d : Word) : Prop :=
  ∃ n o, i.operands[n]? = some o ∧ o.OnFrame ∧
    (o.index ≠ .none ∨ (o.value = d ∧ ¬(i.mnemonic = .mov ∧ n = 0)))

/-- The instruction is a move into the slot. -/
def Overwrites (i : Instruction) (d : Word) : Prop :=
  i.mnemonic = .mov ∧ ∃ o rest, i.operands = o :: rest ∧ o.OnFrame ∧ o.index = .none ∧ o.value = d

variable {i : Instruction} {d : Word}

theorem slotWritten?_eq_some_iff : i.slotWritten? = some d ↔ i.Overwrites d := by
  unfold slotWritten? Overwrites
  split
  · rename_i o rest hm hos
    simp only [hm, hos, true_and, List.cons.injEq]
    constructor
    · intro h
      obtain ⟨hframe, hd⟩ := Option.ite_none_right_eq_some.mp h
      simp only [Bool.and_eq_true, Operand.isFrame_iff, beq_iff_eq] at hframe
      exact ⟨o, rest, ⟨rfl, rfl⟩, hframe.1, hframe.2, Option.some.inj hd⟩
    · rintro ⟨_, _, ⟨rfl, rfl⟩, hframe, hindex, rfl⟩
      rw [if_pos]
      simp [Operand.isFrame_iff.mpr hframe, hindex]
  · rename_i hother
    constructor
    · intro h
      cases h
    · rintro ⟨hm, o, rest, hos, -⟩
      exact absurd hos (hother o rest hm)

theorem Overwrites.slot_eq {d' : Word} (h : i.Overwrites d) (h' : i.Overwrites d') : d = d' :=
  Option.some.inj ((slotWritten?_eq_some_iff.mpr h).symm.trans (slotWritten?_eq_some_iff.mpr h'))

theorem readsAllSlots_iff :
    i.readsAllSlots = true ↔ ∃ o ∈ i.operands, o.OnFrame ∧ o.index ≠ .none := by
  simp [readsAllSlots, Operand.isFrame_iff]

theorem mem_slotsRead_iff :
    d ∈ i.slotsRead ↔ ∃ o ∈ i.slotReaders, o.OnFrame ∧ o.index = .none ∧ o.value = d := by
  simp [slotsRead, Operand.isFrame_iff, and_assoc]

/-- The operands that are read are those other than the destination of a move to a slot. -/
theorem mem_slotReaders_iff {o : Operand} (hframe : o.OnFrame) (hindex : o.index = .none) :
    o ∈ i.slotReaders ↔ ∃ n, i.operands[n]? = some o ∧ ¬(i.mnemonic = .mov ∧ n = 0) := by
  unfold slotReaders
  split
  · rename_i d hd
    obtain ⟨hm, first, rest, hos, -⟩ := slotWritten?_eq_some_iff.mp hd
    rw [hos, List.tail_cons, List.mem_iff_getElem?]
    constructor
    · rintro ⟨n, hn⟩
      exact ⟨n + 1, hn, by simp⟩
    · rintro ⟨n, hn, hother⟩
      cases n with
      | zero => exact absurd ⟨hm, rfl⟩ hother
      | succ n => exact ⟨n, hn⟩
  · rename_i hnone
    rw [List.mem_iff_getElem?]
    constructor
    · rintro ⟨n, hn⟩
      refine ⟨n, hn, ?_⟩
      rintro ⟨hm, rfl⟩
      -- a move whose destination is the slot would be a store to it
      obtain ⟨rest, hos⟩ : ∃ rest, i.operands = o :: rest := by
        cases hos : i.operands with
        | nil => simp [hos] at hn
        | cons first rest =>
            rw [hos] at hn
            exact ⟨rest, by rw [Option.some.inj hn]⟩
      have hwrites : i.Overwrites o.value := ⟨hm, o, rest, hos, hframe, hindex, rfl⟩
      rw [slotWritten?_eq_some_iff.mpr hwrites] at hnone
      cases hnone
    · rintro ⟨n, hn, -⟩
      exact ⟨n, hn⟩

theorem readsSlot_iff : i.readsSlot d = true ↔ i.Reads d := by
  rw [readsSlot, Bool.or_eq_true, readsAllSlots_iff, List.contains_iff_mem, mem_slotsRead_iff]
  constructor
  · rintro (⟨o, ho, hframe, hindex⟩ | ⟨o, ho, hframe, hindex, hvalue⟩)
    · obtain ⟨n, hn⟩ := List.mem_iff_getElem?.mp ho
      exact ⟨n, o, hn, hframe, .inl hindex⟩
    · obtain ⟨n, hn, hother⟩ := (mem_slotReaders_iff hframe hindex).mp ho
      exact ⟨n, o, hn, hframe, .inr ⟨hvalue, hother⟩⟩
  · rintro ⟨n, o, hn, hframe, hcase⟩
    by_cases hindex : o.index = .none
    · obtain ⟨hvalue, hother⟩ := hcase.resolve_left (not_not.mpr hindex)
      exact .inr ⟨o, (mem_slotReaders_iff hframe hindex).mpr ⟨n, hn, hother⟩, hframe, hindex, hvalue⟩
    · exact .inl ⟨o, List.mem_of_getElem? hn, hframe, hindex⟩

end Instruction

namespace Code

/-- The position is that of the last instruction which carries the label. -/
def LastLabelled (code : Code) (label : String) (j : Nat) : Prop :=
  (∃ i, code[j]? = some i ∧ i.label = some label) ∧
    ∀ k i, j < k → code[k]? = some i → i.label ≠ some label

/-- The edges of the flow graph. A jump leads to the label that its first operand names, every
instruction but a jump and a return leads to the next one, and a conditional jump to both. -/
inductive Follows (code : Code) : Nat → Nat → Prop where
  | jump {k j : Nat} {i : Instruction} {o : Operand} {rest : List Operand} (hi : code[k]? = some i)
      (hm : i.mnemonic = .jmp ∨ i.mnemonic.isConditionalJump) (hos : i.operands = o :: rest)
      (hkind : o.kind = .symbol) (hj : code.LastLabelled o.symbol j) : Follows code k j
  | next {k : Nat} {i : Instruction} (hi : code[k]? = some i) (hret : i.mnemonic ≠ .ret)
      (hjmp : i.mnemonic ≠ .jmp) (hk : k + 1 < code.length) : Follows code k (k + 1)

/-- An edge along which the word of a slot survives: no move overwrites it without reading it. -/
def Spares (code : Code) (d : Word) (k j : Nat) : Prop :=
  code.Follows k j ∧ ∀ i, code[k]? = some i → i.Overwrites d → i.Reads d

/-- Some path from the position comes to an instruction that reads the slot. -/
def ReadFrom (code : Code) (d : Word) (k : Nat) : Prop :=
  ∃ m i, ReflTransGen (code.Spares d) k m ∧ code[m]? = some i ∧ i.Reads d

/-- A move to a slot that may go: it carries no label, none of its other operands is on the frame,
and no path from a position after it reads the slot. -/
def DeadStore (code : Code) (k : Nat) (i : Instruction) : Prop :=
  ∃ d, i.Overwrites d ∧ i.label = none ∧ (∀ o ∈ i.operands.tail, ¬o.OnFrame) ∧
    ∀ j, code.Follows k j → ¬code.ReadFrom d j

theorem position?_append_singleton (code : Code) (i : Instruction) (label : String) :
    position? (code ++ [i]) label =
      if i.label = some label then some code.length else position? code label := by
  simp [position?, List.zipIdx_append, List.foldl_append]

theorem position?_eq_some_iff {code : Code} {label : String} {j : Nat} :
    code.position? label = some j ↔ code.LastLabelled label j := by
  induction code using List.reverseRecOn with
  | nil => simp [position?, LastLabelled]
  | append_singleton code last ih =>
      rw [position?_append_singleton]
      by_cases hlast : last.label = some label
      · rw [if_pos hlast]
        constructor
        · intro h
          obtain rfl := Option.some.inj h
          refine ⟨⟨last, by simp, hlast⟩, fun k i hk hi => ?_⟩
          have hlt := (List.getElem?_eq_some_iff.mp hi).1
          rw [List.length_append, List.length_singleton] at hlt
          omega
        · rintro ⟨⟨i, hi, -⟩, hafter⟩
          have hlt := (List.getElem?_eq_some_iff.mp hi).1
          rw [List.length_append, List.length_singleton] at hlt
          by_contra hne
          have hj : j < code.length := by
            have : code.length ≠ j := fun heq => hne (congrArg some heq)
            omega
          exact hafter code.length last hj (by simp) hlast
      · rw [if_neg hlast, ih]
        -- the instruction at the end carries another label, so both sides look at the others
        have hsplit : ∀ (k : Nat) (i : Instruction), (code ++ [last])[k]? = some i → i.label = some label →
            code[k]? = some i := by
          intro k i hi hlabel
          by_cases hk : k < code.length
          · rwa [List.getElem?_append_left hk] at hi
          · obtain ⟨hlt, rfl⟩ := List.getElem?_eq_some_iff.mp hi
            rw [List.length_append, List.length_singleton] at hlt
            obtain rfl : k = code.length := by omega
            simp [hlast] at hlabel
        have hjoin : ∀ {k : Nat} {i : Instruction}, code[k]? = some i → (code ++ [last])[k]? = some i := by
          intro k i hi
          rw [List.getElem?_append_left (List.getElem?_eq_some_iff.mp hi).1, hi]
        constructor
        · rintro ⟨⟨i, hi, hlabel⟩, hafter⟩
          exact ⟨⟨i, hjoin hi, hlabel⟩,
            fun k i' hk hi' heq => hafter k i' hk (hsplit k i' hi' heq) heq⟩
        · rintro ⟨⟨i, hi, hlabel⟩, hafter⟩
          exact ⟨⟨i, hsplit j i hi hlabel, hlabel⟩, fun k i' hk hi' => hafter k i' hk (hjoin hi')⟩

theorem target?_eq_some_iff {code : Code} {i : Instruction} {j : Nat} :
    code.target? i = some j ↔
      ∃ o rest, i.operands = o :: rest ∧ o.kind = .symbol ∧ code.LastLabelled o.symbol j := by
  unfold target? Instruction.jumpTarget?
  cases hos : i.operands with
  | nil => simp
  | cons o rest =>
      by_cases hkind : o.kind = .symbol
      · simp [hkind, position?_eq_some_iff]
      · simp [hkind]

/-- The successors that the analysis works with are the edges of the flow graph. -/
theorem mem_successorsOf_iff {code : Code} {k j : Nat} {i : Instruction} (hi : code[k]? = some i) :
    j ∈ code.successorsOf k i ↔ code.Follows k j := by
  have hsame : ∀ {i' : Instruction}, code[k]? = some i' → i' = i := fun hi' => Option.some.inj (hi'.symm.trans hi)
  constructor
  · intro h
    have htarget : (i.mnemonic = .jmp ∨ i.mnemonic.isConditionalJump) → code.target? i = some j →
        code.Follows k j := by
      intro hm hj
      obtain ⟨o, rest, hos, hkind, hlast⟩ := target?_eq_some_iff.mp hj
      exact .jump hi hm hos hkind hlast
    have hnext : i.mnemonic ≠ .ret → i.mnemonic ≠ .jmp →
        (j ∈ if k + 1 < code.length then [k + 1] else []) → code.Follows k j := by
      intro hret hjmp hj
      split at hj
      · rename_i hk
        obtain rfl := List.mem_singleton.mp hj
        exact .next hi hret hjmp hk
      · cases hj
    unfold successorsOf at h
    dsimp only at h
    generalize (if k + 1 < code.length then [k + 1] else []) = next at h hnext
    split_ifs at h with hret hjmp hcond
    · cases h
    · exact htarget (.inl hjmp) (Option.mem_toList.mp h)
    · rcases List.mem_append.mp h with hj | hj
      · exact htarget (.inr hcond) (Option.mem_toList.mp hj)
      · exact hnext hret hjmp hj
    · exact hnext hret hjmp h
  · intro h
    cases h with
    | next hi' hret hjmp hk =>
        rw [hsame hi'] at hret hjmp
        exact succ_mem_successorsOf hk hret hjmp
    | jump hi' hm hos hkind hlast =>
        rw [hsame hi'] at hm hos
        have hj : code.target? i = some j := target?_eq_some_iff.mpr ⟨_, _, hos, hkind, hlast⟩
        unfold successorsOf
        rcases hm with hm | hm
        · simp [hm, hj]
        · have hret : i.mnemonic ≠ .ret := fun heq => by simp [heq, Mnemonic.isConditionalJump] at hm
          have hjmp : i.mnemonic ≠ .jmp := fun heq => by simp [heq, Mnemonic.isConditionalJump] at hm
          simp [hret, hjmp, hm, hj]

end Code

namespace Flow

variable {flow : Flow} {slot : Word} {P : Nat → Prop}

/-- A property of positions that holds of everything live by what has the property. -/
def Inductive (flow : Flow) (slot : Word) (P : Nat → Prop) : Prop :=
  ∀ live k node, (∀ j, live.getD j false = true → P j) → flow[k]? = some node →
    liveAt slot live node = true → P k

/-- A sweep finds nothing without the property. -/
theorem Inductive.sweep (h : Inductive flow slot P) {live : Array Bool}
    (hlive : ∀ j, live.getD j false = true → P j) (n : Nat) :
    ∀ j, (Flow.sweep flow slot n live).getD j false = true → P j := by
  induction n generalizing live with
  | zero => exact hlive
  | succ n ih =>
      cases hn : flow[n]? with
      | none => simpa only [Flow.sweep, hn] using ih hlive
      | some node =>
          simp only [Flow.sweep, hn]
          apply ih
          intro j hj
          rw [getD_setIfInBounds] at hj
          split at hj
          · rename_i hnj
            rw [← hnj.1]
            exact h live n node hlive hn hj
          · exact hlive j hj

theorem Inductive.settle (h : Inductive flow slot P) {live : Array Bool}
    (hlive : ∀ j, live.getD j false = true → P j) (rounds : Nat) :
    ∀ j, (Flow.settle flow slot rounds live).getD j false = true → P j := by
  induction rounds generalizing live with
  | zero => exact hlive
  | succ rounds ih =>
      rw [Flow.settle]
      split
      · exact hlive
      · exact ih (h.sweep hlive flow.size)

/-- The live positions are the least that are closed under the flow of control. -/
theorem Inductive.of_live (h : Inductive flow slot P) {k : Nat}
    (hk : (flow.live slot).getD k false = true) : P k := by
  refine h.settle ?_ (flow.size + 1) k hk
  intro j hj
  rw [Array.getD_eq_getD_getElem?, Array.getElem?_replicate] at hj
  split at hj <;> simp at hj

end Flow

namespace Code

variable {code : Code} {d : Word} {k : Nat}

/-- Some path reads the slot if the instruction does, or if it spares the slot and some path from
a position after it reads it. -/
theorem readFrom_of_liveAt {live : Array Bool} (hlive : ∀ j, live.getD j false = true → code.ReadFrom d j)
    {node : FlowNode} (hnode : code.flow[k]? = some node) (h : Flow.liveAt d live node = true) :
    code.ReadFrom d k := by
  rw [flow_getElem?] at hnode
  obtain ⟨i, hi, rfl⟩ := Option.map_eq_some_iff.mp hnode
  simp only [Flow.liveAt, nodeAt, Flow.liveAfter, Bool.or_eq_true, Bool.and_eq_true, bne_iff_ne,
    List.any_eq_true, Instruction.readsSlot_iff] at h
  rcases h with hreads | ⟨hkept, j, hj, hjlive⟩
  · exact ⟨k, i, .refl, hi, hreads⟩
  · obtain ⟨m, last, hpath, hlast, hreads⟩ := hlive j hjlive
    refine ⟨m, last, .head ⟨(mem_successorsOf_iff hi).mp hj, ?_⟩ hpath, hlast, hreads⟩
    intro i' hi' hwrites
    obtain rfl := Option.some.inj (hi.symm.trans hi')
    exact absurd (Instruction.slotWritten?_eq_some_iff.mpr hwrites) hkept

/-- The analysis finds a slot live exactly where some path reads it. -/
theorem liveBefore_iff_readFrom : code.LiveBefore k d ↔ code.ReadFrom d k := by
  constructor
  · intro h
    have hinductive : Flow.Inductive code.flow d (code.ReadFrom d) :=
      fun _ _ _ hlive hnode hnext => readFrom_of_liveAt hlive hnode hnext
    exact hinductive.of_live h
  · rintro ⟨m, i, hpath, hi, hreads⟩
    have hnode : ∀ {k : Nat} {i : Instruction}, code[k]? = some i → code.flow[k]? = some (code.nodeAt k i) := by
      intro k i hi
      rw [flow_getElem?, hi]
      rfl
    have hlast : code.LiveBefore m d := by
      refine Flow.live_closed (hnode hi) ?_
      simp only [Flow.liveAt, nodeAt, Bool.or_eq_true]
      exact .inl (Instruction.readsSlot_iff.mpr hreads)
    -- backwards along the path, from its end
    induction hpath using ReflTransGen.head_induction_on with
    | refl => exact hlast
    | @head k j hedge _ ih =>
        obtain ⟨hfollows, hspares⟩ := hedge
        obtain ⟨i', hi'⟩ : ∃ i', code[k]? = some i' := by
          cases hfollows with
          | jump hi' => exact ⟨_, hi'⟩
          | next hi' => exact ⟨_, hi'⟩
        rcases liveBefore_of_successor hi' ((mem_successorsOf_iff hi').mpr hfollows) ih with
          hbefore | hwritten
        · exact hbefore
        · have hreads' := hspares i' hi' (Instruction.slotWritten?_eq_some_iff.mp hwritten)
          refine Flow.live_closed (hnode hi') ?_
          simp only [Flow.liveAt, nodeAt, Bool.or_eq_true]
          exact .inl (Instruction.readsSlot_iff.mpr hreads')

/-- No operand but the destination is on the frame. -/
theorem tail_offFrame_iff {i : Instruction} (h : i.Overwrites d) :
    (i.readsAllSlots = false ∧ i.slotsRead = []) ↔ ∀ o ∈ i.operands.tail, ¬o.OnFrame := by
  have hreaders : i.slotReaders = i.operands.tail := by
    rw [Instruction.slotReaders, Instruction.slotWritten?_eq_some_iff.mpr h]
  obtain ⟨-, first, rest, hos, -, hplain, -⟩ := h
  rw [← Bool.not_eq_true, Instruction.readsAllSlots_iff, List.eq_nil_iff_forall_not_mem]
  simp only [Instruction.mem_slotsRead_iff, hreaders]
  constructor
  · rintro ⟨hall, hread⟩ o ho hframe
    by_cases hindex : o.index = .none
    · exact hread o.value ⟨o, ho, hframe, hindex, rfl⟩
    · exact hall ⟨o, List.mem_of_mem_tail ho, hframe, hindex⟩
  · intro htail
    constructor
    · rintro ⟨o, ho, hframe, hindex⟩
      rw [hos] at ho htail
      rcases List.mem_cons.mp ho with rfl | ho
      · exact hindex hplain
      · exact htail o ho hframe
    · rintro d' ⟨o, ho, hframe, -⟩
      exact htail o ho hframe

theorem keepsStore_eq_false_iff {i : Instruction} (hi : code[k]? = some i) :
    keepsStore code k = false ↔ code.DeadStore k i := by
  unfold keepsStore
  simp only [hi, isDeadStore, nodeAt]
  cases hslot : i.slotWritten? with
  | none =>
      simp only [Bool.not_false, Bool.true_eq_false, false_iff]
      rintro ⟨d, hwrites, -⟩
      rw [Instruction.slotWritten?_eq_some_iff.mpr hwrites] at hslot
      cases hslot
  | some d =>
      have hwrites := Instruction.slotWritten?_eq_some_iff.mp hslot
      have hlookup : code.liveness.lookup d = some (code.flow.live d) := by
        refine lookup_map_key _ ?_
        rw [slotsWritten, List.mem_eraseDups, List.mem_filterMap]
        exact ⟨i, List.mem_of_getElem? hi, hslot⟩
      have hafter : Flow.liveAfter (code.flow.live d) (code.nodeAt k i) = false ↔
          ∀ j, code.Follows k j → ¬code.ReadFrom d j := by
        rw [Flow.liveAfter, List.any_eq_false]
        refine forall_congr' fun j => ?_
        rw [← liveBefore_iff_readFrom, ← mem_successorsOf_iff hi]
        exact Iff.rfl
      simp only [hlookup, Option.getD_some, Bool.not_eq_false', Bool.and_eq_true,
        Bool.not_eq_true', Option.isNone_iff_eq_none, List.isEmpty_iff]
      rw [nodeAt] at hafter
      rw [hafter]
      constructor
      · rintro ⟨⟨⟨hlabel, hall⟩, hread⟩, hdead⟩
        exact ⟨d, hwrites, hlabel, (tail_offFrame_iff hwrites).mp ⟨hall, hread⟩, hdead⟩
      · rintro ⟨d', hwrites', hlabel, htail, hdead⟩
        obtain rfl := hwrites.slot_eq hwrites'
        obtain ⟨hall, hread⟩ := (tail_offFrame_iff hwrites).mpr htail
        exact ⟨⟨⟨hlabel, hall⟩, hread⟩, hdead⟩

/-- Where no slot that is stored to is read, all stores go. -/
theorem removeDeadStores_eq_filter
    (h : ∀ i ∈ code, ∀ d, i.Overwrites d →
      i.label = none ∧ (∀ o ∈ i.operands.tail, ¬o.OnFrame) ∧ ∀ j ∈ code, ¬j.Reads d) :
    code.removeDeadStores = code.filter (·.slotWritten?.isNone) := by
  rw [removeDeadStores_eq_thin]
  refine thin_eq_filter fun k i hi => ?_
  cases hwritten : i.slotWritten? with
  | none =>
      by_contra hkeep
      obtain ⟨d, hd, -⟩ := (keepsStore_eq_false_iff hi).mp (by simpa using hkeep)
      cases hwritten.symm.trans (Instruction.slotWritten?_eq_some_iff.mpr hd)
  | some d =>
      have hd := Instruction.slotWritten?_eq_some_iff.mp hwritten
      obtain ⟨hlabel, htail, hunread⟩ := h i (List.mem_of_getElem? hi) d hd
      refine (keepsStore_eq_false_iff hi).mpr ⟨d, hd, hlabel, htail, ?_⟩
      rintro j - ⟨m, i', -, hi', hreads⟩
      exact hunread i' (List.mem_of_getElem? hi') hreads

/-- Exactly the dead stores are removed, from any code. The rounds of the analysis end: another
one would find nothing more. -/
theorem removeDeadStores_removes_exactly (code : Code) :
    (∀ d, Flow.sweep code.flow d code.flow.size (code.flow.live d) = code.flow.live d) ∧
    ∃ keep : Nat → Bool, code.removeDeadStores = code.thin keep ∧
      ∀ k i, code[k]? = some i → (keep k = false ↔ code.DeadStore k i) :=
  ⟨fun d => (Flow.justified_live code.flow d).2, keepsStore code, removeDeadStores_eq_thin code,
    fun _ _ hi => keepsStore_eq_false_iff hi⟩

-- Only the jump back leads to the read of the first slot, and nothing reads the second.
example :
    let head : Code := [.labelled "loop_0" 1, .make .mov [.ofReg .rax, .frameSlot (-8)] 1,
      .make .mov [.frameSlot (-8), .ofReg .rbx] 1]
    let tail : Code := [.make .jmp [.sym "loop_0"] 1]
    removeDeadStores (head ++ .make .mov [.frameSlot (-16), .ofReg .rbx] 1 :: tail) =
      head ++ tail := by decide

end Code

end Arbor
