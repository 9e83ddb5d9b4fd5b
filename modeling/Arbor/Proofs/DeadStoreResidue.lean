import Mathlib.Tactic
import Arbor.Proofs.DeadStores

/-!
What the removal of dead stores leaves. A dead store reads nothing, leads only to the position
after it, and no path from there reads its slot; so when it goes, the paths of the flow graph
close up around it and read the slots they read before. Whichever dead stores go, those that
stay are dead as before, and no other store becomes dead. One run therefore finds them all.
-/

namespace Arbor

open Relation

namespace Code

/-- All that goes is dead stores, perhaps not all of them. -/
def DropsDead (code : Code) (keep : Nat → Bool) : Prop :=
  ∀ k i, code[k]? = some i → keep k = false → code.DeadStore k i

section Paths

variable {code : Code} {d : Word} {k j : Nat} {i : Instruction}

theorem ReadFrom.lt_length (h : code.ReadFrom d k) : k < code.length :=
  lt_length_of_liveBefore (liveBefore_iff_readFrom.mpr h)

theorem ReadFrom.of_reads (hi : code[k]? = some i) (h : i.Reads d) : code.ReadFrom d k :=
  ⟨k, i, .refl, hi, h⟩

theorem ReadFrom.of_spares (hedge : code.Spares d k j) (h : code.ReadFrom d j) :
    code.ReadFrom d k := by
  obtain ⟨m, i, hpath, hi, hreads⟩ := h
  exact ⟨m, i, .head hedge hpath, hi, hreads⟩

theorem spares_iff (hi : code[k]? = some i) :
    code.Spares d k j ↔ code.Follows k j ∧ (i.Overwrites d → i.Reads d) := by
  simp [Spares, hi]

/-- What holds where the slot is read, and holds before an edge that spares the slot when it holds
after it, holds wherever some path comes to a read. -/
theorem ReadFrom.induction {P : Nat → Prop} (hreads : ∀ k i, code[k]? = some i → i.Reads d → P k)
    (hspares : ∀ k j, code.Spares d k j → code.ReadFrom d j → P j → P k) (h : code.ReadFrom d k) :
    P k := by
  obtain ⟨m, i, hpath, hi, hread⟩ := h
  induction hpath using ReflTransGen.head_induction_on with
  | refl => exact hreads m i hi hread
  | head hedge hrest ih => exact hspares _ _ hedge ⟨m, i, hrest, hi, hread⟩ ih

/-- A move leads to the position after it only. -/
theorem follows_mov_iff (hi : code[k]? = some i) (hm : i.mnemonic = .mov) :
    code.Follows k j ↔ j = k + 1 ∧ k + 1 < code.length := by
  constructor
  · intro h
    cases h with
    | next _ _ _ hk => exact ⟨rfl, hk⟩
    | jump hi' hm' =>
        cases hi.symm.trans hi'
        simp [hm, Mnemonic.isConditionalJump] at hm'
  · rintro ⟨rfl, hk⟩
    exact .next hi (by simp [hm]) (by simp [hm]) hk

/-- A store is dead if nothing from the position after it on reads its slot. -/
theorem deadStore_iff (hi : code[k]? = some i) :
    code.DeadStore k i ↔ ∃ d, i.Overwrites d ∧ i.label = none ∧
      (∀ o ∈ i.operands.tail, ¬o.OnFrame) ∧ ¬code.ReadFrom d (k + 1) := by
  refine exists_congr fun d => and_congr_right fun hwrites => and_congr_right fun _ =>
    and_congr_right fun _ => ?_
  simp only [follows_mov_iff hi hwrites.1]
  constructor
  · intro hdead hread
    exact hdead (k + 1) ⟨rfl, hread.lt_length⟩ hread
  · rintro hdead j ⟨rfl, -⟩
    exact hdead

namespace DeadStore

theorem mnemonic_eq (h : code.DeadStore k i) : i.mnemonic = .mov := by
  obtain ⟨d, hwrites, -⟩ := h
  exact hwrites.1

theorem label_eq (h : code.DeadStore k i) : i.label = none := by
  obtain ⟨d, -, hlabel, -⟩ := h
  exact hlabel

theorem not_reads (h : code.DeadStore k i) : ¬i.Reads d := by
  obtain ⟨d', hwrites, -, htail, -⟩ := h
  obtain ⟨hall, hnone⟩ := (tail_offFrame_iff hwrites).mpr htail
  rw [← Instruction.readsSlot_iff, Instruction.readsSlot, hall, hnone]
  simp

/-- What is read after a dead store is read before it, since it is not the slot of the store. -/
theorem readFrom (h : code.DeadStore k i) (hi : code[k]? = some i)
    (hread : code.ReadFrom d (k + 1)) : code.ReadFrom d k := by
  have hfollows : code.Follows k (k + 1) :=
    (follows_mov_iff hi h.mnemonic_eq).mpr ⟨rfl, hread.lt_length⟩
  refine hread.of_spares ((spares_iff hi).mpr ⟨hfollows, fun hwrites => ?_⟩)
  obtain ⟨d', hwrites', -, -, hdead⟩ := h
  rw [hwrites.slot_eq hwrites'] at hread
  exact absurd hread (hdead (k + 1) hfollows)

end DeadStore

end Paths

namespace DropsDead

variable {code : Code} {keep : Nat → Bool} {d : Word} {k j m : Nat} {i : Instruction}

theorem keeps_label (h : code.DropsDead keep) (hi : code[k]? = some i) {label : String}
    (hlabel : i.label = some label) : keep k = true := by
  by_contra hgone
  have hnone := (h k i hi (by simpa using hgone)).label_eq
  rw [hlabel] at hnone
  cases hnone

theorem keeps_reader (h : code.DropsDead keep) (hi : code[k]? = some i) (hreads : i.Reads d) :
    keep k = true := by
  by_contra hgone
  exact (h k i hi (by simpa using hgone)).not_reads hreads

/-- A label that stands last still does, at the new place of its position. -/
theorem lastLabelled_thin (h : code.DropsDead keep) {label : String}
    (hlast : code.LastLabelled label j) : (code.thin keep).LastLabelled label (rank keep j) := by
  obtain ⟨⟨i, hi, hlabel⟩, hafter⟩ := hlast
  have hkeep := h.keeps_label hi hlabel
  refine ⟨⟨i, (thin_getElem? hkeep code).trans hi, hlabel⟩, ?_⟩
  intro m i' hm hi'
  obtain ⟨k, -, rfl, hk⟩ := exists_of_thin_getElem? hi'
  refine hafter k i' ?_ hk
  by_contra hge
  have hle : rank keep k ≤ rank keep j := rank_mono (Nat.le_of_not_lt hge)
  omega

/-- A label that stands last in what is left stood last before. -/
theorem exists_lastLabelled (h : code.DropsDead keep) {label : String}
    (hlast : (code.thin keep).LastLabelled label m) :
    ∃ j, rank keep j = m ∧ code.LastLabelled label j := by
  obtain ⟨⟨i, hi, hlabel⟩, hafter⟩ := hlast
  obtain ⟨j, hkeep, rfl, hj⟩ := exists_of_thin_getElem? hi
  refine ⟨j, rfl, ⟨i, hj, hlabel⟩, ?_⟩
  intro k i' hk hi' hlabel'
  have hkept := h.keeps_label hi' hlabel'
  have hlt : rank keep j < rank keep k := Nat.count_strict_mono hkeep hk
  exact hafter (rank keep k) i' hlt ((thin_getElem? hkept code).trans hi') hlabel'

/-- The edges from an instruction that stays lead where they led, unless they lead past the end. -/
theorem follows_thin (h : code.DropsDead keep) (hkeep : keep k = true)
    (hlt : rank keep j < (code.thin keep).length) (hfollows : code.Follows k j) :
    (code.thin keep).Follows (rank keep k) (rank keep j) := by
  cases hfollows with
  | jump hi hm hos hkind hlast =>
      exact .jump ((thin_getElem? hkeep code).trans hi) hm hos hkind (h.lastLabelled_thin hlast)
  | next hi hret hjmp _ =>
      rw [rank_succ_of_kept hkeep] at hlt ⊢
      exact .next ((thin_getElem? hkeep code).trans hi) hret hjmp hlt

/-- The edges of what is left lead to where some edge led before. -/
theorem exists_follows (h : code.DropsDead keep) (hkeep : keep k = true)
    (hfollows : (code.thin keep).Follows (rank keep k) m) :
    ∃ j, rank keep j = m ∧ (j < code.length → code.Follows k j) := by
  cases hfollows with
  | jump hi hm hos hkind hlast =>
      obtain ⟨j, hj, hlast'⟩ := h.exists_lastLabelled hlast
      rw [thin_getElem? hkeep] at hi
      exact ⟨j, hj, fun _ => .jump hi hm hos hkind hlast'⟩
  | next hi hret hjmp _ =>
      rw [thin_getElem? hkeep] at hi
      exact ⟨k + 1, rank_succ_of_kept hkeep, fun hlt => .next hi hret hjmp hlt⟩

/-- The reads that paths come to are still there when dead stores have gone. -/
theorem readFrom_thin (h : code.DropsDead keep) (hread : code.ReadFrom d k) :
    (code.thin keep).ReadFrom d (rank keep k) := by
  refine hread.induction (P := fun k => (code.thin keep).ReadFrom d (rank keep k)) ?_ ?_
  · intro k i hi hreads
    exact .of_reads ((thin_getElem? (h.keeps_reader hi hreads) code).trans hi) hreads
  · intro k j hedge hlater ih
    obtain ⟨hfollows, hspares⟩ := hedge
    cases hkeep : keep k with
    | true =>
        refine ih.of_spares ⟨h.follows_thin hkeep ih.lt_length hfollows, ?_⟩
        rwa [thin_getElem? hkeep]
    | false =>
        -- a store that has gone led to the next position, which is now in its place
        obtain ⟨i, hi⟩ : ∃ i, code[k]? = some i := by
          cases hfollows with
          | jump hi => exact ⟨_, hi⟩
          | next hi => exact ⟨_, hi⟩
        obtain ⟨rfl, -⟩ := (follows_mov_iff hi (h k i hi hkeep).mnemonic_eq).mp hfollows
        rwa [rank_succ_of_gone hkeep] at ih

/-- A position that has gone is read from if the position that took its place is. The induction
is on the distance to the end of the code. -/
theorem readFrom_of_kept (h : code.DropsDead keep) (hm : m < (code.thin keep).length)
    (hkept : ∀ p, keep p = true → rank keep p = m → code.ReadFrom d p) {k : Nat}
    (hk : rank keep k = m) : code.ReadFrom d k := by
  have hlt : k < code.length := by
    by_contra hge
    have hle : rank keep code.length ≤ rank keep k := rank_mono (Nat.le_of_not_lt hge)
    rw [thin_length] at hm
    omega
  cases hkeep : keep k with
  | true => exact hkept k hkeep hk
  | false =>
      have hi : code[k]? = some code[k] := List.getElem?_eq_getElem hlt
      have hnext : code.ReadFrom d (k + 1) :=
        readFrom_of_kept h hm hkept (k := k + 1) (by rw [rank_succ_of_gone hkeep, hk])
      exact (h k _ hi hkeep).readFrom hi hnext
termination_by code.length - k

/-- No path comes to a read that it did not come to before. -/
theorem readFrom_of_thin (h : code.DropsDead keep)
    (hread : (code.thin keep).ReadFrom d (rank keep k)) : code.ReadFrom d k := by
  have hall : ∀ k', rank keep k' = rank keep k → code.ReadFrom d k' := by
    refine hread.induction (P := fun m => ∀ k', rank keep k' = m → code.ReadFrom d k') ?_ ?_
    · intro m i hi hreads k' hk'
      refine h.readFrom_of_kept (List.getElem?_eq_some_iff.mp hi).1 ?_ hk'
      rintro p hp rfl
      rw [thin_getElem? hp] at hi
      exact .of_reads hi hreads
    · intro m m' hedge hlater ih k' hk'
      have hm : (code.thin keep).ReadFrom d m := hlater.of_spares hedge
      refine h.readFrom_of_kept hm.lt_length ?_ hk'
      rintro p hp rfl
      obtain ⟨hfollows, hspares⟩ := hedge
      obtain ⟨j, hj, hfollows'⟩ := h.exists_follows hp hfollows
      have hnext := ih j hj
      rw [thin_getElem? hp] at hspares
      exact hnext.of_spares ⟨hfollows' hnext.lt_length, hspares⟩
  exact hall k rfl

/-- Dead stores that go leave the liveness of every slot as it was. -/
theorem readFrom_iff (h : code.DropsDead keep) :
    (code.thin keep).ReadFrom d (rank keep k) ↔ code.ReadFrom d k :=
  ⟨h.readFrom_of_thin, h.readFrom_thin⟩

/-- A store that stays is dead afterwards if and only if it was dead before. -/
theorem deadStore_iff (h : code.DropsDead keep) (hi : code[k]? = some i) (hkeep : keep k = true) :
    (code.thin keep).DeadStore (rank keep k) i ↔ code.DeadStore k i := by
  rw [Code.deadStore_iff hi, Code.deadStore_iff ((thin_getElem? hkeep code).trans hi),
    ← rank_succ_of_kept hkeep]
  simp only [h.readFrom_iff]

/-- Whichever dead stores have gone already, a run leaves the same code. -/
theorem removeDeadStores_thin (h : code.DropsDead keep) :
    removeDeadStores (code.thin keep) = removeDeadStores code := by
  rw [removeDeadStores_eq_thin, removeDeadStores_eq_thin, thin_thin]
  refine thin_congr fun k hk => ?_
  have hi : code[k]? = some code[k] := List.getElem?_eq_getElem hk
  cases hkeep : keep k with
  | false => rw [Bool.false_and, (keepsStore_eq_false_iff hi).mpr (h k _ hi hkeep)]
  | true =>
      rw [Bool.true_and, Bool.eq_iff_iff, ← not_iff_not, Bool.not_eq_true, Bool.not_eq_true,
        keepsStore_eq_false_iff ((thin_getElem? hkeep code).trans hi), keepsStore_eq_false_iff hi]
      exact h.deadStore_iff hi hkeep

end DropsDead

theorem dropsDead_keepsStore (code : Code) : code.DropsDead (keepsStore code) :=
  fun _ _ hi hgone => (keepsStore_eq_false_iff hi).mp hgone

/-- One run removes all dead stores of any code: what it leaves has none, so another run changes
nothing. It does not matter which of them go first. The stores that stay when some dead
stores go are dead exactly if they were, and what a run then leaves is the same. -/
theorem removeDeadStores_complete (code : Code) :
    removeDeadStores (removeDeadStores code) = removeDeadStores code ∧
    (∀ k i, (removeDeadStores code)[k]? = some i → ¬(removeDeadStores code).DeadStore k i) ∧
    ∀ keep : Nat → Bool, (∀ k i, code[k]? = some i → keep k = false → code.DeadStore k i) →
      (∀ k i, code[k]? = some i → keep k = true →
        ((code.thin keep).DeadStore (rank keep k) i ↔ code.DeadStore k i)) ∧
      removeDeadStores (code.thin keep) = removeDeadStores code := by
  have hdrops := dropsDead_keepsStore code
  refine ⟨?_, ?_, fun keep h => ⟨fun k i hi hkeep => ?_, ?_⟩⟩
  · rw [removeDeadStores_eq_thin code, hdrops.removeDeadStores_thin, removeDeadStores_eq_thin code]
  · intro m i hi hdead
    rw [removeDeadStores_eq_thin code] at hi hdead
    obtain ⟨k, hkeep, rfl, hk⟩ := exists_of_thin_getElem? hi
    rw [hdrops.deadStore_iff hk hkeep, ← keepsStore_eq_false_iff hk, hkeep] at hdead
    cases hdead
  · exact DropsDead.deadStore_iff h hi hkeep
  · exact DropsDead.removeDeadStores_thin h

/-- Three dead stores, two of them in a row, among a label that occurs twice and a jump to one that
does not occur. -/
def relay : Code := [
  .make .mov [.frameSlot (-8), .ofReg .rax] 1,
  .make .mov [.frameSlot (-8), .ofReg .rbx] 1,
  .make .mov [.frameSlot (-8), .ofReg .rcx] 1,
  .labelled "top" 2,
  .make .mov [.ofReg .rax, .frameSlot (-8)] 2,
  .make .mov [.frameSlot (-16), .ofReg .rax] 3,
  .make .jz [.sym "nowhere"] 3,
  .make .jmp [.sym "top"] 4,
  .labelled "top" 5,
  .make .ret [] 5]

/-- Without the second of its stores the first is still dead, and the third is still needed. -/
theorem relay_complete :
    removeDeadStores relay = relay.thin (fun k => k ∉ [0, 1, 5]) ∧
    removeDeadStores (removeDeadStores relay) = removeDeadStores relay ∧
    removeDeadStores (relay.thin (· != 1)) = removeDeadStores relay ∧
    (relay.thin (· != 1)).DeadStore 0 (.make .mov [.frameSlot (-8), .ofReg .rax] 1) ∧
    ¬(relay.thin (· != 1)).DeadStore 1 (.make .mov [.frameSlot (-8), .ofReg .rcx] 1) := by
  obtain ⟨hagain, -, hsome⟩ := removeDeadStores_complete relay
  have hdead : ∀ k i, relay[k]? = some i → (k != 1) = false → relay.DeadStore k i := by
    intro k i hi hk
    obtain rfl : k = 1 := by simpa using hk
    exact (keepsStore_eq_false_iff hi).mp (by decide)
  obtain ⟨hiff, hsame⟩ := hsome (· != 1) hdead
  refine ⟨by decide, hagain, hsame, (hiff 0 _ rfl rfl).mpr ?_, fun h => ?_⟩
  · exact (keepsStore_eq_false_iff rfl).mp (by decide)
  · exact absurd ((keepsStore_eq_false_iff rfl).mpr ((hiff 2 _ rfl rfl).mp h)) (by decide)

end Code

end Arbor
