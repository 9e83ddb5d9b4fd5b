import Mathlib.Tactic
import Arbor.Proofs.Thinning

/-!
The liveness analysis ends with a set that is closed under the flow of control. Every
sweep only adds positions, because a position is live in what the sweeps before it have
found; a round that adds nothing has checked every position. So a store that is removed is
followed by no path that reads its slot.
-/

namespace Arbor

namespace Flow

variable {flow : Flow} {slot : Word} {live live' : Array Bool} {node : FlowNode}

/-- Everything found live is live by what has been found. -/
structure Justified (flow : Flow) (slot : Word) (live : Array Bool) : Prop where
  size_eq : live.size = flow.size
  liveAt : ∀ k node, flow[k]? = some node → live.getD k false = true →
    liveAt slot live node = true

/-- Whatever has been found is still there. -/
def Grows (live live' : Array Bool) : Prop :=
  ∀ k, live.getD k false = true → live'.getD k false = true

theorem liveAt_mono (h : Grows live live') (hlive : liveAt slot live node = true) :
    liveAt slot live' node = true := by
  simp only [liveAt, liveAfter, Bool.or_eq_true, Bool.and_eq_true, List.any_eq_true] at hlive ⊢
  rcases hlive with hreads | ⟨hkept, k, hk, hafter⟩
  · exact .inl hreads
  · exact .inr ⟨hkept, k, hk, h k hafter⟩

theorem getD_setIfInBounds {n k : Nat} {b : Bool} :
    (live.setIfInBounds n b).getD k false =
      if n = k ∧ n < live.size then b else live.getD k false := by
  simp only [Array.getD_eq_getD_getElem?, Array.getElem?_setIfInBounds]
  by_cases hnk : n = k
  · subst hnk
    by_cases hlt : n < live.size
    · simp [hlt]
    · simp [hlt]
  · simp [hnk]

theorem Justified.grows_set (h : Justified flow slot live) {n : Nat} (hn : flow[n]? = some node) :
    Grows live (live.setIfInBounds n (Flow.liveAt slot live node)) := by
  intro k hk
  rw [getD_setIfInBounds]
  split
  · rename_i hnk
    obtain ⟨rfl, -⟩ := hnk
    exact h.liveAt n node hn hk
  · exact hk

theorem Justified.set (h : Justified flow slot live) {n : Nat} (hn : flow[n]? = some node) :
    Justified flow slot (live.setIfInBounds n (Flow.liveAt slot live node)) where
  size_eq := by rw [Array.size_setIfInBounds, h.size_eq]
  liveAt := by
    intro k other hother hk
    apply liveAt_mono (h.grows_set hn)
    rw [getD_setIfInBounds] at hk
    split at hk
    · rename_i hnk
      obtain ⟨rfl, -⟩ := hnk
      obtain rfl := Option.some.inj (hn.symm.trans hother)
      exact hk
    · exact h.liveAt k other hother hk

theorem Justified.sweep (h : Justified flow slot live) (n : Nat) :
    Justified flow slot (sweep flow slot n live) ∧ Grows live (sweep flow slot n live) := by
  induction n generalizing live with
  | zero => exact ⟨h, fun _ hk => hk⟩
  | succ n ih =>
      cases hn : flow[n]? with
      | none => simpa only [Flow.sweep, hn] using ih h
      | some node =>
          simp only [Flow.sweep, hn]
          obtain ⟨hnext, hgrows⟩ := ih (h.set hn)
          exact ⟨hnext, fun k hk => hgrows k (h.grows_set hn k hk)⟩

/-- A sweep finds every position that is live by what was found before it. -/
theorem Justified.sweep_finds (h : Justified flow slot live) {n k : Nat} (hk : k < n)
    (hnode : flow[k]? = some node) (hlive : Flow.liveAt slot live node = true) :
    (Flow.sweep flow slot n live).getD k false = true := by
  induction n generalizing live with
  | zero => omega
  | succ n ih =>
      cases hn : flow[n]? with
      | none =>
          simp only [Flow.sweep, hn]
          have hne : k ≠ n := by
            rintro rfl
            rw [hn] at hnode
            cases hnode
          exact ih h (by omega) hlive
      | some other =>
          simp only [Flow.sweep, hn]
          by_cases hkn : k = n
          · subst hkn
            obtain rfl := Option.some.inj (hn.symm.trans hnode)
            have hlt : k < live.size := by
              rw [h.size_eq]
              exact (Array.getElem?_eq_some_iff.mp hn).1
            apply ((h.set hn).sweep k).2
            rw [getD_setIfInBounds, if_pos ⟨rfl, hlt⟩, hlive]
          · exact ih (h.set hn) (by omega) (liveAt_mono (h.grows_set hn) hlive)

/-- How many positions have been found live. -/
def found (live : Array Bool) : Nat := live.toList.count true

theorem count_lt_count {l l' : List Bool} (hlength : l.length = l'.length)
    (hgrows : ∀ k : Nat, l[k]?.getD false = true → l'[k]?.getD false = true) (hne : l ≠ l') :
    l.count true < l'.count true := by
  induction l generalizing l' with
  | nil =>
      have : l' = [] := List.length_eq_zero_iff.mp hlength.symm
      exact absurd this.symm hne
  | cons a rest ih =>
      cases l' with
      | nil => simp at hlength
      | cons b rest' =>
          have hlengths : rest.length = rest'.length := by simpa using hlength
          have hrest : ∀ k : Nat, rest[k]?.getD false = true → rest'[k]?.getD false = true :=
            fun k hk => hgrows (k + 1) hk
          have hhead : a = true → b = true := by simpa using hgrows 0
          rw [List.count_cons, List.count_cons]
          by_cases heq : rest = rest'
          · subst heq
            have hab : a = false ∧ b = true := by
              cases a <;> cases b <;> simp_all
            simp [hab.1, hab.2]
          · have hlt := ih hlengths hrest heq
            have hle : (if a == true then 1 else 0) ≤ if b == true then 1 else 0 := by
              cases a <;> cases b <;> simp_all
            omega

theorem found_lt (hsize : live.size = live'.size) (hgrows : Grows live live') (hne : live ≠ live') :
    found live < found live' := by
  apply count_lt_count
  · simpa using hsize
  · intro k hk
    have := hgrows k
    simp only [Array.getD_eq_getD_getElem?] at this
    simpa using this (by simpa using hk)
  · intro heq
    exact hne (Array.toList_inj.mp heq)

/-- The rounds suffice: settling ends with a set that another sweep leaves as it is. -/
theorem Justified.settle (h : Justified flow slot live) {rounds : Nat}
    (hrounds : flow.size < rounds + found live) :
    Justified flow slot (Flow.settle flow slot rounds live) ∧
      Flow.sweep flow slot flow.size (Flow.settle flow slot rounds live) =
        Flow.settle flow slot rounds live := by
  induction rounds generalizing live with
  | zero =>
      have hle : found live ≤ flow.size := by
        rw [← h.size_eq]
        exact List.count_le_length
      omega
  | succ rounds ih =>
      obtain ⟨hnext, hgrows⟩ := h.sweep flow.size
      rw [Flow.settle]
      by_cases hfix : Flow.sweep flow slot flow.size live = live
      · simp only [hfix, if_true]
        exact ⟨h, trivial⟩
      · simp only [if_neg hfix]
        have hlt := found_lt (h.size_eq.trans hnext.size_eq.symm) hgrows (Ne.symm hfix)
        exact ih hnext (by omega)

theorem justified_live (flow : Flow) (slot : Word) :
    Justified flow slot (flow.live slot) ∧
      sweep flow slot flow.size (flow.live slot) = flow.live slot := by
  apply Justified.settle
  · refine ⟨by simp, fun k node _ hk => ?_⟩
    rw [Array.getD_eq_getD_getElem?, Array.getElem?_replicate] at hk
    split at hk <;> simp at hk
  · omega

/-- The live positions are closed: what is live by them is among them. -/
theorem live_closed {k : Nat} (hnode : flow[k]? = some node)
    (h : Flow.liveAt slot (flow.live slot) node = true) :
    (flow.live slot).getD k false = true := by
  obtain ⟨hjustified, hfix⟩ := justified_live flow slot
  have hlt : k < flow.size := (Array.getElem?_eq_some_iff.mp hnode).1
  have hfinds := hjustified.sweep_finds hlt hnode h
  rwa [hfix] at hfinds

end Flow

namespace Code

/-- Whether a slot is live before a position of the code. -/
def LiveBefore (code : Code) (k : Nat) (slot : Word) : Prop :=
  (code.flow.live slot).getD k false = true

/-- Which slots may still be read, closed under the flow of control. -/
structure LiveClosed (code : Code) (live : Nat → Word → Prop) : Prop where
  reads : ∀ k i d, code[k]? = some i → d ∈ i.slotsRead → live k d
  next : ∀ k i d, code[k]? = some i → i.mnemonic ≠ .ret → i.mnemonic ≠ .jmp → live (k + 1) d →
    live k d ∨ i.slotWritten? = some d
  jump : ∀ k i label j target d, code[k]? = some i →
    (i.mnemonic = .jmp ∨ i.mnemonic.isConditionalJump) → i.operands = [.sym label] →
    code[j]? = some target → target.label = some label → live j d → live k d

theorem flow_getElem? (code : Code) (k : Nat) :
    code.flow[k]? = code[k]?.map fun i => code.nodeAt k i := by
  simp only [flow, List.getElem?_toArray, List.getElem?_map, List.getElem?_zipIdx]
  cases code[k]? with
  | none => rfl
  | some i => simp [nodeAt]

theorem lt_length_of_liveBefore {code : Code} {k : Nat} {d : Word} (h : code.LiveBefore k d) :
    k < code.length := by
  have hsize : (code.flow.live d).size = code.length := by
    rw [(Flow.justified_live code.flow d).1.size_eq]
    simp [flow]
  by_contra hk
  rw [LiveBefore, Array.getD_eq_getD_getElem?, Array.getElem?_eq_none (by omega)] at h
  cases h

/-- What is live after an instruction is live before it, unless the instruction stores to it. -/
theorem liveBefore_of_successor {code : Code} {k j : Nat} {i : Instruction} {d : Word}
    (hi : code[k]? = some i) (hj : j ∈ code.successorsOf k i) (hlive : code.LiveBefore j d) :
    code.LiveBefore k d ∨ i.slotWritten? = some d := by
  by_cases hwritten : i.slotWritten? = some d
  · exact .inr hwritten
  · left
    have hnode : code.flow[k]? = some (code.nodeAt k i) := by rw [flow_getElem?, hi]; rfl
    refine Flow.live_closed hnode ?_
    simp only [Flow.liveAt, nodeAt, Flow.liveAfter, Bool.or_eq_true, Bool.and_eq_true, bne_iff_ne,
      List.any_eq_true]
    exact .inr ⟨hwritten, j, hj, hlive⟩

theorem succ_mem_successorsOf {code : Code} {k : Nat} {i : Instruction} (hk : k + 1 < code.length)
    (hret : i.mnemonic ≠ .ret) (hjmp : i.mnemonic ≠ .jmp) : k + 1 ∈ code.successorsOf k i := by
  simp only [successorsOf, if_neg hret, if_neg hjmp, if_pos hk]
  split <;> simp

theorem foldl_position {code : Code} {label : String} (h : label ∉ labels code)
    (found : Option Nat) (n : Nat) :
    (code.zipIdx n).foldl (fun found (i, k) => if i.label = some label then some k else found)
      found = found := by
  induction code generalizing found n with
  | nil => rfl
  | cons i rest ih =>
      rw [← List.singleton_append, labels_append, List.mem_append, not_or] at h
      have hi : i.label ≠ some label := fun heq => h.1 (by simp [labels, heq])
      rw [List.zipIdx_cons, List.foldl_cons]
      simp only [if_neg hi]
      exact ih h.2 found (n + 1)

/-- With distinct labels, a label is found where it stands. -/
theorem position?_eq_some {code : Code} (hnodup : (labels code).Nodup) {j : Nat} {i : Instruction}
    {label : String} (hi : code[j]? = some i) (hlabel : i.label = some label) :
    code.position? label = some j := by
  obtain ⟨hlt, rfl⟩ := List.getElem?_eq_some_iff.mp hi
  have hcode : code = code.take j ++ (code[j] :: code.drop (j + 1)) := by
    rw [List.getElem_cons_drop, List.take_append_drop]
  have hafter : label ∉ labels (code.drop (j + 1)) := by
    rw [hcode, labels_append, ← List.singleton_append, labels_append] at hnodup
    have hpair := (List.nodup_append.mp (List.nodup_append.mp hnodup).2.1).2.2
    intro hmem
    exact hpair label (by simp [labels, hlabel]) label hmem rfl
  have hlength : (code.take j).length = j := by
    rw [List.length_take]
    omega
  rw [position?]
  conv_lhs => rw [hcode]
  rw [List.zipIdx_append, List.foldl_append, List.zipIdx_cons, List.foldl_cons,
    foldl_position hafter]
  simp [hlabel, hlength]

/-- The analysis gives a closed set. -/
theorem liveClosed_liveBefore {code : Code} (hnodup : (labels code).Nodup) :
    LiveClosed code code.LiveBefore where
  reads := by
    intro k i d hi hd
    have hnode : code.flow[k]? = some (code.nodeAt k i) := by rw [flow_getElem?, hi]; rfl
    refine Flow.live_closed hnode ?_
    simp only [Flow.liveAt, nodeAt, Instruction.readsSlot, Bool.or_eq_true, List.contains_iff_mem]
    exact .inl (.inr hd)
  next := by
    intro k i d hi hret hjmp hlive
    exact liveBefore_of_successor hi
      (succ_mem_successorsOf (lt_length_of_liveBefore hlive) hret hjmp) hlive
  jump := by
    intro k i label j target d hi hm hos htarget hlabel hlive
    have hposition : code.target? i = some j := by
      simp only [target?, Instruction.jumpTarget?, hos, Operand.sym, if_true]
      exact position?_eq_some hnodup htarget hlabel
    have hj : j ∈ code.successorsOf k i := by
      rcases hm with hm | hm
      · simp [successorsOf, hm, hposition]
      · have hret : i.mnemonic ≠ .ret := by
          intro heq
          rw [heq] at hm
          cases hm
        have hjmp : i.mnemonic ≠ .jmp := by
          intro heq
          rw [heq] at hm
          cases hm
        simp [successorsOf, hret, hjmp, hm, hposition]
    rcases liveBefore_of_successor hi hj hlive with hbefore | hwritten
    · exact hbefore
    · unfold Instruction.slotWritten? at hwritten
      split at hwritten
      · rename_i heq _
        rw [heq] at hm
        rcases hm with hm | hm <;> cases hm
      · cases hwritten

theorem lookup_map_key {α : Type} (f : Word → α) {keys : List Word} {d : Word} (h : d ∈ keys) :
    (keys.map fun key => (key, f key)).lookup d = some (f d) := by
  induction keys with
  | nil => cases h
  | cons key rest ih =>
      rw [List.map_cons, List.lookup_cons]
      by_cases hkey : d = key
      · simp [hkey]
      · have hbeq : (d == key) = false := by simpa using hkey
        simp only [hbeq]
        exact ih ((List.mem_cons.mp h).resolve_left hkey)

/-- A store that goes is followed by nothing that reads its slot. -/
theorem not_liveBefore_of_keepsStore {code : Code} {k : Nat} {i : Instruction}
    (hi : code[k]? = some i) (hgone : keepsStore code k = false) :
    ∃ d, i.slotWritten? = some d ∧ i.slotsRead = [] ∧ ¬code.LiveBefore (k + 1) d := by
  simp only [keepsStore, hi, isDeadStore, nodeAt] at hgone
  split at hgone
  · cases hgone
  · rename_i d hd
    simp only [Bool.not_eq_false', Bool.and_eq_true, Bool.not_eq_true', List.isEmpty_iff] at hgone
    obtain ⟨⟨⟨-, -⟩, hreads⟩, hdead⟩ := hgone
    refine ⟨d, hd, hreads, fun hlive => ?_⟩
    have hmov : i.mnemonic = .mov := by
      unfold Instruction.slotWritten? at hd
      split at hd
      · assumption
      · cases hd
    have hlookup : code.liveness.lookup d = some (code.flow.live d) := by
      refine lookup_map_key _ ?_
      rw [slotsWritten, List.mem_eraseDups, List.mem_filterMap]
      exact ⟨i, List.mem_of_getElem? hi, hd⟩
    have hsucc : k + 1 ∈ code.successorsOf k i :=
      succ_mem_successorsOf (lt_length_of_liveBefore hlive) (by simp [hmov]) (by simp [hmov])
    rw [hlookup, Option.getD_some, Flow.liveAfter, List.any_eq_false] at hdead
    exact hdead (k + 1) hsucc hlive

end Code

end Arbor
