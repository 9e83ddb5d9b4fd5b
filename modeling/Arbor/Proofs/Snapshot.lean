import Mathlib.Tactic
import Arbor.Machine.Inspect
import Arbor.Proofs.Compilation
import Arbor.Proofs.Lockstep.Relation

/-!
What a snapshot shows. The globals and regions of a program fill its data area without
gaps, so two machines have the same snapshot exactly if they hold the same words there.
-/

namespace Arbor

namespace Layout

/-- Every word between the start and the end belongs to a placement. -/
theorem exists_placement {start a : Address} {requests : List (String × Nat)}
    (h : start.toNat + 8 * total requests < 2 ^ 64) (haligned : a.toNat % 8 = start.toNat % 8)
    (hlow : start.toNat ≤ a.toNat) (hhigh : a.toNat < start.toNat + 8 * total requests) :
    ∃ placement ∈ placedFrom start requests, ∃ k < extent placement.words,
      a = placement.address + 8 * UInt64.ofNat k := by
  induction requests generalizing start with
  | nil =>
      rw [total_nil] at hhigh
      omega
  | cons r rest ih =>
      rw [total_cons] at h hhigh
      by_cases hhere : a.toNat < start.toNat + 8 * extent r.2
      · refine ⟨_, List.mem_cons_self, (a.toNat - start.toNat) / 8, ?_, ?_⟩
        · dsimp only
          omega
        · dsimp only
          apply UInt64.toNat_inj.mp
          rw [toNat_add_words (by omega)]
          omega
      · have hnext : (start + 8 * UInt64.ofNat (extent r.2)).toNat = start.toNat + 8 * extent r.2 :=
          toNat_add_words (by omega)
        rw [← hnext] at hhere
        have hend : (start + 8 * UInt64.ofNat (extent r.2)).toNat + 8 * total rest =
            start.toNat + 8 * (extent r.2 + total rest) := by omega
        rw [← hend] at h hhigh
        obtain ⟨placement, hmem, hword⟩ := ih h (by omega) (Nat.le_of_not_lt hhere) hhigh
        exact ⟨placement, List.mem_cons_of_mem _ hmem, hword⟩

theorem request_of_mem_placedFrom {start : Address} {requests : List (String × Nat)}
    {placement : Placement} (h : placement ∈ placedFrom start requests) :
    (placement.symbol, placement.words) ∈ requests := by
  induction requests generalizing start with
  | nil => cases h
  | cons r rest ih =>
      rcases List.mem_cons.mp h with rfl | hrest
      · exact List.mem_cons_self
      · exact List.mem_cons_of_mem _ (ih hrest)

theorem mem_insertBySymbol {p q : Placement} {placements : List Placement} :
    q ∈ insertBySymbol p placements ↔ q = p ∨ q ∈ placements := by
  induction placements with
  | nil => simp [insertBySymbol]
  | cons head rest ih =>
      rw [insertBySymbol]
      split
      · exact List.mem_cons
      · rw [List.mem_cons, ih, List.mem_cons]
        exact or_left_comm

theorem mem_bySymbol {l : Layout} {q : Placement} : q ∈ l.bySymbol ↔ q ∈ l.placements := by
  rw [bySymbol]
  induction l.placements with
  | nil => rfl
  | cons head rest ih => rw [List.foldr_cons, mem_insertBySymbol, ih, List.mem_cons]

end Layout

namespace Machine

variable {m m' : Machine}

/-- The words of a placement as the machine holds them. -/
def wordsOf (m : Machine) (placement : Placement) : List Word :=
  (List.range placement.words).map fun k =>
    m.state.memory.read (placement.address + 8 * UInt64.ofNat k)

theorem readWords_eq {a : Address} {n : Nat}
    (h : ∀ k < n, m.image.accessTrap? (a + 8 * UInt64.ofNat k) = none) :
    m.readWords a n =
      .ok ((List.range n).map fun k => m.state.memory.read (a + 8 * UInt64.ofNat k)) := by
  induction n generalizing a with
  | zero => rfl
  | succ n ih =>
      have hshift : ∀ k, a + 8 + 8 * UInt64.ofNat k = a + 8 * UInt64.ofNat (k + 1) := by
        intro k
        rw [UInt64.ofNat_add]
        grind
      have hhead : m.readWord a = .ok (m.state.memory.read a) := by
        have hfirst := h 0 (Nat.succ_pos n)
        rw [show a + 8 * UInt64.ofNat 0 = a by simp] at hfirst
        rw [readWord, Image.load?, hfirst]
      have hrest : m.readWords (a + 8) n =
          .ok ((List.range n).map fun k => m.state.memory.read (a + 8 + 8 * UInt64.ofNat k)) := by
        apply ih
        intro k hk
        rw [hshift]
        exact h (k + 1) (Nat.succ_lt_succ hk)
      rw [readWords, hhead, hrest, List.range_succ_eq_map, List.map_cons, List.map_map]
      simp [hshift, Function.comp_def]

theorem readPlacements_eq {placements : List Placement}
    (h : ∀ placement ∈ placements, ∀ k < placement.words,
      m.image.accessTrap? (placement.address + 8 * UInt64.ofNat k) = none) :
    m.readPlacements placements =
      .ok (placements.map fun placement => (placement.symbol, m.wordsOf placement)) := by
  induction placements with
  | nil => rfl
  | cons head rest ih =>
      have hhead := readWords_eq (h head List.mem_cons_self)
      have hrest := ih fun placement hmem => h placement (List.mem_cons_of_mem _ hmem)
      rw [readPlacements, hhead, hrest]
      rfl

section Data

variable {E : Setting}

theorem snapshot_eq (hfits : E.Fits) (hlayout : m.image.layout = E.world.layout) :
    m.snapshot = .ok (E.world.layout.bySymbol.map fun placement =>
      (placement.symbol, m.wordsOf placement)) := by
  rw [snapshot, hlayout]
  apply readPlacements_eq
  intro placement hmem k hk
  have hdata := Setting.isData_of_mem_placements hfits (Layout.mem_bySymbol.mp hmem)
    (Nat.lt_of_lt_of_le hk (Layout.le_extent placement.words))
  obtain ⟨haligned, hlow, hhigh⟩ := Setting.isData_iff.mp hdata
  have hmapped : m.image.isData (placement.address + 8 * UInt64.ofNat k) = true := by
    rw [← hlayout] at hhigh
    simp [Image.isData, hlow, hhigh]
  simp [Image.accessTrap?, haligned, hmapped]

/-- Snapshots tell data areas apart, if no region is empty. -/
theorem snapshot_eq_snapshot_iff (hfits : E.Fits)
    (hwords : ∀ r ∈ Layout.requests E.world.program, 0 < r.2)
    (hlayout : m.image.layout = E.world.layout) (hlayout' : m'.image.layout = E.world.layout) :
    m.snapshot = m'.snapshot ↔
      ∀ a, E.world.isData a = true → m.state.memory.read a = m'.state.memory.read a := by
  rw [snapshot_eq hfits hlayout, snapshot_eq hfits hlayout', Except.ok.injEq]
  constructor
  · intro h a ha
    obtain ⟨haligned, hlow, hhigh⟩ := Setting.isData_iff.mp ha
    have hend := Setting.toNat_dataEnd hfits
    have hbase : Layout.base.toNat = 0x1000 := rfl
    have htop : Image.stackTop.toNat = 0x7fff0000 := rfl
    have hmod : a.toNat % 8 = 0 := congrArg UInt64.toNat haligned
    rw [UInt64.le_iff_toNat_le] at hlow
    rw [UInt64.lt_iff_toNat_lt, hend] at hhigh
    unfold Setting.Fits Program.Fits at hfits
    have hspace : Layout.base.toNat + 8 * Layout.total (Layout.requests E.world.program) < 2 ^ 64 := by
      omega
    obtain ⟨placement, hmem, k, hk, rfl⟩ := Layout.exists_placement hspace (by omega) hlow hhigh
    -- The region has a word, so all its words are in the snapshot.
    have hpos := hwords _ (Layout.request_of_mem_placedFrom hmem)
    have hk' : k < placement.words := by
      unfold Layout.extent at hk
      split at hk <;> omega
    have hentry := List.map_inj_left.mp h placement (Layout.mem_bySymbol.mpr hmem)
    exact List.map_inj_left.mp (Prod.mk.inj hentry).2 k (List.mem_range.mpr hk')
  · intro h
    apply List.map_inj_left.mpr
    intro placement hmem
    rw [Prod.mk.injEq]
    refine ⟨rfl, List.map_inj_left.mpr fun k hk => ?_⟩
    apply h
    apply Setting.isData_of_mem_placements hfits (Layout.mem_bySymbol.mp hmem)
    exact Nat.lt_of_lt_of_le (List.mem_range.mp hk) (Layout.le_extent placement.words)

end Data

end Machine

/-- Lowering never asks for a region without words. -/
theorem Lowers.region_words {env : LoweringEnv} {phrase : Phrase} {st st' : LoweringState}
    {code : Code} (h : Lowers env phrase st code st') (hst : ∀ region ∈ st.data, 0 < region.words) :
    ∀ region ∈ st'.data, 0 < region.words := by
  refine h.preserves (P := fun st => ∀ region ∈ st.data, 0 < region.words) ?_ hst
  refine ⟨fun _ h => h, ?_, fun _ _ _ _ h => h, fun _ _ _ _ h => h, fun _ _ _ h => h⟩
  intro st region hregion h other hother
  rcases List.mem_append.mp hother with hold | hnew
  · exact h other hold
  · rw [List.mem_singleton.mp hnew]
    cases region with
    | string symbol bytes => exact Nat.succ_pos _
    | reserve symbol quadwords =>
        apply Nat.pos_of_ne_zero
        rintro rfl
        exact hregion symbol rfl

theorem Links.request_words {fns : List FunctionDef} {labels : Nat → Nat → Nat} {p : Program}
    (h : Links fns labels p) : ∀ r ∈ Layout.requests p, 0 < r.2 := by
  intro r hr
  rcases List.mem_append.mp hr with hglobal | hregion
  · obtain ⟨name, -, rfl⟩ := List.mem_map.mp hglobal
    exact Nat.one_pos
  · obtain ⟨unit, hunit, hdata⟩ := List.mem_flatMap.mp hregion
    obtain ⟨region, hmem, rfl⟩ := List.mem_map.mp hdata
    obtain ⟨i, hi⟩ := List.mem_iff_getElem?.mp hunit
    obtain ⟨fn, hfn⟩ := h.exists_function hi
    obtain ⟨entry, body, final, hlowered⟩ := lower_eq_ok (h.lowered hfn hi)
    rw [hlowered.unit_eq] at hmem
    exact hlowered.lowers.region_words (by simp) region hmem

theorem Program.Fits.exists_snapshot {p : Program} {stackWords : Nat} (hfits : p.Fits stackWords)
    {m : Machine} (hm : m.image.layout = Layout.ofRequests (Layout.requests p)) :
    ∃ data, m.snapshot = .ok data :=
  ⟨_, Machine.snapshot_eq
    (E := { world := { functions := [], program := p }, stackWords := stackWords }) hfits hm⟩

/-- Machines on programs with the requests of a compiled one have the same snapshot exactly
if they hold the same data. -/
theorem Links.snapshot_iff {fns : List FunctionDef} {labels : Nat → Nat → Nat} {p : Program}
    (h : Links fns labels p) {stackWords : Nat} (hfits : p.Fits stackWords) {m n : Machine}
    (hm : m.image.layout = Layout.ofRequests (Layout.requests p))
    (hn : n.image.layout = Layout.ofRequests (Layout.requests p)) :
    m.snapshot = n.snapshot ↔
      ∀ a, p.IsData a → m.state.memory.read a = n.state.memory.read a :=
  Machine.snapshot_eq_snapshot_iff
    (E := { world := { functions := [], program := p }, stackWords := stackWords })
    hfits h.request_words hm hn

theorem Links.eq_of_load {fns : List FunctionDef} {labels : Nat → Nat → Nat} {p : Program}
    (h : Links fns labels p) {limits : Limits} {m : Machine} (hload : Machine.load p limits = .ok m) :
    m = Machine.fresh (Image.ofProgram p limits) := by
  have hfresh := h.load_eq limits
  rw [hload] at hfresh
  exact Except.ok.inj hfresh

end Arbor
