import Mathlib.Tactic
import Arbor.Proofs.SymbolClosure
import Arbor.Proofs.Lockstep.Entry

/-!
The passes, one after another. Compiled programs are disciplined, and so is what a pass
makes of a disciplined program. A careful call may therefore be followed through any
number of passes, and repeated sweeps are as many passes.
-/

namespace Arbor

open Exec

namespace Code

theorem DropsOptional.trims {f : Code → Code} (hf : DropsOptional f) : Trims f where
  sublist := by
    intro code
    obtain ⟨keep, heq, -⟩ := hf code
    rw [heq]
    exact thin_sublist code
  labels := by
    intro code
    obtain ⟨keep, heq, hgone⟩ := hf code
    rw [heq]
    exact labels_thin fun k i hi hk => (hgone k i hi hk).label

theorem dropsOptional_id : DropsOptional fun code => code :=
  fun code => ⟨fun _ => true, (thin_true code).symm, by simp⟩

/-- A plan by which only redundant instructions go needs no liveness. -/
theorem Plan.sound_of_redundant {apart : Prop} {keep : Nat → Bool} {code : Code}
    (h : ∀ k i, code[k]? = some i → keep k = false → Redundant code k i) :
    Plan.Sound apart { keep := keep, live := fun _ _ => True } code where
  reads := fun _ _ _ _ _ => trivial
  next := fun _ _ _ _ _ _ _ => .inl trivial
  jump := fun _ _ _ _ _ _ _ _ _ _ _ _ => trivial
  drops := fun k i hi hk => .redundant (h k i hi hk) fun _ _ => trivial

/-- The plan by which everything stays. -/
def Plan.whole : Plan where
  keep := fun _ => true
  live := fun _ _ => True

theorem Plan.whole_sound {apart : Prop} (code : Code) : Plan.whole.Sound apart code :=
  sound_of_redundant fun _ _ _ hk => by cases hk

/-- The plan of the removal of dead stores. -/
def deadStorePlan (code : Code) : Plan where
  keep := keepsStore code
  live := LiveBefore code

theorem deadStorePlan_sound {apart : Prop} {code : Code} (hapart : apart)
    (hnodup : (labels code).Nodup) : (deadStorePlan code).Sound apart code where
  toLiveClosed := liveClosed_liveBefore hnodup
  drops := by
    intro k i hi hk
    obtain ⟨d, hd, hreads, hdead⟩ := not_liveBefore_of_keepsStore hi hk
    exact .deadStore hapart (label_of_keepsStore hi hk) hd hreads hdead

/-- The sweeps end when one removes nothing, and from then on they change nothing. -/
theorem peephole_eq_iterate (code : Code) :
    ∀ n, code.length ≤ n → peephole code = sweepWindows^[n] code := by
  fun_induction peephole code with
  | case1 code next hlt ih =>
      intro n hn
      obtain ⟨m, rfl⟩ : ∃ m, n = m + 1 := ⟨n - 1, by omega⟩
      rw [Function.iterate_succ_apply]
      exact ih m (by omega)
  | case2 code next hge =>
      intro n _
      have hfixed : sweepWindows code = code :=
        (Trims.sweepWindows.sublist code).eq_of_length_le (Nat.le_of_not_lt hge)
      exact (Function.iterate_fixed hfixed n).symm

end Code

namespace Program

variable {f g : Code → Code} {p : Program} {stackWords : Nat}

theorem mapCode_comp (f g : Code → Code) (p : Program) :
    (p.mapCode f).mapCode g = p.mapCode fun code => g (f code) := by
  simp [mapCode, Function.comp_def]

theorem mapCode_congr (h : ∀ unit ∈ p.units, f unit.code = g unit.code) :
    p.mapCode f = p.mapCode g := by
  have hunits : (p.units.map fun unit => { unit with code := f unit.code }) =
      p.units.map fun unit => { unit with code := g unit.code } :=
    List.map_congr_left fun unit hunit => by rw [h unit hunit]
  rw [mapCode, mapCode, hunits]

@[simp] theorem widestFrame_mapCode : (p.mapCode f).widestFrame = p.widestFrame := by
  simp [widestFrame, mapCode, Function.comp_def]

theorem isData_of_requests {q : Program} (h : Layout.requests q = Layout.requests p) :
    q.IsData = p.IsData := by
  have hlayout : (World.mk [] q).layout = (World.mk [] p).layout := congrArg Layout.ofRequests h
  funext a
  rw [IsData, IsData, World.isData, World.isData, hlayout]

theorem stores_mapCode {symbol : String} {d : Word} :
    (p.mapCode f).Stores symbol d ↔ p.Stores symbol d := by
  rw [Stores, Stores, requests_mapCode, isData_of_requests (requests_mapCode p)]

/-- Every pass preserves the discipline. -/
theorem Disciplined.mapCode (h : p.Disciplined stackWords) (hf : Code.DropsOptional f) :
    (p.mapCode f).Disciplined stackWords where
  shaped := h.shaped.mapCode hf
  landing := h.landing.mapCode hf
  labels := by
    intro unit hunit
    obtain ⟨old, hold, rfl⟩ := mem_mapCode.mp hunit
    change (Code.labels (f old.code)).Nodup
    rw [hf.trims.labels]
    exact h.labels old hold
  names := by simpa [Program.mapCode, Function.comp_def] using h.names
  globals := by
    intro unit hunit i hi symbol d ho
    obtain ⟨old, hold, rfl⟩ := mem_mapCode.mp hunit
    apply stores_mapCode.mpr
    exact h.globals old hold i ((hf.trims.sublist old.code).subset hi) symbol d ho
  addressable := by
    constructor
    · simpa [Program.mapCode] using h.addressable.units_lt
    · intro unit hunit
      obtain ⟨old, hold, rfl⟩ := mem_mapCode.mp hunit
      exact Nat.lt_of_le_of_lt (hf.trims.sublist old.code).length_le
        (h.addressable.code_lt old hold)
  fits := by
    rw [Fits, requests_mapCode]
    exact h.fits
  frames := by
    rw [widestFrame_mapCode]
    exact h.frames

theorem FramesApart.mapCode (h : p.FramesApart stackWords) (f : Code → Code) :
    (p.mapCode f).FramesApart stackWords := by
  rw [FramesApart, Fits, requests_mapCode, widestFrame_mapCode]
  exact h

end Program

namespace Links

variable {fns : List FunctionDef} {labels : Nat → Nat → Nat} {p : Program} {stackWords : Nat}

/-- A word of something that the program asks to place. -/
theorem stores (h : Links fns labels p) (hfits : p.Fits stackWords) {symbol : String}
    {words k : Nat} (hempty : symbol.isEmpty = false)
    (hmem : (symbol, words) ∈ Layout.requests p) (hk : k < words) :
    p.Stores symbol (8 * Int64.ofNat k) := by
  let E : Setting := { world := { functions := [], program := p }, stackWords := stackWords }
  obtain ⟨placement, hfind, rfl⟩ := Layout.find?_placedFrom (a := Layout.base) h.requests_nodup hmem
  refine ⟨hempty, placement, hfind, ?_⟩
  have hdata := Setting.isData_placement (E := E) hfits hfind
    (Nat.lt_of_lt_of_le hk (Layout.le_extent placement.words))
  have hwords : (8 * Int64.ofNat k : Word).toUInt64 = 8 * UInt64.ofNat k := by
    rw [Int64.toUInt64_mul, Int64.toUInt64_ofNat']
    rfl
  rw [hwords]
  exact hdata

theorem region_symbol_isEmpty (h : Links fns labels p) {unit : CompiledUnit}
    (hunit : unit ∈ p.units) {region : DataRegion} (hregion : region ∈ unit.data) :
    region.symbol.isEmpty = false := by
  obtain ⟨i, hi⟩ := List.mem_iff_getElem?.mp hunit
  obtain ⟨fn, hfn⟩ := h.exists_function hi
  have hmem : region.symbol ∈ unit.data.map (·.symbol) := List.mem_map_of_mem hregion
  rcases h.mem_definedSymbols hfn hi (List.mem_append_right _ hmem) with hname | ⟨word, k, -, -, heq⟩
  · have hdisjoint := List.disjoint_of_nodup_append (h.unit_definedSymbols_nodup hi)
    have hlabel := h.name_mem_labels hunit
    rw [h.unit_name hfn hi, ← hname] at hlabel
    exact absurd hmem (hdisjoint hlabel)
  · rw [heq]
    exact numbered_isEmpty word _

/-- The words of storage that compiled code names are words of the data area. -/
theorem global_stores (h : Links fns labels p) (hfits : p.Fits stackWords) {unit : CompiledUnit}
    (hunit : unit ∈ p.units) {symbol : String} {d : Word}
    (hplaced : (Operand.global symbol d).Placed (p.surroundings unit)) : p.Stores symbol d := by
  generalize ho : Operand.global symbol d = o at hplaced
  cases hplaced with
  | reg | imm | slot => cases ho
  | element base index d' hindex =>
      injection ho with _ _ hnone
      exact absurd hnone.symm hindex
  | @global name hname =>
      cases ho
      have hmem : (globalSymbol name, 1) ∈ Layout.requests p :=
        List.mem_append_left _ (List.mem_map.mpr ⟨name, hname, rfl⟩)
      exact h.stores hfits (k := 0) (globalSymbol_isEmpty name) hmem Nat.one_pos
  | @word symbol' quadwords k hregion hk =>
      cases ho
      have hmem : (symbol, quadwords) ∈ Layout.requests p := by
        apply List.mem_append_right
        exact List.mem_flatMap.mpr ⟨unit, hunit, List.mem_map.mpr ⟨_, hregion, rfl⟩⟩
      exact h.stores hfits (h.region_symbol_isEmpty hunit hregion) hmem hk

/-- Compiled programs are disciplined. -/
theorem disciplined (h : Links fns labels p) (hp : p.Addressable) (hfits : p.Fits stackWords)
    (hframes : p.widestFrame < 2 ^ 60) : p.Disciplined stackWords where
  shaped := h.shaped
  landing := h.landing
  labels := fun _ hunit => h.labels_nodup hunit
  names := by
    rw [h.unit_names]
    exact h.declarable.distinct
  globals := by
    intro unit hunit i hi symbol d ho
    exact h.global_stores hfits hunit ((h.unit_closed hunit).placed hi ho (.inl rfl))
  addressable := hp
  fits := hfits
  frames := hframes

end Links

namespace Program

/-- A program may stand in for another under the limits. Careful calls on the other are as
careful on it, from every state with the same data and steps to spare. They return the same
word, leave the same data and take no more steps. -/
structure Replaces (limits : Limits) (q p : Program) : Prop where
  disciplined : q.Disciplined limits.maxStackWords
  requests : Layout.requests q = Layout.requests p
  call : ∀ {name args v} {s s' t : MachineState},
    (∀ a, p.IsData a → s.memory.read a = t.memory.read a) → t.steps ≤ s.steps →
    callFunction (Image.ofProgram p limits) name args s = .ok v s' →
    Machine.everyStep ⟨Image.ofProgram p limits, s⟩ (Image.ofProgram p limits).careful name args →
    ∃ t', callFunction (Image.ofProgram q limits) name args t = .ok v t' ∧
      Machine.everyStep ⟨Image.ofProgram q limits, t⟩ (Image.ofProgram q limits).careful name args ∧
      (∀ a, p.IsData a → s'.memory.read a = t'.memory.read a) ∧
      t'.steps + s.steps ≤ s'.steps + t.steps

variable {limits : Limits} {p q r : Program}

theorem Replaces.trans (hqp : Replaces limits q p) (hrq : Replaces limits r q) :
    Replaces limits r p where
  disciplined := hrq.disciplined
  requests := hrq.requests.trans hqp.requests
  call := by
    intro name args v s s' t hdata hsteps hcall hcareful
    obtain ⟨t', hcall', hcareful', hdata', hsteps'⟩ := hqp.call hdata hsteps hcall hcareful
    -- The second replacement starts from the state in which the first one started.
    obtain ⟨t'', hcall'', hcareful'', hdata'', hsteps''⟩ :=
      hrq.call (fun _ _ => rfl) le_rfl hcall' hcareful'
    rw [isData_of_requests hqp.requests] at hdata''
    exact ⟨t'', hcall'', hcareful'', fun a ha => (hdata' a ha).trans (hdata'' a ha), by omega⟩

/-- What a sound plan makes of a disciplined program may stand in for it. -/
theorem Disciplined.replaces (h : p.Disciplined limits.maxStackWords) {f : Code → Code}
    (hf : Code.DropsOptional f) (plan : Code → Code.Plan)
    (hplan : ∀ code, f code = Code.thin (plan code).keep code)
    (hplans : ∀ unit ∈ p.units,
      (plan unit.code).Sound (p.FramesApart limits.maxStackWords) unit.code) :
    Replaces limits (p.mapCode f) p where
  disciplined := h.mapCode hf
  requests := requests_mapCode p
  call := by
    intro name args v s s' t hdata hsteps hcall hcareful
    let L : Lockstep := { program := p, plan := plan, limits := limits, limits' := limits }
    have hL : L.Sound := { toDisciplined := h, plans := hplans, stackWords := rfl }
    have hthinned : p.mapCode f = L.thinned := mapCode_congr fun unit _ => hplan unit.code
    have hlimit := steps_of_callFunction hcall
    have hroom : t.steps + (s'.steps - s.steps) ≤ L.limits'.maxSteps := by
      have hsame : (Image.ofProgram p limits).limits.maxSteps = L.limits'.maxSteps := rfl
      omega
    rw [hthinned]
    exact hL.callFunction hdata hcall hcareful hroom

theorem Disciplined.replaces_self (h : p.Disciplined limits.maxStackWords) :
    Replaces limits (p.mapCode fun code => code) p :=
  h.replaces Code.dropsOptional_id (fun _ => .whole) (fun code => (Code.thin_true code).symm)
    fun unit _ => Code.Plan.whole_sound unit.code

theorem Disciplined.replaces_removeDeadStores (h : p.Disciplined limits.maxStackWords)
    (hapart : p.FramesApart limits.maxStackWords) :
    Replaces limits (p.mapCode Code.removeDeadStores) p :=
  h.replaces Code.dropsOptional_removeDeadStores Code.deadStorePlan Code.removeDeadStores_eq_thin
    fun unit hunit => Code.deadStorePlan_sound hapart (h.labels unit hunit)

theorem Disciplined.replaces_sweepWindows (h : p.Disciplined limits.maxStackWords) :
    Replaces limits (p.mapCode Code.sweepWindows) p := by
  choose keep heq hgone using Code.exists_thin_eq_sweepWindows
  exact h.replaces Code.dropsOptional_sweepWindows
    (fun code => { keep := keep code, live := fun _ _ => True }) heq
    fun unit _ => Code.Plan.sound_of_redundant (hgone unit.code)

theorem Disciplined.replaces_iterate (h : p.Disciplined limits.maxStackWords) (n : Nat) :
    Replaces limits (p.mapCode Code.sweepWindows^[n]) p := by
  induction n generalizing p with
  | zero => exact h.replaces_self
  | succ n ih =>
      have hfirst := h.replaces_sweepWindows
      have hrest := ih hfirst.disciplined
      rw [mapCode_comp] at hrest
      exact hfirst.trans hrest

/-- The units take different numbers of sweeps. As many as the longest code has instructions
are enough for all. -/
theorem Disciplined.replaces_peephole (h : p.Disciplined limits.maxStackWords) :
    Replaces limits (p.mapCode Code.peephole) p := by
  let n := (p.units.map (·.code.length)).foldr max 0
  have hsweeps : p.mapCode Code.peephole = p.mapCode Code.sweepWindows^[n] := by
    apply mapCode_congr
    intro unit hunit
    apply Code.peephole_eq_iterate
    exact List.le_max_of_le (List.mem_map_of_mem hunit) le_rfl
  rw [hsweeps]
  exact h.replaces_iterate n

theorem Disciplined.replaces_stage (h : p.Disciplined limits.maxStackWords) (stage : PipelineStage)
    (hapart : stage = ⟨.deadStore, true⟩ → p.FramesApart limits.maxStackWords) :
    Replaces limits (p.mapCode stage.run) p := by
  obtain ⟨pass, enabled⟩ := stage
  cases enabled with
  | false => exact h.replaces_self
  | true =>
      cases pass with
      | deadStore => exact h.replaces_removeDeadStores (hapart rfl)
      | peephole => exact h.replaces_peephole

theorem Disciplined.replaces_runAll (h : p.Disciplined limits.maxStackWords)
    {stages : List PipelineStage}
    (hapart : ⟨.deadStore, true⟩ ∈ stages → p.FramesApart limits.maxStackWords) :
    Replaces limits (p.mapCode fun code => (PipelineStage.runAll stages code).1) p := by
  induction stages generalizing p with
  | nil => exact h.replaces_self
  | cons stage rest ih =>
      have hfirst := h.replaces_stage stage fun heq => hapart (heq ▸ List.mem_cons_self)
      have hrest := ih hfirst.disciplined fun hmem =>
        (hapart (List.mem_cons_of_mem _ hmem)).mapCode stage.run
      rw [mapCode_comp] at hrest
      exact hfirst.trans hrest

end Program

end Arbor
