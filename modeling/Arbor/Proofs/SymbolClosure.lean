import Mathlib.Tactic
import Arbor.Proofs.Resolution
import Arbor.Proofs.Thinning

/-!
No compiled program refers to a symbol that it neither defines nor declares, and no
pass changes that. Three views of the program agree on it: its units, whose operands
are followed to what they name; its runs, which never stop for a label or a data
symbol that is missing; and its listing, line by line.
-/

namespace Arbor

/-- The symbol that an operand shows in the listing. -/
def Operand.symbol? (o : Operand) : Option String :=
  match o.kind with
  | .symbol => some o.symbol
  | .memory => if o.symbol.isEmpty then none else some o.symbol
  | .register | .immediate => none

/-- What stands on the lines of a listing. -/
inductive ListingItem where
  | directive (text : String)
  | exported (name : String)
  | imported (name : String)
  | entry (name : String)
  | code (i : Instruction)
  | string (symbol : String) (bytes : Bytes)
  | global (name : String)
  | reserve (symbol : String) (quadwords : Nat)

namespace ListingItem

def lines : ListingItem → List String
  | .directive text => [text]
  | .exported name => ["global " ++ name]
  | .imported name => ["extern " ++ name]
  | .entry name => Program.startStub name
  | .code i => [i.text]
  | .string symbol bytes => [symbol ++ ": db " ++ quoteBytes bytes]
  | .global name => [globalSymbol name ++ ": resq 1"]
  | .reserve symbol quadwords => [symbol ++ ": resq " ++ toString quadwords]

/-- The symbols that the lines define or declare as defined elsewhere. -/
def introduces : ListingItem → List String
  | .directive _ | .exported _ => []
  | .imported name => [name]
  | .entry _ => ["_start"]
  | .code i => i.label.toList
  | .string symbol _ | .reserve symbol _ => [symbol]
  | .global name => [globalSymbol name]

/-- The symbols that the lines take to be defined. -/
def refersTo : ListingItem → List String
  | .exported name | .entry name => [name]
  | .code i => if i.isLabelOnly then [] else i.operands.filterMap Operand.symbol?
  | .directive _ | .imported _ | .string .. | .global _ | .reserve .. => []

def ofString? : DataRegion → Option ListingItem
  | .string symbol bytes => some (.string symbol bytes)
  | .reserve .. => none

def ofReserve? : DataRegion → Option ListingItem
  | .reserve symbol quadwords => some (.reserve symbol quadwords)
  | .string .. => none

end ListingItem

namespace Program

/-- The listing of a program, item by item. -/
def listingItems (p : Program) (entry : Option String) : List ListingItem :=
  ["bits 64", "default rel", "", "section .text"].map .directive ++
    p.units.map (fun unit => .exported unit.name) ++
    (if entry.isSome then [.exported "_start"] else []) ++
    p.imports.map .imported ++
    entry.toList.map .entry ++
    p.units.flatMap (fun unit => .directive "" :: unit.code.map .code) ++
    (if (p.regions.filterMap ListingItem.ofString?).isEmpty then []
      else .directive "" :: .directive "section .data" :: p.regions.filterMap ListingItem.ofString?) ++
    ["", "section .bss", "alignb 8"].map .directive ++
    p.globals.map .global ++
    p.regions.filterMap ListingItem.ofReserve?

theorem lines_map {α : Type} {item : α → ListingItem} {line : α → String}
    (h : ∀ a, (item a).lines = [line a]) (entries : List α) :
    (entries.map item).flatMap ListingItem.lines = entries.map line := by
  induction entries with
  | nil => rfl
  | cons a rest ih => simp [h, ih]

theorem lines_directives (texts : List String) :
    (texts.map .directive).flatMap ListingItem.lines = texts := by
  induction texts with
  | nil => rfl
  | cons text rest ih => simp [ListingItem.lines, ih]

theorem lines_filterMap {α : Type} {item? : α → Option ListingItem} {line? : α → Option String}
    (h : ∀ a, (item? a).map ListingItem.lines = (line? a).map fun line => [line])
    (entries : List α) :
    (entries.filterMap item?).flatMap ListingItem.lines = entries.filterMap line? := by
  induction entries with
  | nil => rfl
  | cons a rest ih =>
      have ha := h a
      cases hitem : item? a <;> cases hline : line? a <;> simp_all

theorem lines_strings (regions : List DataRegion) :
    (regions.filterMap ListingItem.ofString?).flatMap ListingItem.lines =
      regions.filterMap stringLine? := by
  apply lines_filterMap
  rintro (_ | _) <;> rfl

theorem lines_reserves (regions : List DataRegion) :
    (regions.filterMap ListingItem.ofReserve?).flatMap ListingItem.lines =
      regions.filterMap reserveLine? := by
  apply lines_filterMap
  rintro (_ | _) <;> rfl

theorem isEmpty_strings (regions : List DataRegion) :
    (regions.filterMap ListingItem.ofString?).isEmpty =
      (regions.filterMap stringLine?).isEmpty := by
  rw [Bool.eq_iff_iff, List.isEmpty_iff, List.isEmpty_iff, List.filterMap_eq_nil_iff,
    List.filterMap_eq_nil_iff]
  apply forall₂_congr
  rintro (_ | _) - <;> simp [stringLine?, ListingItem.ofString?]

theorem lines_units (units : List CompiledUnit) :
    (units.flatMap fun unit => .directive "" :: unit.code.map .code).flatMap ListingItem.lines =
      units.flatMap fun unit => "" :: unit.code.map Instruction.text := by
  rw [List.flatMap_assoc]
  apply List.flatMap_congr
  intro unit _
  rw [List.flatMap_cons, lines_map fun _ => rfl]
  rfl

theorem lines_entry (entry : Option String) :
    (entry.toList.map .entry).flatMap ListingItem.lines =
      match entry with
      | some name => startStub name
      | none => [] := by
  cases entry with
  | none => rfl
  | some name => exact List.append_nil _

/-- The items are the listing, with what each line introduces and refers to at hand. -/
theorem listingLines_eq_items (p : Program) (entry : Option String) :
    p.listingLines entry = (p.listingItems entry).flatMap ListingItem.lines := by
  have hexport : ((if entry.isSome then [.exported "_start"] else []).flatMap ListingItem.lines) =
      if entry.isSome then ["global _start"] else [] := by
    split <;> rfl
  have hstrings : (if (p.regions.filterMap ListingItem.ofString?).isEmpty then []
        else .directive "" :: .directive "section .data" ::
          p.regions.filterMap ListingItem.ofString?).flatMap ListingItem.lines =
      if (p.regions.filterMap stringLine?).isEmpty then []
      else "" :: "section .data" :: p.regions.filterMap stringLine? := by
    rw [isEmpty_strings]
    split
    · rfl
    · rw [List.flatMap_cons, List.flatMap_cons, lines_strings]
      rfl
  simp only [listingItems, List.flatMap_append, hexport, lines_entry, hstrings, lines_units,
    lines_reserves, lines_directives]
  rw [lines_map fun _ => rfl, lines_map fun _ => rfl, lines_map fun _ => rfl]
  rfl

/-- The symbols that the code of a unit refers to, by what refers to them: jumps go to
labels of the unit, an address is that of a region of the unit, a word of storage is a
global or lies inside a reserved region of the unit, a function called is a unit or
imported, and nothing else names a symbol. Displacements are words, so a region whose
bytes a word cannot count is described by the word alone. -/
structure UnitClosed (p : Program) (unit : CompiledUnit) : Prop where
  jumps : ∀ i ∈ unit.code, i.mnemonic.isJump → ∃ label, i.operands = [.sym label] ∧
    unit.code.labels.count label = 1
  addresses : ∀ i ∈ unit.code, i.mnemonic = .lea → ∃ r, ∃ region ∈ unit.data,
    i.operands = [.ofReg r, .sym region.symbol]
  storage : ∀ i ∈ unit.code, ∀ o ∈ i.operands, o.kind = .memory → o.symbol ≠ "" →
    (∃ name ∈ p.globals, o.symbol = globalSymbol name ∧ o.value = 0) ∨
    ∃ quadwords k, .reserve o.symbol quadwords ∈ unit.data ∧ k < quadwords ∧
      o.value = Int64.ofNat (8 * k) ∧ (8 * quadwords ≤ 2 ^ 63 → o.value.toInt = 8 * k)
  calls : ∀ i ∈ unit.code, i.mnemonic = .call → ∃ callee, i.operands = [.sym callee] ∧
    ((∃ callable ∈ p.units, callable.name = callee) ∨ callee ∈ unit.externs)
  values : ∀ i ∈ unit.code, i.mnemonic.isPlain → ∀ o ∈ i.operands, o.kind ≠ .symbol

/-- Nothing that a program does or lists meets a symbol that is not there. Runs start
from any state of memory and registers, so from any that earlier calls have left. -/
structure SymbolsClosed (p : Program) : Prop where
  units : ∀ unit ∈ p.units, p.UnitClosed unit
  runs : ∀ limits, ∃ m, Machine.load p limits = .ok m ∧ ∀ state name args e,
    (Machine.call { m with state := state } name args).1 = .error e →
      (∀ site label, e ≠ .trap site (.unknownLabel label)) ∧ ∀ symbol, e ≠ .unknownSymbol symbol
  listing : ∀ entry text, p.listing entry = .ok text →
    text = String.join (((p.listingItems entry).flatMap ListingItem.lines).map (· ++ "\n")) ∧
    ∀ item ∈ p.listingItems entry, ∀ symbol ∈ item.refersTo,
      ∃ other ∈ p.listingItems entry, symbol ∈ other.introduces

end Program

theorem Operand.Placed.storage {σ : Surroundings} {o : Operand} (h : o.Placed σ)
    (hkind : o.kind = .memory) (hsymbol : o.symbol ≠ "") :
    (∃ name ∈ σ.globals, o.symbol = globalSymbol name ∧ o.value = 0) ∨
    ∃ quadwords k, .reserve o.symbol quadwords ∈ σ.data ∧ k < quadwords ∧
      o.value = Int64.ofNat (8 * k) ∧ (8 * quadwords ≤ 2 ^ 63 → o.value.toInt = 8 * k) := by
  cases h with
  | reg r => cases hkind
  | imm v => cases hkind
  | slot d => exact absurd rfl hsymbol
  | element base index d => exact absurd rfl hsymbol
  | global hname => exact Or.inl ⟨_, hname, rfl, rfl⟩
  | @word symbol quadwords k hregion hk =>
      have hvalue : (8 : Word) * Int64.ofNat k = Int64.ofNat (8 * k) := by
        rw [Int64.ofNat_mul]
        rfl
      refine Or.inr ⟨quadwords, k, hregion, hk, hvalue, ?_⟩
      intro hfits
      change ((8 : Word) * Int64.ofNat k).toInt = 8 * k
      rw [hvalue, Int64.toInt_ofNat_of_lt (by omega)]
      push_cast
      rfl

namespace Code.Closed

variable {σ : Surroundings} {code : Code} {i : Instruction}

theorem jump (h : Closed σ code) (hi : i ∈ code) (hm : i.mnemonic.isJump) :
    ∃ label ∈ σ.labels, i.operands = [.sym label] := by
  cases h i hi with
  | label | call | lea => cases hm
  | jump _ hlabel => exact ⟨_, hlabel, rfl⟩
  | plain hplain => simp_all [Mnemonic.isPlain, Instruction.make]

theorem lea (h : Closed σ code) (hi : i ∈ code) (hm : i.mnemonic = .lea) :
    ∃ region ∈ σ.data, i.operands = [.ofReg .rax, .sym region.symbol] := by
  cases h i hi with
  | label | call => cases hm
  | lea hregion => exact ⟨_, hregion, rfl⟩
  | jump hjump => simp_all [Mnemonic.isJump, Mnemonic.isConditionalJump, Instruction.make]
  | plain hplain => simp_all [Mnemonic.isPlain, Instruction.make]

theorem call (h : Closed σ code) (hi : i ∈ code) (hm : i.mnemonic = .call) :
    ∃ callee, σ.callable callee ∧ i.operands = [.sym callee] := by
  cases h i hi with
  | label | lea => cases hm
  | call hcallee => exact ⟨_, hcallee, rfl⟩
  | jump hjump => simp_all [Mnemonic.isJump, Mnemonic.isConditionalJump, Instruction.make]
  | plain hplain => simp_all [Mnemonic.isPlain, Instruction.make]

/-- Operands in memory belong to instructions on values and words of storage. -/
theorem placed (h : Closed σ code) (hi : i ∈ code) {o : Operand} (ho : o ∈ i.operands)
    (hkind : o.kind = .memory ∨ i.mnemonic.isPlain) : o.Placed σ := by
  cases h i hi with
  | label => cases ho
  | plain _ hos => exact hos o ho
  | call =>
      obtain rfl := List.mem_singleton.mp ho
      rcases hkind with hkind | hkind <;> cases hkind
  | jump hm =>
      obtain rfl := List.mem_singleton.mp ho
      rcases hkind with hkind | hkind
      · cases hkind
      · simp_all [Mnemonic.isPlain, Instruction.make]
  | lea =>
      simp only [Instruction.make, List.mem_cons, List.not_mem_nil, or_false] at ho
      rcases ho with rfl | rfl <;> rcases hkind with hkind | hkind <;> cases hkind

end Code.Closed

theorem Code.Trims.closed {f : Code → Code} (hf : Code.Trims f) {σ : Surroundings} {code : Code}
    (h : code.Closed σ) : (f code).Closed σ := fun i hi => h i ((hf.sublist code).subset hi)

/-- What a symbol in the text of a closed instruction can be. -/
inductive Surroundings.Names (σ : Surroundings) : String → Prop where
  | label {name : String} (h : name ∈ σ.labels) : Names σ name
  | region {region : DataRegion} (h : region ∈ σ.data) : Names σ region.symbol
  | global {name : String} (h : name ∈ σ.globals) : Names σ (globalSymbol name)
  | callee {name : String} (h : σ.callable name) : Names σ name

theorem Operand.Placed.names {σ : Surroundings} {o : Operand} (h : o.Placed σ) {symbol : String}
    (hsymbol : o.symbol? = some symbol) : σ.Names symbol := by
  have hglobal : ∀ {name : String} {d : Word},
      (Operand.global name d).symbol? = some symbol → symbol = name := by
    intro name d h
    by_cases hempty : name.isEmpty = true <;>
      simp [Operand.symbol?, Operand.global, hempty] at h
    exact h.symm
  cases h with
  | reg | imm | slot | element => cases hsymbol
  | global hname =>
      rw [hglobal hsymbol]
      exact .global hname
  | word hregion hk =>
      rw [hglobal hsymbol]
      exact .region hregion

theorem Instruction.Closed.names {σ : Surroundings} {i : Instruction} (h : i.Closed σ)
    {o : Operand} (ho : o ∈ i.operands) {symbol : String} (hsymbol : o.symbol? = some symbol) :
    σ.Names symbol := by
  cases h with
  | label => cases ho
  | plain _ hos => exact (hos o ho).names hsymbol
  | call hcallee =>
      obtain rfl := List.mem_singleton.mp ho
      cases hsymbol
      exact .callee hcallee
  | jump _ hlabel =>
      obtain rfl := List.mem_singleton.mp ho
      cases hsymbol
      exact .label hlabel
  | lea hregion =>
      simp only [Instruction.make, List.mem_cons, List.not_mem_nil, or_false] at ho
      rcases ho with rfl | rfl
      · cases hsymbol
      · cases hsymbol
        exact .region hregion

namespace Program

/-- Some line of the listing defines or declares the symbol. -/
def Introduces (p : Program) (entry : Option String) (symbol : String) : Prop :=
  ∃ item ∈ p.listingItems entry, symbol ∈ item.introduces

section Listing

variable {p : Program} {entry : Option String}

theorem introduces_label {unit : CompiledUnit} (hunit : unit ∈ p.units) {label : String}
    (hlabel : label ∈ unit.code.labels) : p.Introduces entry label := by
  obtain ⟨i, hi, heq⟩ := List.mem_filterMap.mp hlabel
  have hitem : ListingItem.code i ∈
      p.units.flatMap fun unit => .directive "" :: unit.code.map .code :=
    List.mem_flatMap.mpr ⟨unit, hunit, List.mem_cons_of_mem _ (List.mem_map_of_mem hi)⟩
  refine ⟨.code i, ?_, by simp [ListingItem.introduces, heq]⟩
  simp only [listingItems, List.mem_append]
  tauto

theorem introduces_region {region : DataRegion} (hregion : region ∈ p.regions) :
    p.Introduces entry region.symbol := by
  cases region with
  | string symbol bytes =>
      have hitem : ListingItem.string symbol bytes ∈ p.regions.filterMap ListingItem.ofString? :=
        List.mem_filterMap.mpr ⟨_, hregion, rfl⟩
      have hsome : (p.regions.filterMap ListingItem.ofString?).isEmpty = false :=
        List.isEmpty_eq_false_iff.mpr (List.ne_nil_of_mem hitem)
      refine ⟨.string symbol bytes, ?_, List.mem_singleton.mpr rfl⟩
      simp only [listingItems, List.mem_append, hsome, Bool.false_eq_true, if_false, List.mem_cons]
      tauto
  | reserve symbol quadwords =>
      have hitem : ListingItem.reserve symbol quadwords ∈
          p.regions.filterMap ListingItem.ofReserve? :=
        List.mem_filterMap.mpr ⟨_, hregion, rfl⟩
      refine ⟨.reserve symbol quadwords, ?_, List.mem_singleton.mpr rfl⟩
      simp only [listingItems, List.mem_append]
      tauto

theorem introduces_global {name : String} (hname : name ∈ p.globals) :
    p.Introduces entry (globalSymbol name) := by
  have hitem : ListingItem.global name ∈ p.globals.map .global := List.mem_map_of_mem hname
  refine ⟨.global name, ?_, List.mem_singleton.mpr rfl⟩
  simp only [listingItems, List.mem_append]
  tauto

/-- A function that a unit imports is declared, unless another unit defines it. -/
theorem introduces_import {unit : CompiledUnit} (hunit : unit ∈ p.units) {name : String}
    (hname : name ∈ unit.externs) (hundefined : p.defines name = false) :
    p.Introduces entry name := by
  have himport : name ∈ p.imports := by
    rw [imports, Names.ofList, Names.mem_addAll]
    left
    rw [List.mem_filter]
    exact ⟨List.mem_flatMap.mpr ⟨unit, hunit, hname⟩, by simp [hundefined]⟩
  have hitem : ListingItem.imported name ∈ p.imports.map .imported := List.mem_map_of_mem himport
  refine ⟨.imported name, ?_, List.mem_singleton.mpr rfl⟩
  simp only [listingItems, List.mem_append]
  tauto

theorem introduces_start {name : String} : p.Introduces (some name) "_start" := by
  refine ⟨.entry name, ?_, List.mem_singleton.mpr rfl⟩
  simp [listingItems]

/-- What the listing refers to, line by line. -/
theorem refersTo_cases {item : ListingItem} (hitem : item ∈ p.listingItems entry) {symbol : String}
    (hsymbol : symbol ∈ item.refersTo) :
    (∃ unit ∈ p.units, unit.name = symbol) ∨ (entry.isSome ∧ symbol = "_start") ∨
      entry = some symbol ∨
      ∃ unit ∈ p.units, ∃ i ∈ unit.code, ∃ o ∈ i.operands, o.symbol? = some symbol := by
  simp only [listingItems, List.mem_append, or_assoc] at hitem
  rcases hitem with h | h | h | h | h | h | h | h | h | h
  · obtain ⟨text, -, rfl⟩ := List.mem_map.mp h
    cases hsymbol
  · obtain ⟨unit, hunit, rfl⟩ := List.mem_map.mp h
    exact Or.inl ⟨unit, hunit, (List.mem_singleton.mp hsymbol).symm⟩
  · split at h
    · rename_i hentry
      obtain rfl := List.mem_singleton.mp h
      exact Or.inr (Or.inl ⟨hentry, List.mem_singleton.mp hsymbol⟩)
    · cases h
  · obtain ⟨name, -, rfl⟩ := List.mem_map.mp h
    cases hsymbol
  · obtain ⟨name, hname, rfl⟩ := List.mem_map.mp h
    rw [List.mem_singleton.mp hsymbol]
    exact Or.inr (Or.inr (Or.inl (Option.mem_toList.mp hname)))
  · obtain ⟨unit, hunit, hline⟩ := List.mem_flatMap.mp h
    rcases List.mem_cons.mp hline with rfl | hcode
    · cases hsymbol
    · obtain ⟨i, hi, rfl⟩ := List.mem_map.mp hcode
      simp only [ListingItem.refersTo] at hsymbol
      split at hsymbol
      · cases hsymbol
      · obtain ⟨o, ho, heq⟩ := List.mem_filterMap.mp hsymbol
        exact Or.inr (Or.inr (Or.inr ⟨unit, hunit, i, hi, o, ho, heq⟩))
  · split at h
    · cases h
    · simp only [List.mem_cons] at h
      rcases h with rfl | rfl | h
      · cases hsymbol
      · cases hsymbol
      · obtain ⟨region, -, heq⟩ := List.mem_filterMap.mp h
        cases region <;> cases heq
        cases hsymbol
  · obtain ⟨text, -, rfl⟩ := List.mem_map.mp h
    cases hsymbol
  · obtain ⟨name, -, rfl⟩ := List.mem_map.mp h
    cases hsymbol
  · obtain ⟨region, -, heq⟩ := List.mem_filterMap.mp h
    cases region <;> cases heq
    cases hsymbol

end Listing

end Program

namespace Links

variable {fns : List FunctionDef} {labels : Nat → Nat → Nat} {p : Program} {f : Code → Code}

theorem name_mem_labels (h : Links fns labels p) {unit : CompiledUnit} (hunit : unit ∈ p.units) :
    unit.name ∈ unit.code.labels := by
  obtain ⟨i, hi⟩ := List.mem_iff_getElem?.mp hunit
  obtain ⟨fn, hfn⟩ := h.exists_function hi
  obtain ⟨entry, body, final, hlowered⟩ := lower_eq_ok (h.lowered hfn hi)
  rw [hlowered.unit_eq, Emit.labels_functionCode]
  exact List.mem_cons_self

theorem labels_nodup (h : Links fns labels p) {unit : CompiledUnit} (hunit : unit ∈ p.units) :
    unit.code.labels.Nodup := by
  obtain ⟨i, hi⟩ := List.mem_iff_getElem?.mp hunit
  exact (List.nodup_append.mp (h.unit_definedSymbols_nodup hi)).1

theorem mapCode_closed (h : Links fns labels p) (hf : Code.Trims f) {unit : CompiledUnit}
    (hunit : unit ∈ p.units) : (f unit.code).Closed (p.surroundings unit) :=
  hf.closed (h.unit_closed hunit)

theorem unitClosed_mapCode (h : Links fns labels p) (hf : Code.Trims f) {unit : CompiledUnit}
    (hunit : unit ∈ p.units) : (p.mapCode f).UnitClosed { unit with code := f unit.code } where
  jumps := by
    intro i hi hm
    obtain ⟨label, hlabel, hos⟩ := (h.mapCode_closed hf hunit).jump hi hm
    refine ⟨label, hos, ?_⟩
    rw [hf.labels]
    exact List.count_eq_one_of_mem (h.labels_nodup hunit) hlabel
  addresses := by
    intro i hi hm
    obtain ⟨region, hregion, hos⟩ := (h.mapCode_closed hf hunit).lea hi hm
    exact ⟨.rax, region, hregion, hos⟩
  storage := by
    intro i hi o ho hkind hsymbol
    exact ((h.mapCode_closed hf hunit).placed hi ho (.inl hkind)).storage hkind hsymbol
  calls := by
    intro i hi hm
    obtain ⟨callee, hcallee, hos⟩ := (h.mapCode_closed hf hunit).call hi hm
    refine ⟨callee, hos, ?_⟩
    rcases hcallee with hdefines | hextern
    · left
      rw [← Program.defines_mapCode (f := f)] at hdefines
      simpa [Program.defines] using hdefines
    · exact Or.inr hextern
  values := by
    intro i hi hm o ho
    exact Exec.Resolves.placed_kind ((h.mapCode_closed hf hunit).placed hi ho (.inr hm))

theorem closedIn_mapCode (h : Links fns labels p) (hf : Code.Trims f) (limits : Limits) :
    Exec.ClosedIn (Image.ofProgram (p.mapCode f) limits) := by
  intro u k i hfetch
  rw [Image.fetch?_ofProgram, Program.mapCode_getElem?] at hfetch
  obtain ⟨unit', hunit', hi⟩ := Option.bind_eq_some_iff.mp hfetch
  obtain ⟨unit, hunit, rfl⟩ := Option.map_eq_some_iff.mp hunit'
  have hmem : unit ∈ p.units := List.mem_of_getElem? hunit
  refine ⟨p.surroundings unit, ⟨?_, ?_, ?_, ?_⟩, h.mapCode_closed hf hmem i (List.mem_of_getElem? hi)⟩
  · intro label hlabel
    rw [Image.target?_ofProgram, Program.mapCode_getElem?, hunit]
    apply exists_label_position
    rw [hf.labels]
    exact hlabel
  · intro name hname
    apply Layout.exists_find?_ofRequests
    rw [Program.requests_mapCode]
    exact Layout.globalSymbol_mem_requests hname
  · intro region hregion
    apply Layout.exists_find?_ofRequests
    rw [Program.requests_mapCode]
    exact Layout.symbol_mem_requests hmem hregion
  · exact fun callee hcallee => h.callable_unreserved hmem hcallee

theorem load_mapCode (h : Links fns labels p) (limits : Limits) :
    Machine.load (p.mapCode f) limits =
      .ok (Machine.fresh (Image.ofProgram (p.mapCode f) limits)) := by
  apply Machine.load_eq
  rw [Program.requests_mapCode]
  exact h.requests_nodup

theorem introduces_mapCode (h : Links fns labels p) (hf : Code.Trims f) {unit : CompiledUnit}
    (hunit : unit ∈ p.units) {symbol : String} (hsymbol : (p.surroundings unit).Names symbol)
    (entry : Option String) : (p.mapCode f).Introduces entry symbol := by
  have hlabels : ∀ {other : CompiledUnit} {label : String}, other ∈ p.units →
      label ∈ other.code.labels → (p.mapCode f).Introduces entry label := by
    intro other label hother hlabel
    apply Program.introduces_label (Program.mem_mapCode.mpr ⟨other, hother, rfl⟩)
    rw [hf.labels]
    exact hlabel
  cases hsymbol with
  | label hlabel => exact hlabels hunit hlabel
  | global hname => exact Program.introduces_global hname
  | region hregion =>
      apply Program.introduces_region
      exact List.mem_flatMap.mpr ⟨_, Program.mem_mapCode.mpr ⟨unit, hunit, rfl⟩, hregion⟩
  | callee hcallee =>
      cases hdefines : p.defines symbol with
      | true =>
          obtain ⟨other, hother, hname⟩ := List.any_eq_true.mp hdefines
          obtain rfl : other.name = symbol := by simpa using hname
          exact hlabels hother (h.name_mem_labels hother)
      | false =>
          have hextern : symbol ∈ unit.externs := by
            rcases hcallee with hdefined | hextern
            · rw [hdefines] at hdefined
              cases hdefined
            · exact hextern
          apply Program.introduces_import (Program.mem_mapCode.mpr ⟨unit, hunit, rfl⟩) hextern
          rw [Program.defines_mapCode, hdefines]

theorem listing_mapCode (h : Links fns labels p) (hf : Code.Trims f) {entry : Option String}
    {text : String} (htext : (p.mapCode f).listing entry = .ok text) {item : ListingItem}
    (hitem : item ∈ (p.mapCode f).listingItems entry) {symbol : String}
    (hsymbol : symbol ∈ item.refersTo) : (p.mapCode f).Introduces entry symbol := by
  have hname : ∀ {unit : CompiledUnit}, unit ∈ (p.mapCode f).units →
      (p.mapCode f).Introduces entry unit.name := by
    intro unit hunit
    obtain ⟨old, hold, rfl⟩ := Program.mem_mapCode.mp hunit
    exact h.introduces_mapCode hf hold (.label (h.name_mem_labels hold)) entry
  rcases Program.refersTo_cases hitem hsymbol with
    ⟨unit, hunit, rfl⟩ | ⟨hentry, rfl⟩ | rfl | ⟨unit, hunit, i, hi, o, ho, heq⟩
  · exact hname hunit
  · obtain ⟨name, rfl⟩ := Option.isSome_iff_exists.mp hentry
    exact Program.introduces_start
  · simp only [Program.listing] at htext
    split at htext
    · rename_i hdefines
      obtain ⟨unit, hunit, hunitName⟩ := List.any_eq_true.mp hdefines
      obtain rfl : unit.name = symbol := by simpa using hunitName
      exact hname hunit
    · cases htext
  · obtain ⟨old, hold, rfl⟩ := Program.mem_mapCode.mp hunit
    exact h.introduces_mapCode hf hold ((h.mapCode_closed hf hold i hi).names ho heq) entry

theorem symbolsClosed_mapCode (h : Links fns labels p) (hf : Code.Trims f) :
    (p.mapCode f).SymbolsClosed where
  units := by
    intro unit hunit
    obtain ⟨old, hold, rfl⟩ := Program.mem_mapCode.mp hunit
    exact h.unitClosed_mapCode hf hold
  runs := by
    intro limits
    refine ⟨_, h.load_mapCode limits, ?_⟩
    intro state name args e he
    have hresolved : e.isDangling = false := by
      simp only [Machine.call] at he
      split at he
      · cases he
      · rename_i e' state' hcall
        cases he
        exact Exec.callFunction_resolves (h.closedIn_mapCode hf limits) name args _ _ _ hcall
    constructor
    · rintro site label rfl
      cases hresolved
    · rintro symbol rfl
      cases hresolved
  listing := by
    intro entry text htext
    constructor
    · rw [← Program.listingLines_eq_items]
      simp only [Program.listing] at htext
      split at htext
      · split at htext <;> cases htext
        rfl
      · cases htext
        rfl
    · intro item hitem symbol hsymbol
      exact h.listing_mapCode hf htext hitem hsymbol

end Links

theorem Program.mapCode_id (p : Program) : p.mapCode (fun code => code) = p := by
  simp [mapCode]

/-- Every symbol that a compiled program refers to is defined or declared, and stays
so whatever passes a pipeline runs over it. -/
theorem compile_symbolsClosed {s : Source} {jobs : Nat} {p : Program}
    (hp : s.compile jobs = .ok p) (pipeline : Pipeline) :
    p.SymbolsClosed ∧ (pipeline.run p).1.SymbolsClosed := by
  obtain ⟨fns, -, hlinks⟩ := Source.compile_links hp
  constructor
  · have hsame := hlinks.symbolsClosed_mapCode Code.Trims.id
    rwa [Program.mapCode_id] at hsame
  · rw [Pipeline.run_eq_mapCode]
    exact hlinks.symbolsClosed_mapCode (Code.Trims.runAll pipeline.stages)

/-- A function with every kind of reference: jumps, an imported function, a string, a
list and a global. -/
def tally : FunctionDef where
  name := "tally"
  params := ["n"]
  body := [
    .whileLoop 2 (.name 2 "n") [
      .expr 3 (.call 3 "show" [.constant 3 (.string [104, 105]), .list 3 [.name 3 "n"]]),
      .augAssign 4 (.name 4 "n") .sub (.name 4 "pace")],
    .ret 5 (.call 5 "tally" [.compare 5 .less (.name 5 "n") (.constant 5 (.int 0))])]

theorem tally_symbolsClosed : ∃ p, Source.compile [some tally] 1 = .ok p ∧
    p.SymbolsClosed ∧ (Pipeline.standard.run p).1.SymbolsClosed := by
  obtain ⟨p, hp⟩ : ∃ p, Source.compile [some tally] 1 = .ok p := ⟨_, rfl⟩
  exact ⟨p, hp, compile_symbolsClosed hp Pipeline.standard⟩

end Arbor
