import Mathlib.Tactic
import Arbor.Proofs.Sessions
import Arbor.Proofs.Snapshot

/-!
Where the data of a program lie. Globals and regions follow each other from the start of the data
area on, so if they end below the stack, then no word belongs to two symbols and none to the stack.
Strings are packed into words of their own regions before anything runs, and whatever runs later
writes words that may be accessed only. So memory never holds a word outside of the two areas, and
reading the data back never faults.
-/

namespace Arbor

/-- The bytes that a region takes. -/
def DataRegion.size : DataRegion → Nat
  | .reserve _ quadwords => 8 * max 1 quadwords
  | .string _ bytes => 8 * (bytes.length / 8 + 1)

/-- The bytes that the data of a program take. -/
def Program.dataBytes (p : Program) : Nat :=
  8 * p.globals.length + (p.regions.map (·.size)).sum

theorem DataRegion.size_eq (region : DataRegion) :
    region.size = 8 * Layout.extent region.words := by
  cases region with
  | reserve symbol quadwords =>
      rw [size, words, Layout.extent]
      by_cases hwords : quadwords = 0
      · simp [hwords]
      · rw [if_neg hwords, max_eq_right (by omega)]
  | string symbol bytes => simp [size, words, Layout.extent]

theorem Layout.requests_eq (p : Program) :
    Layout.requests p = p.globals.map (fun name => (globalSymbol name, 1)) ++
      p.regions.map fun region => (region.symbol, region.words) := by
  rw [Layout.requests, Program.regions, List.map_flatMap]

theorem Program.dataBytes_eq (p : Program) :
    p.dataBytes = 8 * Layout.total (Layout.requests p) := by
  have hregions : (p.regions.map (·.size)).sum =
      8 * (p.regions.map fun region => Layout.extent region.words).sum := by
    rw [← List.sum_map_mul_left]
    exact congrArg List.sum (List.map_congr_left fun region _ => region.size_eq)
  have hglobals : (p.globals.map fun _ => Layout.extent 1).sum = p.globals.length := by
    simp [Layout.extent]
  rw [dataBytes, hregions, Layout.total, Layout.requests_eq, List.map_append, List.sum_append,
    List.map_map, List.map_map]
  simp only [Function.comp_def, hglobals]
  omega

/-- The address has been written to since memory was cleared. -/
def Memory.Stored (m : Memory) (a : Address) : Prop := a ∈ m.words

theorem Memory.not_stored_empty (a : Address) : ¬Memory.Stored {} a := by
  simp [Memory.Stored]

theorem Memory.stored_write {m : Memory} {a b : Address} {v : Word} :
    (m.write a v).Stored b ↔ a = b ∨ m.Stored b := by
  simp [Memory.Stored, Memory.write]

/-- Only words that may be accessed are added. -/
theorem Image.Rewrites.stored {img : Image} {m m' : Memory} (h : img.Rewrites m m') {a : Address}
    (ha : m'.Stored a) : m.Stored a ∨ img.accessTrap? a = none := by
  induction h with
  | refl => exact .inl ha
  | tail _ hwrite ih =>
      obtain ⟨b, v, haccess, rfl⟩ := hwrite
      rcases Memory.stored_write.mp ha with rfl | hold
      · exact .inr haccess
      · exact ih hold

theorem Memory.putByte_eq (m : Memory) (a : Address) (i : Nat) (b : UInt8) :
    m.putByte a i b = m.write (a + 8 * UInt64.ofNat (i / 8))
      (m.read (a + 8 * UInt64.ofNat (i / 8)) |||
        (b.toUInt64 <<< UInt64.ofNat (8 * (i % 8))).toInt64) := by
  have hword : UInt64.ofNat (i / 8 * 8) = 8 * UInt64.ofNat (i / 8) := by
    rw [UInt64.ofNat_mul, UInt64.mul_comm]
    rfl
  rw [Memory.putByte, hword]

/-- Packing writes to the words that hold the bytes. -/
theorem Memory.putBytes_preserves {P : Memory → Prop} {a : Address} {i : Nat} {bytes : Bytes}
    {m : Memory}
    (hwrite : ∀ j < i + bytes.length, ∀ m v, P m → P (m.write (a + 8 * UInt64.ofNat (j / 8)) v))
    (h : P m) : P (m.putBytes a i bytes) := by
  induction bytes generalizing i m with
  | nil => exact h
  | cons b rest ih =>
      rw [List.length_cons] at hwrite
      apply ih
      · intro j hj
        exact hwrite j (by omega)
      · rw [Memory.putByte_eq]
        exact hwrite i (by omega) m _ h

theorem Image.accessTrap?_eq_none_iff {img : Image} {a : Address} :
    img.accessTrap? a = none ↔ a.toNat % 8 = 0 ∧ (img.isData a = true ∨ img.isStack a = true) := by
  have haligned : a % 8 = 0 ↔ a.toNat % 8 = 0 := by
    rw [← UInt64.toNat_inj, UInt64.toNat_mod]
    rfl
  rw [← haligned]
  unfold Image.accessTrap?
  split_ifs with hmod harea <;> simp_all

/-- Two placements without a common word: one ends before the other starts. -/
def Placement.Apart (p q : Placement) : Prop :=
  p.address.toNat + 8 * Layout.extent p.words ≤ q.address.toNat ∨
    q.address.toNat + 8 * Layout.extent q.words ≤ p.address.toNat

instance : Std.Symm Placement.Apart := ⟨fun _ _ => Or.symm⟩

namespace Layout

theorem placedFrom_apart {a : Address} {requests : List (String × Nat)}
    (h : a.toNat + 8 * total requests < 2 ^ 64) :
    (placedFrom a requests).Pairwise Placement.Apart := by
  induction requests generalizing a with
  | nil => exact .nil
  | cons r rest ih =>
      rw [total_cons] at h
      have hnext : (a + 8 * UInt64.ofNat (extent r.2)).toNat = a.toNat + 8 * extent r.2 :=
        toNat_add_words (by omega)
      apply List.Pairwise.cons
      · intro q hq
        obtain ⟨k, hk, -⟩ := mem_placedFrom (by omega) hq
        apply Or.inl
        dsimp only
        omega
      · apply ih
        omega

theorem mem_of_find? {l : Layout} {symbol : String} {placement : Placement}
    (hfind : l.find? symbol = some placement) :
    placement ∈ l.placements ∧ placement.symbol = symbol := by
  constructor
  · exact List.mem_of_find?_eq_some hfind
  · simpa using List.find?_some hfind

theorem string_mem_requests {p : Program} {symbol : String} {bytes : Bytes}
    (hregion : .string symbol bytes ∈ p.regions) :
    (symbol, bytes.length / 8 + 1) ∈ requests p := by
  rw [requests_eq]
  exact List.mem_append_right _ (List.mem_map.mpr ⟨_, hregion, rfl⟩)

/-- One region of the initial memory: strings are packed, and reserved words stay zero. -/
def putRegion (l : Layout) (m : Memory) (region : DataRegion) : Memory :=
  match region, l.find? region.symbol with
  | .string _ bytes, some placement => m.putBytes placement.address 0 bytes
  | _, _ => m

theorem initialMemory_eq (l : Layout) (p : Program) :
    l.initialMemory p = p.regions.foldl l.putRegion {} := rfl

end Layout

/-- A program is loaded, and its data end below the stack. -/
structure Image.Houses (img : Image) (p : Program) : Prop where
  nodup : ((Layout.requests p).map (·.1)).Nodup
  layout : img.layout = Layout.ofRequests (Layout.requests p)
  initial : img.initial = img.layout.initialMemory p
  room : Layout.base.toNat + p.dataBytes ≤ img.stackLimit.toNat

theorem Machine.houses_of_load {p : Program} {limits : Limits} {m : Machine}
    (hload : Machine.load p limits = .ok m)
    (hfits : Layout.base.toNat + p.dataBytes ≤ m.image.stackLimit.toNat) : m.image.Houses p := by
  obtain ⟨hnodup, rfl⟩ := Machine.eq_of_load hload
  exact ⟨hnodup, rfl, rfl, hfits⟩

/-- The words that belong to a symbol. A region without words still has one. -/
def Image.IsWordOf (img : Image) (symbol : String) (b : Address) : Prop :=
  ∃ placement, img.layout.find? symbol = some placement ∧
    ∃ k < Layout.extent placement.words, b = placement.address + 8 * UInt64.ofNat k

namespace Image.Houses

variable {img : Image} {p : Program} {symbol symbol' : String} {placement : Placement}

theorem total_lt (h : img.Houses p) :
    Layout.base.toNat + 8 * Layout.total (Layout.requests p) < 2 ^ 64 := by
  have hroom := h.room
  have hlimit := img.stackLimit.toNat_lt
  rw [p.dataBytes_eq] at hroom
  omega

theorem dataEnd_eq (h : img.Houses p) :
    img.layout.dataEnd.toNat = Layout.base.toNat + p.dataBytes := by
  rw [h.layout, p.dataBytes_eq]
  exact Layout.toNat_endFrom h.total_lt

/-- Every symbol that asked for words has got them. -/
theorem exists_placement (h : img.Houses p) {words : Nat}
    (hmem : (symbol, words) ∈ Layout.requests p) :
    ∃ placement, img.layout.find? symbol = some placement ∧ placement.words = words := by
  rw [h.layout]
  exact Layout.find?_placedFrom h.nodup hmem

theorem placement_bounds (h : img.Houses p) (hmem : placement ∈ img.layout.placements) :
    Layout.base.toNat ≤ placement.address.toNat ∧
      placement.address.toNat + 8 * Layout.extent placement.words ≤ img.layout.dataEnd.toNat := by
  rw [h.dataEnd_eq, p.dataBytes_eq]
  rw [h.layout] at hmem
  obtain ⟨j, haddress, hj⟩ := Layout.mem_placedFrom h.total_lt hmem
  omega

/-- The words of a placement, counted without wrap-around. -/
theorem toNat_word (h : img.Houses p) (hmem : placement ∈ img.layout.placements) {k : Nat}
    (hk : k < Layout.extent placement.words) :
    (placement.address + 8 * UInt64.ofNat k).toNat = placement.address.toNat + 8 * k := by
  have hend := (h.placement_bounds hmem).2
  have hlt := img.layout.dataEnd.toNat_lt
  exact Layout.toNat_add_words (by omega)

/-- A symbol's words are where its address says. -/
theorem isWordOf_iff (h : img.Houses p) (hfind : img.layout.find? symbol = some placement)
    {b : Address} : img.IsWordOf symbol b ↔
      ∃ k < Layout.extent placement.words, b.toNat = placement.address.toNat + 8 * k := by
  have hmem := (Layout.mem_of_find? hfind).1
  constructor
  · rintro ⟨found, hfound, k, hk, rfl⟩
    rw [hfind] at hfound
    cases hfound
    exact ⟨k, hk, h.toNat_word hmem hk⟩
  · rintro ⟨k, hk, hb⟩
    refine ⟨placement, hfind, k, hk, ?_⟩
    rw [← UInt64.toNat_inj, h.toNat_word hmem hk, hb]

/-- The words of a placement are aligned words of the data area, and not of the stack. -/
theorem isData_word (h : img.Houses p) (hmem : placement ∈ img.layout.placements) {k : Nat}
    (hk : k < Layout.extent placement.words) :
    (placement.address + 8 * UInt64.ofNat k).toNat % 8 = 0 ∧
      img.isData (placement.address + 8 * UInt64.ofNat k) = true ∧
      img.isStack (placement.address + 8 * UInt64.ofNat k) = false := by
  rw [h.layout] at hmem
  obtain ⟨haligned, hlow, hhigh⟩ := Layout.word_bounds h.total_lt hmem hk
  rw [← h.layout] at hhigh
  have hbelow : ¬img.stackLimit ≤ placement.address + 8 * UInt64.ofNat k := by
    have hroom := h.room
    rw [h.dataEnd_eq] at hhigh
    rw [UInt64.le_iff_toNat_le]
    omega
  refine ⟨haligned, ?_, by simp [Image.isStack, hbelow]⟩
  rw [Image.isData, Bool.and_eq_true, decide_eq_true_eq, decide_eq_true_eq]
  exact ⟨UInt64.le_iff_toNat_le.mpr hlow, UInt64.lt_iff_toNat_lt.mpr hhigh⟩

theorem accessible_word (h : img.Houses p) (hmem : placement ∈ img.layout.placements) {k : Nat}
    (hk : k < Layout.extent placement.words) :
    img.accessTrap? (placement.address + 8 * UInt64.ofNat k) = none := by
  obtain ⟨haligned, hdata, -⟩ := h.isData_word hmem hk
  exact Image.accessTrap?_eq_none_iff.mpr ⟨haligned, .inl hdata⟩

theorem accessible (h : img.Houses p) {b : Address} (hb : img.IsWordOf symbol b) :
    img.accessTrap? b = none := by
  obtain ⟨placement, hfind, k, hk, rfl⟩ := hb
  exact h.accessible_word (Layout.mem_of_find? hfind).1 hk

theorem placements_apart (h : img.Houses p) {placement' : Placement}
    (hfind : img.layout.find? symbol = some placement)
    (hfind' : img.layout.find? symbol' = some placement') (hne : symbol ≠ symbol') :
    placement.Apart placement' := by
  obtain ⟨hmem, rfl⟩ := Layout.mem_of_find? hfind
  obtain ⟨hmem', rfl⟩ := Layout.mem_of_find? hfind'
  rw [h.layout] at hmem hmem'
  apply (Layout.placedFrom_apart h.total_lt).forall hmem hmem'
  rintro rfl
  exact hne rfl

/-- A word belongs to one symbol. -/
theorem symbol_unique (h : img.Houses p) {b : Address} (hb : img.IsWordOf symbol b)
    (hb' : img.IsWordOf symbol' b) : symbol' = symbol := by
  obtain ⟨placement, hfind, k, hk, rfl⟩ := hb
  obtain ⟨placement', hfind', k', hk', heq⟩ := hb'
  by_contra hne
  have hnat := congrArg UInt64.toNat heq
  rw [h.toNat_word (Layout.mem_of_find? hfind).1 hk,
    h.toNat_word (Layout.mem_of_find? hfind').1 hk'] at hnat
  rcases h.placements_apart hfind hfind' (Ne.symm hne) with hapart | hapart
  · omega
  · omega

/-- A store to a word of a symbol succeeds, and no word of another symbol changes. -/
theorem store_word (h : img.Houses p) {b : Address} (hb : img.IsWordOf symbol b) (v : Word)
    (s : MachineState) :
    ∃ s', Exec.store img b v s = .ok () s' ∧ s'.memory.read b = v ∧
      ∀ symbol' b', symbol' ≠ symbol → img.IsWordOf symbol' b' →
        s'.memory.read b' = s.memory.read b' := by
  refine ⟨s.setWord b v, Exec.store_of_accessible (h.accessible hb), by simp, ?_⟩
  intro symbol' b' hne hb'
  rw [MachineState.setWord_memory, Memory.read_write, if_neg]
  rintro rfl
  exact hne (h.symbol_unique hb hb')

/-- A string is placed with the words it takes. -/
theorem string_words (h : img.Houses p) {bytes : Bytes}
    (hregion : .string symbol bytes ∈ p.regions)
    (hfind : img.layout.find? symbol = some placement) :
    placement.words = bytes.length / 8 + 1 := by
  obtain ⟨found, hfound, hwords⟩ := h.exists_placement (Layout.string_mem_requests hregion)
  rw [hfind] at hfound
  cases hfound
  exact hwords

/-- Laying out regions writes to words of their symbols. -/
theorem putRegions_preserves (h : img.Houses p) {P : Memory → Prop} {regions : List DataRegion}
    (hregions : ∀ region ∈ regions, region ∈ p.regions)
    (hwrite : ∀ region ∈ regions, ∀ b, img.IsWordOf region.symbol b → ∀ m v, P m → P (m.write b v))
    {m : Memory} (hm : P m) : P (regions.foldl img.layout.putRegion m) := by
  induction regions generalizing m with
  | nil => exact hm
  | cons region rest ih =>
      rw [List.forall_mem_cons] at hregions hwrite
      apply ih hregions.2 hwrite.2
      unfold Layout.putRegion
      split
      · rename_i symbol bytes placement hfind
        have hwords := h.string_words hregions.1 hfind
        have hextent := Layout.le_extent placement.words
        apply Memory.putBytes_preserves _ hm
        intro j hj
        apply hwrite.1
        exact ⟨placement, hfind, j / 8, by omega, rfl⟩
      · exact hm

/-- The initial memory is written word by word, too. -/
theorem rewrites_initial (h : img.Houses p) : img.Rewrites {} img.initial := by
  rw [h.initial, Layout.initialMemory_eq]
  apply h.putRegions_preserves (fun _ => id)
  · intro region _ b hb m v hm
    exact hm.tail ⟨b, v, h.accessible hb, rfl⟩
  · exact .refl

/-- Whatever was done, memory holds no word outside of the data and the stack. -/
theorem stored_accessible {m : Machine} (h : m.image.Houses p)
    (hstart : m.state.memory = m.image.initial) (session : List Operation) {a : Address}
    (ha : (m.after session).state.memory.Stored a) : m.image.accessTrap? a = none := by
  have hrewrites : m.image.Rewrites m.image.initial (m.after session).state.memory := by
    apply Machine.after_rewrites
    rw [hstart]
    exact .refl
  rcases Image.Rewrites.stored (h.rewrites_initial.trans hrewrites) ha with hempty | haccess
  · exact absurd hempty (Memory.not_stored_empty a)
  · exact haccess

theorem exists_snapshot {m : Machine} (h : m.image.Houses p) :
    ∃ regions, m.snapshot = .ok regions := by
  refine ⟨_, Machine.readPlacements_eq ?_⟩
  intro placement hmem k hk
  apply h.accessible_word (Layout.mem_bySymbol.mp hmem)
  exact Nat.lt_of_lt_of_le hk (Layout.le_extent placement.words)

theorem exists_readGlobal {m : Machine} (h : m.image.Houses p) {name : String}
    (hname : name ∈ p.globals) : ∃ w, m.readGlobal name = .ok w := by
  have hmem : (globalSymbol name, 1) ∈ Layout.requests p := by
    rw [Layout.requests_eq]
    exact List.mem_append_left _ (List.mem_map.mpr ⟨name, hname, rfl⟩)
  obtain ⟨placement, hfind, -⟩ := h.exists_placement hmem
  have haccess := h.accessible_word (Layout.mem_of_find? hfind).1 (Layout.extent_pos _)
  rw [show placement.address + 8 * UInt64.ofNat 0 = placement.address by simp] at haccess
  refine ⟨m.state.memory.read placement.address, ?_⟩
  simp [Machine.readGlobal, Machine.symbolAddress, Image.symbolAddress, hfind, Machine.readWord,
    Image.load?, haccess, bind, Except.bind]

end Image.Houses

/-- Symbols, stack and the rest of memory are kept apart. Where the data of a loaded program end
at or below the lowest stack address, each symbol has its words in the data area and shares none
with another symbol or with the stack, so that a store to one of them shows in no other symbol.
No session changes this: afterwards the data can still be read back, and memory holds aligned
words of the two areas only. -/
theorem Machine.data_separated {p : Program} {limits : Limits} {m : Machine}
    (hload : Machine.load p limits = .ok m)
    (hfits : Layout.base.toNat + p.dataBytes ≤ m.image.stackLimit.toNat) :
    m.image.layout.dataEnd.toNat = Layout.base.toNat + p.dataBytes ∧
    (∀ symbol words, (symbol, words) ∈ Layout.requests p →
      ∃ a, m.symbolAddress symbol = .ok a ∧ Layout.base.toNat ≤ a.toNat ∧
        a.toNat + 8 * Layout.extent words ≤ m.image.layout.dataEnd.toNat ∧
        ∀ b, m.image.IsWordOf symbol b ↔ ∃ k < Layout.extent words, b.toNat = a.toNat + 8 * k) ∧
    (∀ symbol b, m.image.IsWordOf symbol b →
      b.toNat % 8 = 0 ∧ m.image.isData b = true ∧ m.image.isStack b = false ∧
      (∀ symbol', m.image.IsWordOf symbol' b → symbol' = symbol) ∧
      ∀ v s, ∃ s', Exec.store m.image b v s = .ok () s' ∧ s'.memory.read b = v ∧
        ∀ symbol' b', symbol' ≠ symbol → m.image.IsWordOf symbol' b' →
          s'.memory.read b' = s.memory.read b') ∧
    ∀ session,
      (∃ regions, (m.after session).snapshot = .ok regions) ∧
      (∀ name ∈ p.globals, ∃ w, (m.after session).readGlobal name = .ok w) ∧
      ∀ a, (m.after session).state.memory.Stored a →
        a.toNat % 8 = 0 ∧ (m.image.isData a = true ∨ m.image.isStack a = true) := by
  have h := Machine.houses_of_load hload hfits
  have hstart : m.state.memory = m.image.initial := by
    rw [Machine.state_of_load hload]
  refine ⟨h.dataEnd_eq, ?_, ?_, ?_⟩
  · intro symbol words hrequest
    obtain ⟨placement, hfind, rfl⟩ := h.exists_placement hrequest
    obtain ⟨hlow, hhigh⟩ := h.placement_bounds (Layout.mem_of_find? hfind).1
    refine ⟨placement.address, ?_, hlow, hhigh, fun b => h.isWordOf_iff hfind⟩
    rw [Machine.symbolAddress, Image.symbolAddress, hfind]
  · intro symbol b hb
    obtain ⟨placement, hfind, k, hk, rfl⟩ := id hb
    obtain ⟨haligned, hdata, hstack⟩ := h.isData_word (Layout.mem_of_find? hfind).1 hk
    exact ⟨haligned, hdata, hstack, fun symbol' hb' => h.symbol_unique hb hb', h.store_word hb⟩
  · intro session
    have hafter : (m.after session).image.Houses p := by rwa [Machine.after_image]
    refine ⟨hafter.exists_snapshot, fun name hname => hafter.exists_readGlobal hname, ?_⟩
    intro a ha
    exact Image.accessTrap?_eq_none_iff.mp (h.stored_accessible hstart session ha)

namespace Machine

/-- The turnstile with the largest stack that leaves its data alone. -/
def crowdedTurnstile : Machine := .fresh (Image.ofProgram turnstile { maxStackWords := 268426745 })

/-- The stack starts right behind the data. Even so the region without words has one of its own,
and the session, with its faulting call, leaves all of the data readable. -/
theorem crowdedTurnstile_separated :
    Machine.load turnstile { maxStackWords := 268426745 } = .ok crowdedTurnstile ∧
    Layout.base.toNat + turnstile.dataBytes = crowdedTurnstile.image.stackLimit.toNat ∧
    crowdedTurnstile.image.layout.dataEnd.toNat = crowdedTurnstile.image.stackLimit.toNat ∧
    (∃ a, crowdedTurnstile.symbolAddress "list_0" = .ok a ∧
      ∀ b, crowdedTurnstile.image.IsWordOf "list_0" b ↔
        ∃ k < Layout.extent 0, b.toNat = a.toNat + 8 * k) ∧
    ∃ regions, (crowdedTurnstile.after turnstileSession).snapshot = .ok regions := by
  have hload : Machine.load turnstile { maxStackWords := 268426745 } = .ok crowdedTurnstile := rfl
  have hfits : Layout.base.toNat + turnstile.dataBytes =
      crowdedTurnstile.image.stackLimit.toNat := by decide
  obtain ⟨hend, hwords, -, hsession⟩ := data_separated hload hfits.le
  obtain ⟨a, ha, -, -, hiff⟩ := hwords "list_0" 0 (by decide)
  exact ⟨hload, hfits, hend.trans hfits, ⟨a, ha, hiff⟩, (hsession turnstileSession).1⟩

end Machine

end Arbor
