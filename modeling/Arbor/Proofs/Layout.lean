import Mathlib
import Arbor.Machine.Inspect

/-!
The data area of a program whose symbols are distinct. Every request is placed
right after the one before it, so the placements are a function of the list of
requests, and a symbol is found exactly where its own request was placed.
-/

namespace Arbor

/-- Under distinct keys every entry is found. -/
theorem lookup_eq_some_iff_mem {α : Type} {entries : List (String × α)}
    (hnodup : (entries.map (·.1)).Nodup) {key : String} {a : α} :
    entries.lookup key = some a ↔ (key, a) ∈ entries := by
  induction entries with
  | nil => simp
  | cons e rest ih =>
      obtain ⟨k, b⟩ := e
      rw [List.map_cons, List.nodup_cons] at hnodup
      by_cases hkey : key = k
      · subst hkey
        have hnot : (key, a) ∉ rest := fun hmem => hnodup.1 (List.mem_map.mpr ⟨_, hmem, rfl⟩)
        simp [List.lookup, hnot, eq_comm]
      · have hbeq : (key == k) = false := by simpa using hkey
        simp [List.lookup, hbeq, ih hnodup.2, hkey]

namespace Layout

/-- A region without words still takes one. -/
def extent (words : Nat) : Nat := if words = 0 then 1 else words

theorem le_extent (words : Nat) : words ≤ extent words := by
  rw [extent]
  split <;> omega

theorem extent_pos (words : Nat) : 0 < extent words := by
  rw [extent]
  split <;> omega

/-- The placements of a list of requests from an address on. -/
def placedFrom (a : Address) : List (String × Nat) → List Placement
  | [] => []
  | (symbol, words) :: rest =>
    { symbol := symbol, address := a, words := words } ::
      placedFrom (a + 8 * UInt64.ofNat (extent words)) rest

/-- The address just after the requests. -/
def endFrom (a : Address) : List (String × Nat) → Address
  | [] => a
  | (_, words) :: rest => endFrom (a + 8 * UInt64.ofNat (extent words)) rest

theorem find?_eq_none_iff {l : Layout} {symbol : String} :
    l.find? symbol = none ↔ symbol ∉ l.placements.map (·.symbol) := by
  simp [find?]

theorem place_eq {l : Layout} {symbol : String} (words : Nat)
    (hnew : symbol ∉ l.placements.map (·.symbol)) :
    l.place symbol words = .ok {
      placements := l.placements ++ placedFrom l.dataEnd [(symbol, words)]
      dataEnd := endFrom l.dataEnd [(symbol, words)] } := by
  rw [place, find?_eq_none_iff.mpr hnew]
  rfl

/-- Distinct symbols are all placed, one after the other. -/
theorem placeAll_eq {l : Layout} {requests : List (String × Nat)}
    (hnodup : (l.placements.map (·.symbol) ++ requests.map (·.1)).Nodup) :
    l.placeAll requests = .ok {
      placements := l.placements ++ placedFrom l.dataEnd requests
      dataEnd := endFrom l.dataEnd requests } := by
  induction requests generalizing l with
  | nil => simp [placeAll, placedFrom, endFrom]
  | cons request rest ih =>
      obtain ⟨symbol, words⟩ := request
      have hnew : symbol ∉ l.placements.map (·.symbol) := by
        intro hmem
        exact (List.nodup_append.mp hnodup).2.2 symbol hmem symbol (by simp) rfl
      rw [placeAll, place_eq words hnew]
      have hrest : ((l.placements ++ placedFrom l.dataEnd [(symbol, words)]).map (·.symbol) ++
          rest.map (·.1)).Nodup := by
        simpa [placedFrom] using hnodup
      refine (ih hrest).trans ?_
      simp [placedFrom, endFrom]

/-- Only distinct symbols are all placed. -/
theorem nodup_of_placeAll {l l' : Layout} {requests : List (String × Nat)}
    (h : l.placeAll requests = .ok l') (hnodup : (l.placements.map (·.symbol)).Nodup) :
    (l.placements.map (·.symbol) ++ requests.map (·.1)).Nodup := by
  induction requests generalizing l with
  | nil => simpa using hnodup
  | cons request rest ih =>
      obtain ⟨symbol, words⟩ := request
      by_cases hnew : symbol ∈ l.placements.map (·.symbol)
      · obtain ⟨placement, hfind⟩ :=
          Option.ne_none_iff_exists'.mp fun hnone => find?_eq_none_iff.mp hnone hnew
        rw [placeAll, place, hfind] at h
        cases h
      · rw [placeAll, place_eq words hnew] at h
        have hnext : ((l.placements ++ placedFrom l.dataEnd [(symbol, words)]).map
            (·.symbol)).Nodup := by
          simp only [placedFrom, List.map_append, List.map_cons, List.map_nil]
          exact List.nodup_append.mpr ⟨hnodup, List.nodup_singleton _, by
            rintro a ha b hb rfl
            exact hnew (List.mem_singleton.mp hb ▸ ha)⟩
        simpa [placedFrom] using ih h hnext

theorem placedFrom_symbols (a : Address) (requests : List (String × Nat)) :
    (placedFrom a requests).map (·.symbol) = requests.map (·.1) := by
  induction requests generalizing a with
  | nil => rfl
  | cons request rest ih => simp [placedFrom, ih]

/-- The layout of a program, as far as its symbols are distinct. -/
def ofRequests (requests : List (String × Nat)) : Layout :=
  { placements := placedFrom base requests, dataEnd := endFrom base requests }

theorem ofProgram_eq {p : Program} (hnodup : ((requests p).map (·.1)).Nodup) :
    ofProgram p = .ok (ofRequests (requests p)) := by
  rw [ofProgram, placeAll_eq (by simpa [empty] using hnodup)]
  simp [ofRequests, empty]

theorem exists_find?_ofRequests {requests : List (String × Nat)} {symbol : String}
    (hmem : symbol ∈ requests.map (·.1)) :
    ∃ placement, (ofRequests requests).find? symbol = some placement := by
  cases hfind : (ofRequests requests).find? symbol with
  | some placement => exact ⟨placement, rfl⟩
  | none =>
      rw [find?_eq_none_iff, ofRequests, placedFrom_symbols] at hfind
      exact absurd hmem hfind

theorem globalSymbol_mem_requests {p : Program} {name : String} (hname : name ∈ p.globals) :
    globalSymbol name ∈ (requests p).map (·.1) := by
  simp only [requests, List.map_append, List.mem_append, List.map_map, List.mem_map]
  exact Or.inl ⟨name, hname, rfl⟩

theorem symbol_mem_requests {p : Program} {unit : CompiledUnit} (hunit : unit ∈ p.units)
    {region : DataRegion} (hregion : region ∈ unit.data) :
    region.symbol ∈ (requests p).map (·.1) := by
  simp only [requests, List.map_append, List.mem_append, List.map_flatMap, List.mem_flatMap]
  exact Or.inr ⟨unit, hunit, by simpa using ⟨region, hregion, rfl⟩⟩

end Layout

/-- A program whose symbols are distinct, loaded. -/
def Image.ofProgram (p : Program) (limits : Limits) : Image where
  units := (p.units.map Image.loadUnit).toArray
  functions := (p.units.zipIdx.map fun (unit, k) => (unit.name, k)).reverse
  layout := Layout.ofRequests (Layout.requests p)
  initial := (Layout.ofRequests (Layout.requests p)).initialMemory p
  limits := limits

/-- The instruction at a place of the code. -/
def Image.fetch? (img : Image) (u k : Nat) : Option Instruction :=
  img.units[u]?.bind (·.code[k]?)

/-- Where a label of a unit is. -/
def Image.target? (img : Image) (u : Nat) (label : String) : Option Nat :=
  img.units[u]?.bind (·.labels.lookup label)

theorem Image.fetch?_ofProgram (p : Program) (limits : Limits) (u k : Nat) :
    (Image.ofProgram p limits).fetch? u k = p.units[u]?.bind (·.code[k]?) := by
  simp [Image.fetch?, Image.ofProgram, Image.loadUnit, Option.bind_map]

theorem Image.target?_ofProgram (p : Program) (limits : Limits) (u : Nat) (label : String) :
    (Image.ofProgram p limits).target? u label =
      p.units[u]?.bind fun unit => (Image.loadUnit unit).labels.lookup label := by
  simp [Image.target?, Image.ofProgram, Option.bind_map]

theorem Machine.load_eq {p : Program} (hnodup : ((Layout.requests p).map (·.1)).Nodup)
    (limits : Limits) : Machine.load p limits = .ok (Machine.fresh (Image.ofProgram p limits)) := by
  rw [Machine.load, Image.load, Layout.ofProgram_eq hnodup]
  rfl

/-- A program that can be loaded has distinct symbols. -/
theorem Machine.eq_of_load {p : Program} {limits : Limits} {m : Machine}
    (h : Machine.load p limits = .ok m) :
    ((Layout.requests p).map (·.1)).Nodup ∧ m = Machine.fresh (Image.ofProgram p limits) := by
  cases hlayout : Layout.ofProgram p with
  | error e =>
      rw [Machine.load, Image.load, hlayout] at h
      cases h
  | ok layout =>
      have hnodup := Layout.nodup_of_placeAll hlayout List.nodup_nil
      rw [Machine.load_eq hnodup] at h
      exact ⟨hnodup, (Except.ok.inj h).symm⟩

end Arbor
