import Mathlib.Tactic
import Arbor.Proofs.Execution
import Arbor.Proofs.Semantics

/-!
The address space of a running program: the data area from `Layout.base` on and the
stack below `Image.stackTop`. As long as the two do not meet, addresses do not wrap,
the stack can be counted in words from its top, and a write to one area leaves the
other as it is.
-/

namespace Arbor

namespace Layout

/-- The words that requests take in all. -/
def total (requests : List (String × Nat)) : Nat := (requests.map fun r => extent r.2).sum

@[simp] theorem total_nil : total [] = 0 := rfl

@[simp] theorem total_cons (r : String × Nat) (rest : List (String × Nat)) :
    total (r :: rest) = extent r.2 + total rest := rfl

theorem toNat_add_words {a : Address} {n : Nat} (h : a.toNat + 8 * n < 2 ^ 64) :
    (a + 8 * UInt64.ofNat n).toNat = a.toNat + 8 * n := by
  simp only [UInt64.toNat_add, UInt64.toNat_mul, UInt64.toNat_ofNat, UInt64.toNat_ofNat']
  omega

theorem toNat_endFrom {a : Address} {requests : List (String × Nat)}
    (h : a.toNat + 8 * total requests < 2 ^ 64) :
    (endFrom a requests).toNat = a.toNat + 8 * total requests := by
  induction requests generalizing a with
  | nil => rfl
  | cons r rest ih =>
      rw [total_cons] at h
      have hnext : (a + 8 * UInt64.ofNat (extent r.2)).toNat = a.toNat + 8 * extent r.2 :=
        toNat_add_words (by omega)
      rw [endFrom, ih (by omega), hnext, total_cons]
      omega

/-- A placement lies within the words its list of requests takes. -/
theorem mem_placedFrom {a : Address} {requests : List (String × Nat)}
    (h : a.toNat + 8 * total requests < 2 ^ 64) {placement : Placement}
    (hmem : placement ∈ placedFrom a requests) :
    ∃ k, placement.address.toNat = a.toNat + 8 * k ∧
      k + extent placement.words ≤ total requests := by
  induction requests generalizing a with
  | nil => cases hmem
  | cons r rest ih =>
      rw [total_cons] at h ⊢
      have hnext : (a + 8 * UInt64.ofNat (extent r.2)).toNat = a.toNat + 8 * extent r.2 :=
        toNat_add_words (by omega)
      rcases List.mem_cons.mp hmem with rfl | hrest
      · exact ⟨0, rfl, by simp⟩
      · obtain ⟨k, haddress, hk⟩ := ih (by omega) hrest
        exact ⟨extent r.2 + k, by omega, by omega⟩

/-- A word of a placement is aligned and lies in the area, if the area does not wrap around. -/
theorem word_bounds {requests : List (String × Nat)}
    (h : base.toNat + 8 * total requests < 2 ^ 64) {placement : Placement}
    (hmem : placement ∈ (ofRequests requests).placements) {k : Nat}
    (hk : k < extent placement.words) :
    (placement.address + 8 * UInt64.ofNat k).toNat % 8 = 0 ∧
      base.toNat ≤ (placement.address + 8 * UInt64.ofNat k).toNat ∧
      (placement.address + 8 * UInt64.ofNat k).toNat < (ofRequests requests).dataEnd.toNat := by
  have hbase : base.toNat = 0x1000 := rfl
  have hend : (ofRequests requests).dataEnd.toNat = base.toNat + 8 * total requests := toNat_endFrom h
  obtain ⟨j, haddress, hj⟩ := mem_placedFrom h hmem
  rw [hend, toNat_add_words (by omega), haddress]
  omega

/-- A symbol is found with the words it asked for. -/
theorem find?_placedFrom {a : Address} {requests : List (String × Nat)}
    (hnodup : (requests.map (·.1)).Nodup) {symbol : String} {words : Nat}
    (hmem : (symbol, words) ∈ requests) :
    ∃ placement, (placedFrom a requests).find? (·.symbol == symbol) = some placement ∧
      placement.words = words := by
  induction requests generalizing a with
  | nil => cases hmem
  | cons r rest ih =>
      obtain ⟨head, n⟩ := r
      rw [List.map_cons, List.nodup_cons] at hnodup
      rcases List.mem_cons.mp hmem with heq | hrest
      · obtain ⟨rfl, rfl⟩ := Prod.mk.inj heq
        exact ⟨{ symbol := symbol, address := a, words := words }, by simp [placedFrom], rfl⟩
      · have hne : head ≠ symbol := by
          rintro rfl
          exact hnodup.1 (List.mem_map.mpr ⟨_, hrest, rfl⟩)
        rw [placedFrom, List.find?_cons_of_neg (by simpa using hne)]
        exact ih hnodup.2 hrest

end Layout

theorem aligned_of_toNat {a : Address} (h : a.toNat % 8 = 0) : a % 8 = 0 := by
  rw [← UInt64.toNat_inj, UInt64.toNat_mod]
  exact h

/-- A word of the stack, counted from the top: the first word pushed is at height 1. -/
def stackAddress (height : Nat) : Address := Image.stackTop - 8 * UInt64.ofNat height

/-- The stack pointer when the stack holds so many words. -/
def stackPointer (height : Nat) : Word := (stackAddress height).toInt64

@[simp] theorem toUInt64_stackPointer (h : Nat) :
    (stackPointer h).toUInt64 = stackAddress h := UInt64.toUInt64_toInt64 _

theorem stackAddress_succ (h : Nat) : stackAddress (h + 1) = stackAddress h - 8 := by
  simp only [stackAddress, UInt64.ofNat_add]
  grind

theorem stackPointer_sub (h : Nat) : stackPointer h - 8 = stackPointer (h + 1) := by
  rw [stackPointer, stackPointer, stackAddress_succ, UInt64.toInt64_sub]
  rfl

theorem stackPointer_add (h : Nat) : stackPointer (h + 1) + 8 = stackPointer h := by
  rw [← stackPointer_sub, Int64.sub_add_cancel]

theorem toNat_stackAddress {h : Nat} (hle : 8 * h ≤ Image.stackTop.toNat) :
    (stackAddress h).toNat = Image.stackTop.toNat - 8 * h := by
  have htop : Image.stackTop.toNat = 0x7fff0000 := rfl
  have hmul : (8 * UInt64.ofNat h).toNat = 8 * h := by
    simp only [UInt64.toNat_mul, UInt64.toNat_ofNat, UInt64.toNat_ofNat']
    omega
  rw [stackAddress, UInt64.toNat_sub_of_le, hmul]
  rw [UInt64.le_iff_toNat_le, hmul]
  exact hle

/-- The data area ends below the lowest of `stackWords` stack words. -/
def Program.Fits (p : Program) (stackWords : Nat) : Prop :=
  Layout.base.toNat + 8 * Layout.total (Layout.requests p) + 8 * stackWords ≤
    Image.stackTop.toNat

instance (p : Program) (stackWords : Nat) : Decidable (p.Fits stackWords) :=
  inferInstanceAs (Decidable (_ ≤ _))

/-- Return addresses hold every place of the code: a return address has 32 bits for the
function and 32 bits for the position in it. -/
structure Program.Addressable (p : Program) : Prop where
  units_lt : p.units.length < 2 ^ 32
  code_lt : ∀ unit ∈ p.units, unit.code.length < 2 ^ 32

/-- Where a program runs: its world and the size of the stack. -/
structure Setting where
  world : World
  stackWords : Nat

namespace Setting

variable {E : Setting}

/-- The program loaded under a step limit, on which steps do not depend. -/
def image (E : Setting) (maxSteps : Nat) : Image :=
  Image.ofProgram E.world.program { maxSteps := maxSteps, maxStackWords := E.stackWords }

abbrev Fits (E : Setting) : Prop := E.world.program.Fits E.stackWords

theorem stackLimit_image (E : Setting) (maxSteps : Nat) :
    (E.image maxSteps).stackLimit = stackAddress E.stackWords := rfl

theorem toNat_stack (hfits : E.Fits) {h : Nat} (hle : h ≤ E.stackWords) :
    (stackAddress h).toNat = Image.stackTop.toNat - 8 * h := by
  unfold Fits Program.Fits at hfits
  exact toNat_stackAddress (by omega)

theorem toNat_dataEnd (hfits : E.Fits) :
    E.world.layout.dataEnd.toNat =
      Layout.base.toNat + 8 * Layout.total (Layout.requests E.world.program) := by
  unfold Fits Program.Fits at hfits
  have htop : Image.stackTop.toNat = 0x7fff0000 := rfl
  exact Layout.toNat_endFrom (by omega)

theorem stackAddress_inj (hfits : E.Fits) {h k : Nat} (hh : h ≤ E.stackWords)
    (hk : k ≤ E.stackWords) (heq : stackAddress h = stackAddress k) : h = k := by
  have hnat := congrArg UInt64.toNat heq
  rw [toNat_stack hfits hh, toNat_stack hfits hk] at hnat
  unfold Fits Program.Fits at hfits
  omega

theorem not_lt_stackLimit (hfits : E.Fits) {h : Nat} (hle : h ≤ E.stackWords)
    (maxSteps : Nat) : ¬stackAddress h < (E.image maxSteps).stackLimit := by
  rw [stackLimit_image, UInt64.lt_iff_toNat_lt, toNat_stack hfits hle,
    toNat_stack hfits (le_refl _)]
  omega

theorem accessible_stack (hfits : E.Fits) {h : Nat} (hpos : 0 < h) (hle : h ≤ E.stackWords)
    (maxSteps : Nat) : (E.image maxSteps).accessTrap? (stackAddress h) = none := by
  have hnat := toNat_stack hfits hle
  have htop : Image.stackTop.toNat = 0x7fff0000 := rfl
  have hbound := hfits
  unfold Fits Program.Fits at hbound
  have haligned : stackAddress h % 8 = 0 := by
    apply aligned_of_toNat
    omega
  have hstack : (E.image maxSteps).isStack (stackAddress h) = true := by
    have hlow : (E.image maxSteps).stackLimit ≤ stackAddress h :=
      UInt64.not_lt.mp (not_lt_stackLimit hfits hle maxSteps)
    have hhigh : stackAddress h < Image.stackTop := by
      rw [UInt64.lt_iff_toNat_lt, hnat]
      omega
    simp [Image.isStack, hlow, hhigh]
  simp [Image.accessTrap?, haligned, hstack]

theorem isData_iff {w : World} {a : Address} :
    w.isData a = true ↔ a % 8 = 0 ∧ Layout.base ≤ a ∧ a < w.layout.dataEnd := by
  simp [World.isData, and_assoc]

theorem accessible_data {a : Address} (h : E.world.isData a = true) (maxSteps : Nat) :
    (E.image maxSteps).accessTrap? a = none := by
  obtain ⟨haligned, hlow, hhigh⟩ := isData_iff.mp h
  have hdata : (E.image maxSteps).isData a = true := by
    have hend : a < (E.image maxSteps).layout.dataEnd := hhigh
    simp [Image.isData, hlow, hend]
  simp [Image.accessTrap?, haligned, hdata]

theorem stackAddress_ne_data (hfits : E.Fits) {h : Nat} (hle : h ≤ E.stackWords) {a : Address}
    (hdata : E.world.isData a = true) : stackAddress h ≠ a := by
  rintro rfl
  have hlt := UInt64.lt_iff_toNat_lt.mp (isData_iff.mp hdata).2.2
  rw [toNat_dataEnd hfits, toNat_stack hfits hle] at hlt
  unfold Fits Program.Fits at hfits
  omega

/-- Every word of a placement is in the data area. -/
theorem isData_of_mem_placements (hfits : E.Fits) {placement : Placement}
    (hmem : placement ∈ E.world.layout.placements) {k : Nat}
    (hk : k < Layout.extent placement.words) :
    E.world.isData (placement.address + 8 * UInt64.ofNat k) = true := by
  have htop : Image.stackTop.toNat = 0x7fff0000 := rfl
  unfold Fits Program.Fits at hfits
  obtain ⟨haligned, hlow, hhigh⟩ := Layout.word_bounds (by omega) hmem hk
  exact isData_iff.mpr ⟨aligned_of_toNat haligned, UInt64.le_iff_toNat_le.mpr hlow,
    UInt64.lt_iff_toNat_lt.mpr hhigh⟩

theorem isData_placement (hfits : E.Fits) {symbol : String} {placement : Placement}
    (hfind : E.world.layout.find? symbol = some placement) {k : Nat}
    (hk : k < Layout.extent placement.words) :
    E.world.isData (placement.address + 8 * UInt64.ofNat k) = true :=
  isData_of_mem_placements hfits (List.mem_of_find?_eq_some hfind) hk

end Setting

namespace Setting

/-- Words of one placement are at different addresses. -/
theorem placement_words_ne {E : Setting} (hfits : E.Fits) {symbol : String} {placement : Placement}
    (hfind : E.world.layout.find? symbol = some placement) {j k : Nat} (hjk : j < k)
    (hk : k < Layout.extent placement.words) :
    placement.address + 8 * UInt64.ofNat j ≠ placement.address + 8 * UInt64.ofNat k := by
  have htop : Image.stackTop.toNat = 0x7fff0000 := rfl
  unfold Fits Program.Fits at hfits
  obtain ⟨i, haddress, hi⟩ := Layout.mem_placedFrom (by omega) (List.mem_of_find?_eq_some hfind)
  intro heq
  have hnat := congrArg UInt64.toNat heq
  rw [Layout.toNat_add_words (by omega), Layout.toNat_add_words (by omega)] at hnat
  omega

end Setting

end Arbor
