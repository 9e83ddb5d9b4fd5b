import Mathlib.Tactic
import Arbor.Proofs.Separation

/-!
Strings in the data area. A string is packed eight bytes to a word, first byte lowest, by adding
bits to words that are zero, and it always leaves a zero byte behind. So as long as nobody has
written to its words, it reads back up to its first zero byte, and only its own words are looked at.
-/

namespace Arbor

namespace Memory

/-- The byte of a word at a place from 0 to 7. -/
def lane (w : Word) (j : Nat) : UInt8 := (w.toUInt64 >>> UInt64.ofNat (8 * j)).toUInt8

theorem getLsbD_lane {w : Word} {j t : Nat} (hj : j < 8) :
    (lane w j).toBitVec.getLsbD t = (decide (t < 8) && w.toBitVec.getLsbD (8 * j + t)) := by
  have hshift : 8 * j % 64 = 8 * j := Nat.mod_eq_of_lt (by omega)
  simp [lane, hshift]

theorem lane_zero {j : Nat} (hj : j < 8) : lane 0 j = 0 := by
  apply UInt8.toBitVec_inj.mp
  apply BitVec.eq_of_getLsbD_eq
  intro t ht
  simp [getLsbD_lane hj]

theorem getLsbD_shifted {b : UInt8} {i t : Nat} (hi : i < 8) :
    (b.toUInt64 <<< UInt64.ofNat (8 * i)).toInt64.toBitVec.getLsbD t =
      (decide (8 * i ≤ t) && decide (t < 64) && b.toBitVec.getLsbD (t - 8 * i)) := by
  have hshift : 8 * i % 64 = 8 * i := Nat.mod_eq_of_lt (by omega)
  simp [hshift]
  grind

/-- A byte is added at its own place. -/
theorem lane_or (w : Word) (b : UInt8) {i j : Nat} (hi : i < 8) (hj : j < 8) :
    lane (w ||| (b.toUInt64 <<< UInt64.ofNat (8 * i)).toInt64) j =
      if i = j then lane w j ||| b else lane w j := by
  apply UInt8.toBitVec_inj.mp
  apply BitVec.eq_of_getLsbD_eq
  intro t ht
  rw [getLsbD_lane hj, Int64.toBitVec_or, BitVec.getLsbD_or, getLsbD_shifted hi]
  split_ifs with hij
  · subst hij
    rw [UInt8.toBitVec_or, BitVec.getLsbD_or, getLsbD_lane hj]
    have hlt : 8 * i + t < 64 := by omega
    simp [ht, hlt]
  · rw [getLsbD_lane hj]
    by_cases hle : 8 * i ≤ 8 * j + t
    · -- The byte ends below the place.
      have hout : b.toBitVec.getLsbD (8 * j + t - 8 * i) = false := by
        apply BitVec.getLsbD_of_ge
        omega
      simp [hout]
    · simp [hle]

theorem byteIn_eq (w : Word) (x : Address) : byteIn w x = lane w (x.toNat % 8) := by
  have hmask : x.toNat &&& 7 = x.toNat % 8 := Nat.and_two_pow_sub_one_eq_mod _ 3
  have hshift : 8 * (x &&& 7) = UInt64.ofNat (8 * (x.toNat % 8)) := by
    apply UInt64.toNat_inj.mp
    simp [hmask]
  rw [byteIn, lane, hshift]

/-- The word of a byte, and the place of the byte in it. -/
theorem word_of_byte {a : Address} {n : Nat} (haligned : a.toNat % 8 = 0)
    (hn : a.toNat + n < 2 ^ 64) :
    a + UInt64.ofNat n - (a + UInt64.ofNat n) % 8 = a + 8 * UInt64.ofNat (n / 8) ∧
      (a + UInt64.ofNat n).toNat % 8 = n % 8 := by
  have hbyte : (a + UInt64.ofNat n).toNat = a.toNat + n := by
    rw [UInt64.toNat_add, UInt64.toNat_ofNat']
    omega
  have hmod : ((a + UInt64.ofNat n) % 8).toNat = n % 8 := by
    rw [UInt64.toNat_mod, hbyte]
    change (a.toNat + n) % 8 = n % 8
    omega
  constructor
  · rw [← UInt64.toNat_inj, UInt64.toNat_sub_of_le, hmod, hbyte, Layout.toNat_add_words (by omega)]
    · omega
    · rw [UInt64.le_iff_toNat_le]
      omega
  · rw [hbyte]
    omega

/-- The byte at a place of the words from an address on. -/
def byteAt (m : Memory) (a : Address) (n : Nat) : UInt8 :=
  lane (m.read (a + 8 * UInt64.ofNat (n / 8))) (n % 8)

theorem byteAt_empty (a : Address) (n : Nat) : byteAt {} a n = 0 := by
  rw [byteAt, read_empty]
  exact lane_zero (Nat.mod_lt n (by decide))

variable {m : Memory} {a : Address} {i n : Nat}

theorem byteAt_write_of_ne {b : Address} {v : Word} (h : b ≠ a + 8 * UInt64.ofNat (n / 8)) :
    (m.write b v).byteAt a n = m.byteAt a n := by
  rw [byteAt, read_write, if_neg h, byteAt]

theorem byteAt_putByte (hi : i < 2 ^ 64) (hn : n < 2 ^ 64) (b : UInt8) :
    (m.putByte a i b).byteAt a n = if i = n then m.byteAt a n ||| b else m.byteAt a n := by
  rw [putByte_eq]
  by_cases hword : i / 8 = n / 8
  · have hlane : i % 8 = n % 8 ↔ i = n := by omega
    rw [hword, byteAt, read_write_self, lane_or _ _ (Nat.mod_lt _ (by decide))
      (Nat.mod_lt _ (by decide)), byteAt]
    simp only [hlane]
  · have hne : i ≠ n := by
      rintro rfl
      exact hword rfl
    rw [if_neg hne]
    apply byteAt_write_of_ne
    intro heq
    have hnat := congrArg UInt64.toNat ((UInt64.add_right_inj a).mp heq)
    simp only [UInt64.toNat_mul, UInt64.toNat_ofNat, UInt64.toNat_ofNat'] at hnat
    omega

/-- Bytes are added where they are put. -/
theorem byteAt_putBytes {bytes : Bytes} (hi : i + bytes.length ≤ 2 ^ 64) (hn : n < 2 ^ 64) :
    (m.putBytes a i bytes).byteAt a n =
      if i ≤ n then m.byteAt a n ||| bytes.getD (n - i) 0 else m.byteAt a n := by
  induction bytes generalizing i m with
  | nil => simp [putBytes]
  | cons b rest ih =>
      rw [List.length_cons] at hi
      rw [putBytes, ih (by omega), byteAt_putByte (by omega) hn]
      rcases Nat.lt_trichotomy i n with hlt | rfl | hgt
      · have hnext : n - i = n - (i + 1) + 1 := by omega
        rw [if_pos (Nat.succ_le_of_lt hlt), if_neg hlt.ne, if_pos hlt.le, hnext,
          List.getD_cons_succ]
      · rw [if_neg (by omega), if_pos rfl, if_pos le_rfl, Nat.sub_self, List.getD_cons_zero]
      · rw [if_neg (by omega), if_neg hgt.ne', if_neg (by omega)]

end Memory

namespace Image.Houses

variable {img : Image} {p : Program} {symbol : String} {placement : Placement} {bytes : Bytes}

/-- Regions of other symbols leave the bytes of a placement alone. -/
theorem byteAt_putRegions (h : img.Houses p) (hfind : img.layout.find? symbol = some placement)
    {n : Nat} (hn : n / 8 < Layout.extent placement.words) {regions : List DataRegion}
    (hother : ∀ other ∈ regions, other ∈ p.regions ∧ other.symbol ≠ symbol) (m : Memory) :
    (regions.foldl img.layout.putRegion m).byteAt placement.address n =
      m.byteAt placement.address n := by
  apply h.putRegions_preserves (fun other hmem => (hother other hmem).1) (P := fun m' =>
    m'.byteAt placement.address n = m.byteAt placement.address n)
  · intro other hmem b hb m' v hm
    rw [Memory.byteAt_write_of_ne, hm]
    rintro rfl
    exact (hother other hmem).2 (h.symbol_unique ⟨placement, hfind, n / 8, hn, rfl⟩ hb)
  · rfl

/-- A region is the only one with its symbol. -/
theorem regions_split (h : img.Houses p) {region : DataRegion} (hregion : region ∈ p.regions) :
    ∃ before behind, p.regions = before ++ region :: behind ∧
      ∀ other ∈ before ++ behind, other ∈ p.regions ∧ other.symbol ≠ region.symbol := by
  obtain ⟨before, behind, hsplit⟩ := List.append_of_mem hregion
  have hnodup := h.nodup
  rw [Layout.requests_eq, List.map_append, List.map_map, List.map_map] at hnodup
  have hsymbols : ((before ++ region :: behind).map (·.symbol)).Nodup := by
    rw [← hsplit]
    exact (List.nodup_append.mp hnodup).2.1
  rw [List.map_append, List.map_cons, List.nodup_middle, List.nodup_cons, ← List.map_append]
    at hsymbols
  refine ⟨before, behind, hsplit, ?_⟩
  intro other hmem
  constructor
  · rw [hsplit]
    simp only [List.mem_append, List.mem_cons] at hmem ⊢
    tauto
  · intro heq
    exact hsymbols.1 (List.mem_map.mpr ⟨other, hmem, heq⟩)

theorem string_end_lt (h : img.Houses p) (hregion : .string symbol bytes ∈ p.regions)
    (hfind : img.layout.find? symbol = some placement) :
    placement.address.toNat + bytes.length < 2 ^ 64 := by
  have hwords := h.string_words hregion hfind
  have hextent := Layout.le_extent placement.words
  have hend := (h.placement_bounds (Layout.mem_of_find? hfind).1).2
  have hlt := img.layout.dataEnd.toNat_lt
  omega

/-- A string starts out in its words, with a zero byte behind it. -/
theorem byteAt_initial (h : img.Houses p) (hregion : .string symbol bytes ∈ p.regions)
    (hfind : img.layout.find? symbol = some placement) {n : Nat} (hn : n ≤ bytes.length) :
    img.initial.byteAt placement.address n = bytes.getD n 0 := by
  have hwords := h.string_words hregion hfind
  have hextent := Layout.le_extent placement.words
  have hend := h.string_end_lt hregion hfind
  have hplace : n / 8 < Layout.extent placement.words := by omega
  obtain ⟨before, behind, hsplit, hother⟩ := h.regions_split hregion
  rw [List.forall_mem_append] at hother
  have hput : ∀ m, img.layout.putRegion m (.string symbol bytes) =
      m.putBytes placement.address 0 bytes := by
    intro m
    simp [Layout.putRegion, DataRegion.symbol, hfind]
  rw [h.initial, Layout.initialMemory_eq, hsplit, List.foldl_append, List.foldl_cons,
    h.byteAt_putRegions hfind hplace hother.2, hput,
    Memory.byteAt_putBytes (by omega) (by omega),
    h.byteAt_putRegions hfind hplace hother.1, Memory.byteAt_empty]
  simp

end Image.Houses

namespace Machine

/-- At most `n` bytes up to the first zero byte, from any source of words. -/
def readBytesFrom (load : Address → Except Fault Word) (a : Address) : Nat → Except Fault Bytes
  | 0 => .ok []
  | n + 1 =>
    (load (a - a % 8)).bind fun word =>
      if Memory.byteIn word a = 0 then .ok []
      else (readBytesFrom load (a + 1) n).map (Memory.byteIn word a :: ·)

/-- The bytes up to the first zero byte, from any source of words. -/
def readStringFrom (load : Address → Except Fault Word) (a : Address) : Except Fault Bytes :=
  readBytesFrom load a 0x10000000000000000

/-- A machine takes the words from its memory. -/
theorem readBytes_eq (m : Machine) (a : Address) (n : Nat) :
    m.readBytes a n = readBytesFrom m.readWord a n := by
  induction n generalizing a with
  | zero => rfl
  | succ n ih => rw [readBytes_succ, readBytesFrom, ih]

theorem readString_eq (m : Machine) (a : Address) :
    m.readString a = readStringFrom m.readWord a := m.readBytes_eq a _

/-- Words that hold some bytes and a zero byte read as the bytes up to their first zero. -/
theorem readBytesFrom_eq {load : Address → Except Fault Word} {a : Address} {bytes : Bytes}
    {fuel : Nat} (hfuel : bytes.length < fuel)
    (hbytes : ∀ n ≤ bytes.length, ∃ w,
      load (a + UInt64.ofNat n - (a + UInt64.ofNat n) % 8) = .ok w ∧
      Memory.byteIn w (a + UInt64.ofNat n) = bytes.getD n 0) :
    readBytesFrom load a fuel = .ok (bytes.takeWhile (· ≠ 0)) := by
  have hhere (x : Address) : x + UInt64.ofNat 0 = x := by simp
  induction bytes generalizing a fuel with
  | nil =>
      obtain ⟨w, hw, hzero⟩ := hbytes 0 le_rfl
      obtain ⟨fuel, rfl⟩ := Nat.exists_eq_add_one_of_ne_zero (Nat.ne_of_gt hfuel)
      rw [hhere] at hw hzero
      rw [readBytesFrom, hw]
      simp [Except.bind, hzero]
  | cons b rest ih =>
      obtain ⟨w, hw, hfirst⟩ := hbytes 0 (Nat.zero_le _)
      obtain ⟨fuel, rfl⟩ := Nat.exists_eq_add_one_of_ne_zero (Nat.ne_zero_of_lt hfuel)
      rw [hhere] at hw hfirst
      rw [List.getD_cons_zero] at hfirst
      have hrest : readBytesFrom load (a + 1) fuel = .ok (rest.takeWhile (· ≠ 0)) := by
        apply ih (Nat.lt_of_succ_lt_succ hfuel)
        intro n hn
        have hnext : a + 1 + UInt64.ofNat n = a + UInt64.ofNat (n + 1) := by
          rw [UInt64.ofNat_add]
          grind
        rw [hnext]
        exact hbytes (n + 1) (Nat.succ_le_succ hn)
      rw [readBytesFrom, hw, Except.bind, hfirst, hrest]
      by_cases hb : b = 0
      · simp [hb]
      · simp [hb, Except.map]

end Machine

/-- Whoever finds the words of a string as they were laid out reads the string. -/
theorem Image.Houses.readStringFrom_eq {img : Image} {p : Program} {symbol : String}
    {bytes : Bytes} {placement : Placement} (h : img.Houses p)
    (hregion : .string symbol bytes ∈ p.regions)
    (hfind : img.layout.find? symbol = some placement) {load : Address → Except Fault Word}
    (hload : ∀ b, img.IsWordOf symbol b → load b = .ok (img.initial.read b)) :
    Machine.readStringFrom load placement.address = .ok (bytes.takeWhile (· ≠ 0)) := by
  have hend := h.string_end_lt hregion hfind
  have hwords := h.string_words hregion hfind
  have hextent := Layout.le_extent placement.words
  have haligned : placement.address.toNat % 8 = 0 := by
    simpa using (h.isData_word (Layout.mem_of_find? hfind).1 (Layout.extent_pos _)).1
  apply Machine.readBytesFrom_eq (by omega)
  intro n hn
  obtain ⟨hword, hplace⟩ := Memory.word_of_byte haligned (n := n) (by omega)
  refine ⟨img.initial.read (placement.address + 8 * UInt64.ofNat (n / 8)), ?_, ?_⟩
  · rw [hword]
    exact hload _ ⟨placement, hfind, n / 8, by omega, rfl⟩
  · rw [Memory.byteIn_eq, hplace]
    exact h.byteAt_initial hregion hfind hn

/-- Strings read back. On a machine that was just loaded or reset, the string at a symbol's address
is the longest beginning of the symbol's bytes without a zero byte. Only the symbol's own words
are read for that: take them from any other source, which may fault everywhere else, and the string
is the same. -/
theorem Machine.readString_symbol {p : Program} {limits : Limits} {m : Machine}
    (hload : Machine.load p limits = .ok m)
    (hfits : Layout.base.toNat + p.dataBytes ≤ m.image.stackLimit.toNat) {symbol : String}
    {bytes : Bytes} (hregion : .string symbol bytes ∈ p.regions) {m' : Machine}
    (hm : m' = m ∨ ∃ session, m' = (m.after session).reset) :
    ∃ a, m'.symbolAddress symbol = .ok a ∧
      m'.readString a = .ok (bytes.takeWhile (· ≠ 0)) ∧
      m'.readString a = readStringFrom m'.readWord a ∧
      ∀ load : Address → Except Fault Word,
        (∀ b, m'.image.IsWordOf symbol b → load b = m'.readWord b) →
        readStringFrom load a = .ok (bytes.takeWhile (· ≠ 0)) := by
  have h := Machine.houses_of_load hload hfits
  obtain ⟨himage, hmemory⟩ : m'.image = m.image ∧ m'.state.memory = m.image.initial := by
    rcases hm with rfl | ⟨session, rfl⟩
    · rw [Machine.state_of_load hload]
      exact ⟨rfl, rfl⟩
    · rw [reset, after_image]
      exact ⟨rfl, rfl⟩
  obtain ⟨placement, hfind, -⟩ := h.exists_placement (Layout.string_mem_requests hregion)
  have hwords : ∀ b, m.image.IsWordOf symbol b → m'.readWord b = .ok (m.image.initial.read b) := by
    intro b hb
    rw [readWord, Image.load?, himage, h.accessible hb, hmemory]
  refine ⟨placement.address, ?_, ?_, m'.readString_eq _, ?_⟩
  · rw [symbolAddress, Image.symbolAddress, himage, hfind]
  · rw [readString_eq]
    exact h.readStringFrom_eq hregion hfind hwords
  · intro load hsame
    apply h.readStringFrom_eq hregion hfind
    intro b hb
    rw [hsame b (himage ▸ hb), hwords b hb]

namespace Machine

/-- Eight bytes fill a word up to its sign, and a string with a zero byte follows. -/
def noticeBoard : Program where
  globals := ["shown"]
  units := [{
    name := "show"
    params := 0
    code := [.make .mov [.global "g_shown" 0, .imm 1] 1, .make .ret [] 2]
    data := [
      .string "str_0" [195, 156, 98, 101, 114, 97, 108, 255],
      .string "str_1" [33, 0, 63]] }]

def noticeBoardMachine : Machine := .fresh (Image.ofProgram noticeBoard {})

theorem noticeBoard_reads :
    Machine.load noticeBoard {} = .ok noticeBoardMachine ∧
    Layout.base.toNat + noticeBoard.dataBytes ≤ noticeBoardMachine.image.stackLimit.toNat ∧
    (∃ a, noticeBoardMachine.symbolAddress "str_1" = .ok a ∧
      noticeBoardMachine.readString a = .ok [33]) ∧
    ∃ a, (noticeBoardMachine.after [.call "show" []]).reset.symbolAddress "str_0" = .ok a ∧
      (noticeBoardMachine.after [.call "show" []]).reset.readString a =
        .ok [195, 156, 98, 101, 114, 97, 108, 255] := by
  have hload : Machine.load noticeBoard {} = .ok noticeBoardMachine := rfl
  have hfits : Layout.base.toNat + noticeBoard.dataBytes ≤
      noticeBoardMachine.image.stackLimit.toNat := by decide
  have hcut : DataRegion.string "str_1" [33, 0, 63] ∈ noticeBoard.regions := by decide
  have hfull : DataRegion.string "str_0" [195, 156, 98, 101, 114, 97, 108, 255] ∈
      noticeBoard.regions := by decide
  obtain ⟨a, ha, hreadCut, -⟩ := readString_symbol hload hfits hcut (.inl rfl)
  obtain ⟨b, hb, hreadFull, -⟩ :=
    readString_symbol hload hfits hfull (.inr ⟨[.call "show" []], rfl⟩)
  exact ⟨hload, hfits, ⟨a, ha, hreadCut⟩, b, hb, hreadFull⟩

end Machine

end Arbor
