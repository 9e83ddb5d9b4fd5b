import Mathlib
import Arbor.Assembly.ByteList

/-!
The operands of `db`, read back. An operand list has items separated by a comma and a blank; an item
is a run of characters in double quotes, which are taken literally, or the decimal value of one byte.
`Operands` says which texts are such lists and which bytes they stand for, and `decode` reads a text
in one pass. The two agree, so a list has only one reading. The list written for a byte string is
read as these bytes and a zero.
-/

namespace Arbor

namespace ByteList

/-- A character that may stand between double quotes. Nothing escapes the quote. -/
def isLiteral (c : Char) : Bool := c ≠ '"' && c.toNat < 256

def byteOf (c : Char) : UInt8 := UInt8.ofNat c.toNat

/-- An item and the bytes it stands for. -/
inductive Item : List Char → Bytes → Prop where
  | quoted {run : List Char} (h : ∀ c ∈ run, isLiteral c) :
      Item ('"' :: (run ++ ['"'])) (run.map byteOf)
  | decimal {digits : List Char} (hne : digits ≠ []) (hdigits : ∀ c ∈ digits, c.isDigit)
      (hbyte : Nat.ofDigitChars 10 digits 0 < 256) :
      Item digits [UInt8.ofNat (Nat.ofDigitChars 10 digits 0)]

/-- A list of items and the bytes it stands for. -/
inductive Operands : List Char → Bytes → Prop where
  | last {text : List Char} {bytes : Bytes} (h : Item text bytes) : Operands text bytes
  | more {text rest : List Char} {bytes bytes' : Bytes} (h : Item text bytes)
      (hrest : Operands rest bytes') : Operands (text ++ ',' :: ' ' :: rest) (bytes ++ bytes')

/-- Where in a list the reader is: before an item, inside quotes, after them, or inside a number of
which it knows the value so far. -/
inductive Reader where
  | start
  | quoted
  | closed
  | number (n : Nat)

def read : Reader → List Char → Option Bytes
  | .start, '"' :: cs => read .quoted cs
  | .start, c :: cs => if c.isDigit then read (.number (c.toNat - '0'.toNat)) cs else none
  | .quoted, '"' :: cs => read .closed cs
  | .quoted, c :: cs => if isLiteral c then (read .quoted cs).map (byteOf c :: ·) else none
  | .closed, [] => some []
  | .closed, ',' :: ' ' :: cs => read .start cs
  | .number n, [] => if n < 256 then some [UInt8.ofNat n] else none
  | .number n, ',' :: ' ' :: cs =>
    if n < 256 then (read .start cs).map (UInt8.ofNat n :: ·) else none
  | .number n, c :: cs =>
    if c.isDigit then read (.number (10 * n + (c.toNat - '0'.toNat))) cs else none
  | _, _ => none

def decode (text : String) : Option Bytes := read .start text.toList

/-- What an answer of the reader says about the characters ahead of it, given what it has read of
the item it is in. -/
def Continues : Reader → List Char → Bytes → Prop
  | .start, cs, bytes => Operands cs bytes
  | .quoted, cs, bytes => ∀ run : List Char, (∀ c ∈ run, isLiteral c) →
      Operands ('"' :: (run ++ cs)) (run.map byteOf ++ bytes)
  | .closed, cs, bytes => ∀ text before, Item text before → Operands (text ++ cs) (before ++ bytes)
  | .number n, cs, bytes => ∀ digits : List Char, digits ≠ [] → (∀ c ∈ digits, c.isDigit) →
      Nat.ofDigitChars 10 digits 0 = n → Operands (digits ++ cs) bytes

theorem continues_of_read {r : Reader} {cs : List Char} {bytes : Bytes}
    (h : read r cs = some bytes) : Continues r cs bytes := by
  fun_induction read r cs generalizing bytes with
  | case1 cs ih => exact ih h [] (by simp)
  | case2 c cs _ hdigit ih =>
      apply ih h [c]
      · simp
      · simpa using hdigit
      · simp [Nat.ofDigitChars_cons]
  | case4 cs ih =>
      intro run hrun
      simpa using ih h _ _ (Item.quoted hrun)
  | case5 c cs _ hliteral ih =>
      obtain ⟨rest, hread, rfl⟩ := Option.map_eq_some_iff.mp h
      intro run hrun
      have hrun' : ∀ d ∈ run ++ [c], isLiteral d := by
        simpa [or_imp, forall_and, hliteral] using hrun
      simpa using ih hread (run ++ [c]) hrun'
  | case7 =>
      cases h
      intro text before hitem
      simpa using Operands.last hitem
  | case8 cs ih =>
      intro text before hitem
      exact .more hitem (ih h)
  | case9 n hbyte =>
      cases h
      intro digits hne hdigits hvalue
      subst hvalue
      simpa using Operands.last (.decimal hne hdigits hbyte)
  | case11 n cs hbyte ih =>
      obtain ⟨rest, hread, rfl⟩ := Option.map_eq_some_iff.mp h
      intro digits hne hdigits hvalue
      subst hvalue
      exact .more (.decimal hne hdigits hbyte) (ih hread)
  | case13 n c cs _ hdigit ih =>
      intro digits hne hdigits hvalue
      have hdigits' : ∀ d ∈ digits ++ [c], d.isDigit := by
        simpa [or_imp, forall_and, hdigit] using hdigits
      have hvalue' : Nat.ofDigitChars 10 (digits ++ [c]) 0 = 10 * n + (c.toNat - '0'.toNat) := by
        rw [Nat.ofDigitChars_append, hvalue]
        simp [Nat.ofDigitChars_cons]
      simpa using ih h (digits ++ [c]) (by simp) hdigits' hvalue'
  | case3 | case6 | case10 | case12 | case14 | case15 => cases h

/-- An item ends here: the list is over, or a separator follows. -/
def Ends (tail : List Char) : Prop := tail = [] ∨ ∃ rest, tail = ',' :: ' ' :: rest

theorem read_quoted {run : List Char} (h : ∀ c ∈ run, isLiteral c) (tail : List Char) :
    read .quoted (run ++ '"' :: tail) = (read .closed tail).map (run.map byteOf ++ ·) := by
  induction run with
  | nil => simp [read]
  | cons c run ih =>
      have hc : isLiteral c := h c List.mem_cons_self
      have hquote : c ≠ '"' := by
        rintro rfl
        cases hc
      simp only [List.cons_append, read, hc, if_true]
      rw [ih fun d hd => h d (List.mem_cons_of_mem c hd)]
      cases read .closed tail <;> rfl

theorem read_number_digit {c : Char} (hc : c.isDigit) (n : Nat) (cs : List Char) :
    read (.number n) (c :: cs) = read (.number (10 * n + (c.toNat - '0'.toNat))) cs := by
  have hcomma : c ≠ ',' := by
    rintro rfl
    cases hc
  simp [read, hc, hcomma]

/-- The first digit of a number follows the value zero. -/
theorem read_start_digit {c : Char} (hc : c.isDigit) (cs : List Char) :
    read .start (c :: cs) = read (.number 0) (c :: cs) := by
  have hquote : c ≠ '"' := by
    rintro rfl
    cases hc
  rw [read_number_digit hc]
  simp [read, hc]

/-- A number is read up to the end of its item. -/
theorem read_number {digits tail : List Char} (hdigits : ∀ c ∈ digits, c.isDigit) (hends : Ends tail)
    {n : Nat} (hbyte : Nat.ofDigitChars 10 digits n < 256) :
    read (.number n) (digits ++ tail) =
      (read .closed tail).map (UInt8.ofNat (Nat.ofDigitChars 10 digits n) :: ·) := by
  induction digits generalizing n with
  | nil =>
      rw [Nat.ofDigitChars_nil] at hbyte ⊢
      rcases hends with rfl | ⟨rest, rfl⟩
      · simp [read, hbyte]
      · simp [read, hbyte]
  | cons c digits ih =>
      rw [Nat.ofDigitChars_cons] at hbyte ⊢
      rw [List.cons_append, read_number_digit (hdigits c List.mem_cons_self)]
      exact ih (fun d hd => hdigits d (List.mem_cons_of_mem c hd)) hbyte

theorem read_item {text tail : List Char} {bytes : Bytes} (h : Item text bytes) (hends : Ends tail) :
    read .start (text ++ tail) = (read .closed tail).map (bytes ++ ·) := by
  cases h with
  | quoted hrun => simpa [read] using read_quoted hrun tail
  | decimal hne hdigits hbyte =>
      obtain ⟨c, digits, rfl⟩ := List.exists_cons_of_ne_nil hne
      rw [List.cons_append, read_start_digit (hdigits c List.mem_cons_self)]
      exact read_number hdigits hends hbyte

theorem read_operands {text : List Char} {bytes : Bytes} (h : Operands text bytes) :
    read .start text = some bytes := by
  induction h with
  | @last text bytes h =>
      have hread := read_item h (.inl rfl)
      simpa [read] using hread
  | @more text rest bytes bytes' h hrest ih =>
      have hread := read_item h (.inr ⟨rest, rfl⟩)
      simpa [read, ih] using hread

/-- The reader accepts exactly the lists of items, so a list has only one reading. -/
theorem decode_eq_some_iff {text : String} {bytes : Bytes} :
    decode text = some bytes ↔ Operands text.toList bytes :=
  ⟨continues_of_read, read_operands⟩

-- a backslash is a byte like any other; a quote has to be closed, and a blank follows a comma
example : decode "\"a\\\", 34, \"b\"" = some [97, 92, 34, 98] ∧ decode "\"a" = none ∧
    decode "1,2" = none ∧ decode "256" = none := by
  decide +kernel

end ByteList

namespace ByteItem

def bytes : ByteItem → Bytes
  | .quoted run => run
  | .value b => [b]

/-- All that stands in quotes may stand there. -/
def Printable : ByteItem → Prop
  | .quoted run => ∀ b ∈ run, isQuotable b
  | .value _ => True

/-- Splitting a byte string into items loses nothing. -/
theorem flatMap_bytes_ofBytes (bs : Bytes) : (ofBytes bs).flatMap bytes = bs := by
  fun_induction ofBytes bs with
  | case1 => rfl
  | case2 b rest hb run items hrest ih =>
      rw [hrest] at ih
      simpa [bytes] using ih
  | case3 b rest hb _ ih => simpa [bytes] using ih
  | case4 b rest hb ih => simpa [bytes] using ih

theorem printable_ofBytes (bs : Bytes) : ∀ item ∈ ofBytes bs, item.Printable := by
  fun_induction ofBytes bs with
  | case1 => simp
  | case2 b rest hb run items hrest ih =>
      rw [hrest] at ih
      have hrun : ∀ c ∈ run, isQuotable c := ih (.quoted run) List.mem_cons_self
      intro item hitem
      rcases List.mem_cons.mp hitem with rfl | hitem
      · exact List.forall_mem_cons.mpr ⟨hb, hrun⟩
      · exact ih item (List.mem_cons_of_mem _ hitem)
  | case3 b rest hb _ ih =>
      intro item hitem
      rcases List.mem_cons.mp hitem with rfl | hitem
      · exact List.forall_mem_singleton.mpr hb
      · exact ih item hitem
  | case4 b rest hb ih =>
      intro item hitem
      rcases List.mem_cons.mp hitem with rfl | hitem
      · trivial
      · exact ih item hitem

theorem toNat_char (b : UInt8) : (Char.ofNat b.toNat).toNat = b.toNat := by
  have hvalid : b.toNat.isValidChar := .inl (b.toNat_lt.trans (by decide))
  rw [Char.toNat_ofNat, if_pos hvalid]

theorem byteOf_char (b : UInt8) : ByteList.byteOf (Char.ofNat b.toNat) = b := by
  rw [ByteList.byteOf, toNat_char, UInt8.ofNat_toNat]

theorem isLiteral_char {b : UInt8} (h : isQuotable b) : ByteList.isLiteral (Char.ofNat b.toNat) := by
  have hquote : Char.ofNat b.toNat ≠ '"' := by
    intro heq
    have hb : b = 0x22 := by rw [← byteOf_char b, heq]; rfl
    rw [hb] at h
    cases h
  simp [ByteList.isLiteral, hquote, toNat_char, b.toNat_lt]

/-- The text of an item is an item of an operand list, for the same bytes. -/
theorem item_text {item : ByteItem} (h : item.Printable) :
    ByteList.Item item.text.toList item.bytes := by
  cases item with
  | quoted run =>
      have hliteral : ∀ c ∈ run.map fun b => Char.ofNat b.toNat, ByteList.isLiteral c := by
        intro c hc
        obtain ⟨b, hb, rfl⟩ := List.mem_map.mp hc
        exact isLiteral_char (h b hb)
      have hitem := ByteList.Item.quoted hliteral
      have hrun : (run.map fun b => Char.ofNat b.toNat).map ByteList.byteOf = run := by
        simp [Function.comp_def, byteOf_char]
      rw [hrun] at hitem
      simpa [text, bytes] using hitem
  | value b =>
      have hvalue : Nat.ofDigitChars 10 (Nat.toDigits 10 b.toNat) 0 = b.toNat :=
        Nat.ofDigitChars_ten_toDigits
      have hne : Nat.toDigits 10 b.toNat ≠ [] := List.ne_nil_of_length_pos Nat.length_toDigits_pos
      have hdigits : ∀ c ∈ Nat.toDigits 10 b.toNat, c.isDigit := fun c hc =>
        Nat.isDigit_of_mem_toDigits (by decide) (by decide) hc
      have hitem := ByteList.Item.decimal hne hdigits (by rw [hvalue]; exact b.toNat_lt)
      rw [hvalue, UInt8.ofNat_toNat, ← Nat.toList_repr] at hitem
      exact hitem

theorem operands_intercalate {items : List ByteItem} (hne : items ≠ [])
    (h : ∀ item ∈ items, item.Printable) :
    ByteList.Operands (", ".intercalate (items.map text)).toList (items.flatMap bytes) := by
  induction items with
  | nil => exact absurd rfl hne
  | cons item rest ih =>
      have hitem := item_text (h item List.mem_cons_self)
      cases rest with
      | nil => simpa using ByteList.Operands.last hitem
      | cons next rest =>
          have hrest := ih (by simp) fun other hother => h other (List.mem_cons_of_mem item hother)
          simpa using ByteList.Operands.more hitem hrest

end ByteItem

/-- What is written for a byte string is a list of operands, and its only reading is the string
with a zero after it. -/
theorem quoteBytes_decodes (bytes : Bytes) :
    (∀ read, ByteList.Operands (quoteBytes bytes).toList read ↔ read = bytes ++ [0]) ∧
      ByteList.decode (quoteBytes bytes) = some (bytes ++ [0]) := by
  have hprintable : ∀ item ∈ ByteItem.ofBytes bytes ++ [.value 0], item.Printable := by
    intro item hitem
    rcases List.mem_append.mp hitem with hitem | hitem
    · exact ByteItem.printable_ofBytes bytes item hitem
    · rw [List.mem_singleton.mp hitem]
      trivial
  have hoperands : ByteList.Operands (quoteBytes bytes).toList (bytes ++ [0]) := by
    have hitems := ByteItem.operands_intercalate (by simp) hprintable
    rw [List.flatMap_append, ByteItem.flatMap_bytes_ofBytes] at hitems
    exact hitems
  have hdecode := ByteList.decode_eq_some_iff.mpr hoperands
  refine ⟨?_, hdecode⟩
  intro read
  rw [← ByteList.decode_eq_some_iff, hdecode, Option.some_inj]
  exact eq_comm

end Arbor
