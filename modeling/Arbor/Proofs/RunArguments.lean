import Mathlib
import Arbor.CommandLine.Command

/-!
What the arguments of `run` mean. An argument vector is a sequence of options and positional
arguments, and every positional argument behind the tree file and the function stands for one word
of the call.

A word is written as a decimal numeral with an optional sign. The conversion looks for such a
numeral at the front of the argument only: it passes over blanks and does not look at what follows
the digits. So the call is made with the words that the arguments start with, which are the words
they write if nothing else stands in them.
-/

namespace Arbor

namespace Argument

def digitValue (c : Char) : Nat := c.toNat - '0'.toNat

/-- Digits, and the number they stand for in the decimal system. -/
structure Decimal (digits : List Char) (n : Nat) : Prop where
  ne_nil : digits ≠ []
  all_isDigit : ∀ c ∈ digits, isDigit c
  value : Nat.ofDigits 10 (digits.reverse.map digitValue) = n

/-- Decimal digits with or without a sign, and the integer they denote. -/
inductive Numeral : List Char → Int → Prop where
  | unsigned {digits : List Char} {n : Nat} (h : Decimal digits n) : Numeral digits n
  | positive {digits : List Char} {n : Nat} (h : Decimal digits n) : Numeral ('+' :: digits) n
  | negative {digits : List Char} {n : Nat} (h : Decimal digits n) : Numeral ('-' :: digits) (-n)

/-- A numeral stands at the front, behind blanks. It takes in all digits that are there. -/
inductive Leads : List Char → Int → Prop where
  | intro {blanks numeral tail : List Char} {n : Int} (hblanks : ∀ c ∈ blanks, isSpace c)
      (h : Numeral numeral n) (htail : ∀ c ∈ tail.head?, ¬isDigit c) :
      Leads (blanks ++ (numeral ++ tail)) n

/-- No blank stands at the front, and nothing but digits behind the first character. -/
def Bare (cs : List Char) : Prop :=
  (∀ c ∈ cs.head?, ¬isSpace c) ∧ ∀ c ∈ cs.tail, isDigit c

instance (cs : List Char) : Decidable (Bare cs) :=
  decidable_of_iff (cs.head?.toList.all (fun c => !isSpace c) ∧ cs.tail.all isDigit)
    (by simp [Bare])

theorem digitsValue_eq_ofDigits (digits : List Char) :
    digitsValue digits = Nat.ofDigits 10 (digits.reverse.map digitValue) := by
  rw [Nat.ofDigits_eq_foldr, List.foldr_map, List.foldr_reverse, digitsValue]
  simp [digitValue, Nat.add_comm]

theorem Decimal.exists_cons {digits : List Char} {n : Nat} (h : Decimal digits n) :
    ∃ c rest, digits = c :: rest ∧ isDigit c ∧ ∀ d ∈ rest, isDigit d := by
  obtain ⟨c, rest, rfl⟩ := List.exists_cons_of_ne_nil h.ne_nil
  exact ⟨c, rest, rfl, List.forall_mem_cons.mp h.all_isDigit⟩

theorem not_isSpace_of_isDigit {c : Char} (h : isDigit c) : ¬isSpace c := by
  intro hspace
  simp only [isSpace, Bool.or_eq_true, decide_eq_true_eq] at hspace
  rcases hspace with ((((rfl | rfl) | rfl) | rfl) | rfl) | rfl <;> exact absurd h (by decide)

/-- A numeral is a digit or a sign, which are no blanks, and then digits. -/
theorem Numeral.bare {cs : List Char} {n : Int} (h : Numeral cs n) : cs ≠ [] ∧ Bare cs := by
  cases h with
  | unsigned h =>
      obtain ⟨c, rest, rfl, hc, hrest⟩ := h.exists_cons
      exact ⟨List.cons_ne_nil c rest, by simpa using not_isSpace_of_isDigit hc, hrest⟩
  | positive h => exact ⟨List.cons_ne_nil _ _, by simp [isSpace], h.all_isDigit⟩
  | negative h => exact ⟨List.cons_ne_nil _ _, by simp [isSpace], h.all_isDigit⟩

theorem not_of_mem_head?_dropWhile {p : Char → Bool} {cs : List Char} {c : Char}
    (h : c ∈ (cs.dropWhile p).head?) : ¬p c := by
  have hhead := List.head?_dropWhile_not p cs
  rw [Option.mem_def.mp h] at hhead
  simpa using hhead

theorem unsigned?_eq_some_iff {cs : List Char} {n : Nat} :
    unsigned? cs = some n ↔
      ∃ digits tail, cs = digits ++ tail ∧ Decimal digits n ∧ ∀ c ∈ tail.head?, ¬isDigit c := by
  constructor
  · intro h
    refine ⟨cs.takeWhile isDigit, cs.dropWhile isDigit, List.takeWhile_append_dropWhile.symm, ?_,
      fun c => not_of_mem_head?_dropWhile⟩
    unfold unsigned? at h
    split at h
    · cases h
    · next hne =>
        exact ⟨hne, fun c => List.mem_takeWhile_imp,
          (digitsValue_eq_ofDigits _).symm.trans (Option.some.inj h)⟩
  · rintro ⟨digits, tail, rfl, h, htail⟩
    have htake : (digits ++ tail).takeWhile isDigit = digits := by
      rw [List.takeWhile_append_of_pos h.all_isDigit]
      cases tail with
      | nil => simp
      | cons c tail => simpa using htail c
    have hvalue : digitsValue digits = n := (digitsValue_eq_ofDigits digits).trans h.value
    obtain ⟨c, rest, rfl, -⟩ := h.exists_cons
    simp only [unsigned?, htake, hvalue]

/-- No numeral starts with a blank, so the blanks in front of one can only be dropped in one way. -/
theorem leads_iff {cs : List Char} {n : Int} :
    Leads cs n ↔ ∃ numeral tail, cs.dropWhile isSpace = numeral ++ tail ∧ Numeral numeral n ∧
      ∀ c ∈ tail.head?, ¬isDigit c := by
  constructor
  · rintro ⟨hblanks, h, htail⟩
    refine ⟨_, _, ?_, h, htail⟩
    rw [List.dropWhile_append_of_pos hblanks]
    obtain ⟨hne, hhead, -⟩ := h.bare
    obtain ⟨c, rest, rfl⟩ := List.exists_cons_of_ne_nil hne
    exact List.dropWhile_cons_of_neg (hhead c rfl)
  · rintro ⟨numeral, tail, hdrop, h, htail⟩
    have hcs : cs.takeWhile isSpace ++ cs.dropWhile isSpace = cs := List.takeWhile_append_dropWhile
    rw [← hcs, hdrop]
    exact .intro (fun c => List.mem_takeWhile_imp) h htail

/-- Digits at the front, as an integer to which a sign is given. -/
theorem map_unsigned?_eq_some_iff {sign : Int → Int} {rest : List Char} {n : Int} :
    Option.map sign (do pure ((← unsigned? rest : Nat) : Int)) = some n ↔
      ∃ digits tail m, rest = digits ++ tail ∧ Decimal digits m ∧
        (∀ c ∈ tail.head?, ¬isDigit c) ∧ sign m = n := by
  have hlift : Option.map sign (do pure ((← unsigned? rest : Nat) : Int)) = some n ↔
      ∃ m, unsigned? rest = some m ∧ sign m = n := by
    cases unsigned? rest <;> simp
  rw [hlift]
  constructor
  · rintro ⟨m, hm, hsign⟩
    obtain ⟨digits, tail, hrest, hdecimal, htail⟩ := unsigned?_eq_some_iff.mp hm
    exact ⟨digits, tail, m, hrest, hdecimal, htail, hsign⟩
  · rintro ⟨digits, tail, m, hrest, hdecimal, htail, hsign⟩
    exact ⟨m, unsigned?_eq_some_iff.mpr ⟨digits, tail, hrest, hdecimal, htail⟩, hsign⟩

theorem integer?_eq_some_iff {cs : List Char} {n : Int} : integer? cs = some n ↔ Leads cs n := by
  rw [leads_iff, integer?]
  generalize cs.dropWhile isSpace = rest
  constructor
  · intro h
    split at h <;>
      obtain ⟨digits, tail, m, rfl, hdecimal, htail, rfl⟩ := map_unsigned?_eq_some_iff.mp h
    · exact ⟨_, tail, rfl, .negative hdecimal, htail⟩
    · exact ⟨_, tail, rfl, .positive hdecimal, htail⟩
    · exact ⟨_, tail, rfl, .unsigned hdecimal, htail⟩
  · rintro ⟨numeral, tail, rfl, h, htail⟩
    cases h with
    | @unsigned _ m h =>
        -- the digits do not start with a sign
        obtain ⟨c, rest, rfl, hc, -⟩ := h.exists_cons
        split
        · next heq =>
            cases heq
            exact absurd hc (by decide)
        · next heq =>
            cases heq
            exact absurd hc (by decide)
        · exact map_unsigned?_eq_some_iff.mpr ⟨c :: rest, tail, m, rfl, h, htail, rfl⟩
    | @positive digits m h =>
        exact map_unsigned?_eq_some_iff.mpr ⟨digits, tail, m, rfl, h, htail, rfl⟩
    | @negative digits m h =>
        exact map_unsigned?_eq_some_iff.mpr ⟨digits, tail, m, rfl, h, htail, rfl⟩

/-- A text is a numeral in full if it starts with one and nothing else stands in it. -/
theorem numeral_iff {cs : List Char} {n : Int} : Numeral cs n ↔ Bare cs ∧ Leads cs n := by
  constructor
  · intro h
    have hleads : Leads ([] ++ (cs ++ [])) n := .intro (by simp) h (by simp)
    rw [List.nil_append, List.append_nil] at hleads
    exact ⟨h.bare.2, hleads⟩
  · rintro ⟨⟨hhead, hdigits⟩, @⟨blanks, numeral, tail, _, hblanks, h, htail⟩⟩
    obtain rfl : blanks = [] := by
      cases blanks with
      | nil => rfl
      | cons d blanks => exact absurd (hblanks d List.mem_cons_self) (hhead d rfl)
    obtain ⟨c, rest, rfl⟩ := List.exists_cons_of_ne_nil h.bare.1
    obtain rfl : tail = [] := by
      cases tail with
      | nil => rfl
      | cons d tail => exact absurd (hdigits d (by simp)) (htail d rfl)
    rwa [List.nil_append, List.append_nil]

/-- The text starts with a numeral of the word. -/
def AtFront (text : String) (w : Word) : Prop := Leads text.toList w.toInt

/-- The text is a numeral of the word and nothing else. -/
def InFull (text : String) (w : Word) : Prop := Numeral text.toList w.toInt

/-- The conversion finds the word that a numeral at the front denotes, and there must be one. -/
theorem word?_eq_some_iff {text : String} {w : Word} :
    word? text = some w ↔ AtFront text w := by
  rw [AtFront, ← integer?_eq_some_iff, word?]
  constructor
  · intro h
    split at h
    · next n hn =>
        split at h
        · next hrange =>
            cases h
            rw [hn, Int64.toInt_ofInt_of_le hrange.1 hrange.2]
        · cases h
    · cases h
  · intro h
    have hrange : -0x8000000000000000 ≤ w.toInt ∧ w.toInt < 0x8000000000000000 :=
      ⟨w.le_toInt, w.toInt_lt⟩
    rw [h]
    simp only [if_pos hrange, Int64.ofInt_toInt]

end Argument

namespace Options

/-- An option with its value, or a positional argument. -/
inductive Item where
  | output (path : String)
  | config (path : String)
  | jobs (count : Nat)
  | entry (name : String)
  | allOff
  | noDeadStore
  | noPeephole
  | verbose
  | positional (text : String)
deriving DecidableEq, Repr

namespace Item

/-- How an item is written. A text with a dash in front is positional only if nothing but digits
follows. -/
inductive Spelled : Item → List String → Prop where
  | output {name path : String} (h : name = "-o" ∨ name = "--output") :
      Spelled (.output path) [name, path]
  | config {name path : String} (h : name = "-C" ∨ name = "--config") :
      Spelled (.config path) [name, path]
  | jobs {name value : String} {count : Nat} (h : name = "-j" ∨ name = "--jobs")
      (hvalue : Argument.Decimal value.toList count) (hlength : value.toList.length ≤ 4)
      (hcount : count ≠ 0) : Spelled (.jobs count) [name, value]
  | entry {name : String} : Spelled (.entry name) ["--entry", name]
  | allOff : Spelled .allOff ["-O0"]
  | noDeadStore : Spelled .noDeadStore ["--no-dead-store"]
  | noPeephole : Spelled .noPeephole ["--no-peephole"]
  | verbose : Spelled .verbose ["--verbose"]
  | positional {text : String}
      (h : ∀ rest, text.toList = '-' :: rest → ∀ c ∈ rest, Argument.isDigit c) :
      Spelled (.positional text) [text]

theorem Spelled.one_or_two {item : Item} {front : List String} (h : item.Spelled front) :
    (∃ arg, front = [arg]) ∨ ∃ arg value, front = [arg, value] := by
  cases h <;> simp

/-- A later option wins over an earlier one. -/
def apply (o : Options) : Item → Options
  | .output path => { o with output := path }
  | .config path => { o with config := path }
  | .jobs count => { o with jobs := some count }
  | .entry name => { o with entry := some name }
  | .allOff => { o with allOff := true }
  | .noDeadStore => { o with noDeadStore := true }
  | .noPeephole => { o with noPeephole := true }
  | .verbose => { o with verbose := true }
  | .positional text => { o with positional := o.positional ++ [text] }

def text? : Item → Option String
  | .positional text => some text
  | _ => none

end Item

/-- An argument vector written item by item. -/
inductive Spelled : List Item → List String → Prop where
  | nil : Spelled [] []
  | cons {item : Item} {items : List Item} {front rest : List String}
      (h : item.Spelled front) (hrest : Spelled items rest) :
      Spelled (item :: items) (front ++ rest)

def ofItems (items : List Item) : Options := items.foldl Item.apply {}

theorem foldl_apply_positional (items : List Item) (o : Options) :
    (items.foldl Item.apply o).positional = o.positional ++ items.filterMap Item.text? := by
  induction items generalizing o with
  | nil => simp
  | cons item items ih =>
      rw [List.foldl_cons, ih]
      cases item <;> simp [Item.apply, Item.text?, List.filterMap_cons]

/-- The positional arguments stay in their order. -/
theorem ofItems_positional (items : List Item) :
    (ofItems items).positional = items.filterMap Item.text? :=
  foldl_apply_positional items {}

theorem jobs?_eq_some_iff {value : String} {count : Nat} :
    jobs? value = some count ↔
      Argument.Decimal value.toList count ∧ value.toList.length ≤ 4 ∧ count ≠ 0 := by
  simp only [jobs?, Argument.digitsValue_eq_ofDigits]
  constructor
  · intro h
    split_ifs at h with hform hzero
    cases h
    simp only [Bool.or_eq_true, List.isEmpty_iff, decide_eq_true_eq, Bool.not_eq_true',
      not_or, Bool.not_eq_false, List.all_eq_true, not_lt] at hform
    exact ⟨⟨hform.1.1, hform.2, rfl⟩, hform.1.2, hzero⟩
  · rintro ⟨⟨hne, hdigits, rfl⟩, hlength, hcount⟩
    rw [if_neg, if_neg hcount]
    simpa [hne, hlength] using hdigits

theorem isFlag_eq_false_iff {text : String} :
    isFlag text = false ↔ ∀ rest, text.toList = '-' :: rest → ∀ c ∈ rest, Argument.isDigit c := by
  unfold isFlag
  split
  · next rest hrest => simp [hrest]
  · next hother => exact iff_of_true rfl fun rest hrest => (hother rest hrest).elim

/-- A positional argument is none of the options, known or unknown. -/
theorem ne_of_isFlag {text name : String} (hname : isFlag name)
    (h : ∀ rest, text.toList = '-' :: rest → ∀ c ∈ rest, Argument.isDigit c) : text ≠ name := by
  rintro rfl
  exact absurd hname (by simp [isFlag_eq_false_iff.mpr h])

/-- One argument that is read alone. -/
theorem single_eq_ok_iff {o o' : Options} {arg : String} :
    o.single arg = .ok o' ↔ ∃ item : Item, item.Spelled [arg] ∧ item.apply o = o' := by
  constructor
  · intro h
    unfold single at h
    split_ifs at h with hallOff hnoDeadStore hnoPeephole hverbose hflag
    · exact ⟨.allOff, hallOff ▸ .allOff, Except.ok.inj h⟩
    · exact ⟨.noDeadStore, hnoDeadStore ▸ .noDeadStore, Except.ok.inj h⟩
    · exact ⟨.noPeephole, hnoPeephole ▸ .noPeephole, Except.ok.inj h⟩
    · exact ⟨.verbose, hverbose ▸ .verbose, Except.ok.inj h⟩
    · rw [Bool.not_eq_true] at hflag
      exact ⟨.positional arg, .positional (isFlag_eq_false_iff.mp hflag), Except.ok.inj h⟩
  · rintro ⟨item, hitem, rfl⟩
    cases hitem with
    | positional h =>
        have hne : ∀ name, isFlag name → arg ≠ name := fun name hname => ne_of_isFlag hname h
        simp [single, hne "-O0" (by decide), hne "--no-dead-store" (by decide),
          hne "--no-peephole" (by decide), hne "--verbose" (by decide), isFlag_eq_false_iff.mpr h,
          Item.apply]
    | allOff | noDeadStore | noPeephole | verbose => simp [single, Item.apply]

theorem withValue?_eq_ok_iff {o o' : Options} {arg value : String} :
    o.withValue? arg value = some (.ok o') ↔
      ∃ item : Item, item.Spelled [arg, value] ∧ item.apply o = o' := by
  constructor
  · intro h
    unfold withValue? at h
    split_ifs at h with houtput hconfig hjobs hentry
    · cases h
      exact ⟨.output value, .output houtput, rfl⟩
    · cases h
      exact ⟨.config value, .config hconfig, rfl⟩
    · split at h
      · next count hcount =>
          cases h
          obtain ⟨hvalue, hlength, hne⟩ := jobs?_eq_some_iff.mp hcount
          exact ⟨.jobs count, .jobs hjobs hvalue hlength hne, rfl⟩
      · cases h
    · cases h
      exact ⟨.entry value, hentry ▸ .entry, rfl⟩
  · rintro ⟨item, hitem, rfl⟩
    cases hitem with
    | output h => rcases h with rfl | rfl <;> simp [withValue?, Item.apply]
    | config h => rcases h with rfl | rfl <;> simp [withValue?, Item.apply]
    | jobs h hvalue hlength hcount =>
        have hjobs := jobs?_eq_some_iff.mpr ⟨hvalue, hlength, hcount⟩
        rcases h with rfl | rfl <;> simp [withValue?, hjobs, Item.apply]
    | entry => simp [withValue?, Item.apply]

/-- What is read alone does not take the next argument for its value. -/
theorem withValue?_eq_none {item : Item} {arg : String} (h : item.Spelled [arg]) (o : Options)
    (value : String) : o.withValue? arg value = none := by
  cases h with
  | allOff | noDeadStore | noPeephole | verbose => simp [withValue?]
  | positional h =>
      have hne : ∀ name, isFlag name → arg ≠ name := fun name hname => ne_of_isFlag hname h
      simp [withValue?, hne "-o" (by decide), hne "--output" (by decide), hne "-C" (by decide),
        hne "--config" (by decide), hne "-j" (by decide), hne "--jobs" (by decide),
        hne "--entry" (by decide)]

/-- Reading goes on behind the item in front. -/
theorem parseFrom_append {item : Item} {front : List String} (h : item.Spelled front) (o : Options)
    (rest : List String) : o.parseFrom (front ++ rest) = (item.apply o).parseFrom rest := by
  rcases h.one_or_two with ⟨arg, rfl⟩ | ⟨arg, value, rfl⟩
  · have hsingle : o.single arg = .ok (item.apply o) := single_eq_ok_iff.mpr ⟨item, h, rfl⟩
    cases rest with
    | nil => exact hsingle
    | cons value rest =>
        rw [List.singleton_append, parseFrom, withValue?_eq_none h, hsingle]
  · have hvalued : o.withValue? arg value = some (.ok (item.apply o)) :=
      withValue?_eq_ok_iff.mpr ⟨item, h, rfl⟩
    rw [List.cons_append, List.singleton_append, parseFrom, hvalued]

theorem parseFrom_eq_ok_iff {o o' : Options} {args : List String} :
    o.parseFrom args = .ok o' ↔ ∃ items, Spelled items args ∧ items.foldl Item.apply o = o' := by
  constructor
  · intro h
    fun_induction parseFrom o args with
    | case1 o => exact ⟨[], .nil, Except.ok.inj h⟩
    | case2 o arg =>
        obtain ⟨item, hitem, happly⟩ := single_eq_ok_iff.mp h
        exact ⟨[item], .cons hitem .nil, happly⟩
    | case3 o arg value rest o₁ hvalued ih =>
        obtain ⟨item, hitem, rfl⟩ := withValue?_eq_ok_iff.mp hvalued
        obtain ⟨items, hitems, hfold⟩ := ih h
        exact ⟨item :: items, .cons hitem hitems, hfold⟩
    | case4 => cases h
    | case5 o arg value rest _ o₁ hsingle ih =>
        obtain ⟨item, hitem, rfl⟩ := single_eq_ok_iff.mp hsingle
        obtain ⟨items, hitems, hfold⟩ := ih h
        exact ⟨item :: items, .cons hitem hitems, hfold⟩
    | case6 => cases h
  · rintro ⟨items, hitems, rfl⟩
    induction hitems generalizing o with
    | nil => rfl
    | cons h _ ih => rw [parseFrom_append h, ih, List.foldl_cons]

/-- The arguments that are accepted are those written item by item, and the options are what the
items ask for. -/
theorem parse_eq_ok_iff {args : List String} {o : Options} :
    parse args = .ok o ↔ ∃ items, Spelled items args ∧ ofItems items = o :=
  parseFrom_eq_ok_iff

end Options

-- The loop collects the bytes behind it in reverse order.
theorem byteArray_toList_loop (bs : ByteArray) (i : Nat) (r : List UInt8) :
    ByteArray.toList.loop bs i r = r.reverse ++ bs.data.toList.drop i := by
  fun_induction ByteArray.toList.loop bs i r with
  | case1 i r h ih =>
      have hi : i < bs.data.size := h
      have hget : bs.get! i = bs.data.toList[i] := getElem!_pos bs.data i hi
      rw [ih, List.drop_eq_getElem_cons hi, hget, List.reverse_cons, List.append_assoc,
        List.singleton_append]
  | case2 i r h =>
      have hi : bs.data.toList.length ≤ i := by simpa using h
      rw [List.drop_eq_nil_of_le hi, List.append_nil]

/-- A text that is written to a file is read from it again. -/
theorem textOfBytes_bytesOfText (text : String) : textOfBytes (bytesOfText text) = text := by
  have hbytes : text.toByteArray.toList.toArray = text.toByteArray.data := by
    simp [ByteArray.toList, byteArray_toList_loop]
  have hvalid : String.fromUTF8? text.toByteArray = some text := dif_pos text.isValidUTF8
  rw [textOfBytes, bytesOfText, String.toUTF8_eq_toByteArray, hbytes, hvalid]

namespace FileStore

-- The search for a slash has passed `l` and finds none in `r`.
theorem splitOnAux_slash (l r : List Char) (h : '/' ∉ r) :
    String.splitOnAux (String.ofList (l ++ r)) "/" 0 ⟨String.utf8Len l⟩ 0 [] =
      [String.ofList (l ++ r)] := by
  induction r generalizing l with
  | nil =>
      rw [String.splitOnAux, if_pos (by simp [String.atEnd_iff])]
      simpa using String.extract_of_valid [] l []
  | cons c r ih =>
      rw [List.mem_cons, not_or] at h
      have hend : ¬String.Pos.Raw.atEnd (String.ofList (l ++ c :: r)) ⟨String.utf8Len l⟩ := by
        have hc := c.utf8Size_pos
        simp only [String.atEnd_iff, String.rawEndPos_ofList, String.utf8Len_append,
          String.utf8Len_cons, String.Pos.Raw.mk_le_mk]
        omega
      have hget : String.Pos.Raw.get (String.ofList (l ++ c :: r)) ⟨String.utf8Len l⟩ = c :=
        String.get_of_valid l (c :: r)
      have hslash : (c == String.Pos.Raw.get "/" 0) = false := by
        rw [beq_eq_false_iff_ne]
        exact Ne.symm h.1
      have hnext : String.Pos.Raw.next (String.ofList (l ++ c :: r))
          ((⟨String.utf8Len l⟩ : String.Pos.Raw).unoffsetBy 0) = ⟨String.utf8Len (l ++ [c])⟩ := by
        simpa using String.next_of_valid l c r
      rw [String.splitOnAux, if_neg hend, hget, hslash, if_neg Bool.false_ne_true, hnext]
      simpa using ih (l ++ [c]) h.2

/-- A name without a slash is a path of one part. -/
theorem splitOn_slash {name : String} (h : '/' ∉ name.toList) : name.splitOn "/" = [name] := by
  have haux := splitOnAux_slash [] name.toList h
  rw [List.nil_append, String.ofList_toList] at haux
  exact haux

/-- A name is the path of an entry of the working directory. -/
theorem resolve?_name (fs : FileStore) {name : String} (hslash : '/' ∉ name.toList)
    (hname : name ∉ ["", ".", ".."]) : fs.resolve? name = some [name] := by
  simp only [List.mem_cons, List.not_mem_nil, or_false, not_or] at hname
  have hstart : ¬name.startsWith "/" := by
    intro h
    rw [String.startsWith_string_iff] at h
    exact hslash (h.subset (by decide))
  have hempty : name.isEmpty = false := by
    simpa using hname.1
  simp [resolve?, follow, hstart, hempty, hname, splitOn_slash hslash, isDirectory]

end FileStore

namespace Command

/-- A call of a function of a tree file, with the arguments that give its words. -/
structure Call where
  options : Options
  settings : Settings
  tree : String
  function : String
  texts : List String
  words : List Word

/-- The arguments of the command ask for a call: they are options and positional arguments in any
order, the settings can be loaded, and the positional arguments are the tree file, the function and
one text for each word. -/
structure Asks (Reads : String → Word → Prop) (args : List String) (files : FileStore) (c : Call) :
    Prop where
  spelled : ∃ items, Options.Spelled items args ∧ Options.ofItems items = c.options ∧
    items.filterMap Options.Item.text? = c.tree :: c.function :: c.texts
  settings : Command.settings files c.options = .ok c.settings
  words : List.Forall₂ Reads c.texts c.words

theorem words?_eq_some_iff {texts : List String} {words : List Word} :
    words? texts = some words ↔ List.Forall₂ Argument.AtFront texts words := by
  induction texts generalizing words with
  | nil => simp [words?, eq_comm]
  | cons text texts ih =>
      simp only [words?, Option.bind_eq_bind, Option.bind_eq_some_iff, Option.pure_def,
        Option.some.injEq, List.forall₂_cons_left_iff, Argument.word?_eq_some_iff, ih]
      constructor
      · rintro ⟨w, hw, rest, hrest, rfl⟩
        exact ⟨w, rest, hw, hrest, rfl⟩
      · rintro ⟨w, rest, hw, hrest, rfl⟩
        exact ⟨w, hw, rest, hrest, rfl⟩

theorem asks_iff {args : List String} {files : FileStore} {c : Call} :
    Asks Argument.AtFront args files c ↔
      Options.parse args = .ok c.options ∧
        c.options.positional = c.tree :: c.function :: c.texts ∧
        settings files c.options = .ok c.settings ∧ words? c.texts = some c.words := by
  rw [Options.parse_eq_ok_iff, words?_eq_some_iff]
  constructor
  · rintro ⟨⟨items, hitems, hoptions, htexts⟩, hsettings, hwords⟩
    refine ⟨⟨items, hitems, hoptions⟩, ?_, hsettings, hwords⟩
    rw [← hoptions, Options.ofItems_positional, htexts]
  · rintro ⟨⟨items, hitems, hoptions⟩, hpositional, hsettings, hwords⟩
    refine ⟨⟨items, hitems, hoptions, ?_⟩, hsettings, hwords⟩
    rw [← Options.ofItems_positional, hoptions, hpositional]

/-- The arguments ask for one call at most. -/
theorem Asks.unique {args : List String} {files : FileStore} {c c' : Call}
    (h : Asks Argument.AtFront args files c) (h' : Asks Argument.AtFront args files c') :
    c' = c := by
  obtain ⟨hparse, hpositional, hsettings, hwords⟩ := asks_iff.mp h
  obtain ⟨hparse', hpositional', hsettings', hwords'⟩ := asks_iff.mp h'
  cases c
  cases c'
  grind

section Prepared

variable {args : List String} {files : FileStore} {accepts : Options → Bool} {complaint : String}
  {act : Options → Settings → Outcome} {o : Options}

theorem prepared_of_parse_error {e : OptionError} (hparse : Options.parse args = .error e) :
    prepared args files accepts complaint act = failure files "" e.message := by
  simp only [prepared, hparse]

theorem prepared_of_not_accepted (hparse : Options.parse args = .ok o) (h : accepts o = false) :
    prepared args files accepts complaint act = failure files "" complaint := by
  simp [prepared, hparse, h]

theorem prepared_of_settings_error {e : SettingsError} (hparse : Options.parse args = .ok o)
    (h : accepts o) (hsettings : settings files o = .error e) :
    prepared args files accepts complaint act =
      failure files "" ("Failed to load configuration: " ++ e.message) := by
  simp [prepared, hparse, h, hsettings]

theorem prepared_of_ok {s : Settings} (hparse : Options.parse args = .ok o) (h : accepts o)
    (hsettings : settings files o = .ok s) :
    prepared args files accepts complaint act = act o s := by
  simp [prepared, hparse, h, hsettings]

end Prepared

theorem run_of_asks {args : List String} {files : FileStore} {c : Call}
    (h : Asks Argument.AtFront args files c) :
    run args files = simulate files c.options c.settings c.tree c.function c.words := by
  obtain ⟨hparse, hpositional, hsettings, hwords⟩ := asks_iff.mp h
  rw [run, prepared_of_ok hparse (by simp [hpositional]) hsettings]
  simp [hpositional, hwords]

theorem exists_cons_cons {args : List String} (h : 2 ≤ args.length) :
    ∃ tree function texts, args = tree :: function :: texts := by
  rcases args with _ | ⟨tree, _ | ⟨function, texts⟩⟩
  · simp at h
  · simp at h
  · exact ⟨tree, function, texts, rfl⟩

/-- The answer is fixed before the tree file is read: it is the same whatever the file holds. -/
theorem run_of_not_asks {args : List String} {files : FileStore}
    (h : ¬∃ c, Asks Argument.AtFront args files c) :
    ∃ message, ∀ files', settings files' = settings files →
      run args files' = failure files' "" message := by
  cases hparse : Options.parse args with
  | error e => exact ⟨e.message, fun files' _ => prepared_of_parse_error hparse⟩
  | ok o =>
      rcases Nat.lt_or_ge o.positional.length 2 with hshort | hlong
      · exact ⟨_, fun files' _ => prepared_of_not_accepted hparse (by simpa using hshort)⟩
      · have haccepted : decide (2 ≤ o.positional.length) := decide_eq_true hlong
        cases hsettings : settings files o with
        | error e =>
            exact ⟨_, fun files' hfiles =>
              prepared_of_settings_error hparse haccepted (hfiles ▸ hsettings)⟩
        | ok s =>
            obtain ⟨tree, function, texts, hpositional⟩ := exists_cons_cons hlong
            cases hwords : words? texts with
            | none =>
                refine ⟨"Execution failed: stoll", fun files' hfiles => ?_⟩
                rw [run, prepared_of_ok hparse haccepted (hfiles ▸ hsettings)]
                simp [hpositional, hwords]
            | some words =>
                exact absurd ⟨⟨o, s, tree, function, texts, words⟩,
                  asks_iff.mpr ⟨hparse, hpositional, hsettings, hwords⟩⟩ h

/-- The texts are numerals in full if they start with numerals and nothing else stands in them. -/
theorem forall₂_inFull_iff {texts : List String} {words : List Word} :
    List.Forall₂ Argument.InFull texts words ↔
      (∀ text ∈ texts, Argument.Bare text.toList) ∧ List.Forall₂ Argument.AtFront texts words := by
  have hreading : Argument.InFull =
      fun text w => Argument.Bare text.toList ∧ Argument.AtFront text w := by
    funext text w
    exact propext Argument.numeral_iff
  rw [← List.forall₂_and_left, hreading]

theorem asks_inFull_iff {args : List String} {files : FileStore} {c : Call} :
    Asks Argument.InFull args files c ↔
      Asks Argument.AtFront args files c ∧ ∀ text ∈ c.texts, Argument.Bare text.toList := by
  constructor
  · rintro ⟨hspelled, hsettings, hwords⟩
    obtain ⟨hbare, hfront⟩ := forall₂_inFull_iff.mp hwords
    exact ⟨⟨hspelled, hsettings, hfront⟩, hbare⟩
  · rintro ⟨⟨hspelled, hsettings, hfront⟩, hbare⟩
    exact ⟨hspelled, hsettings, forall₂_inFull_iff.mpr ⟨hbare, hfront⟩⟩

/-- The command does what its arguments say when their texts are read in some way: it makes the one
call they ask for, and if they ask for none it fails, whatever program the tree file holds. -/
structure Heeds (Reads : String → Word → Prop) (args : List String) (files : FileStore) : Prop where
  unique : ∀ c c', Asks Reads args files c → Asks Reads args files c' → c' = c
  call : ∀ c, Asks Reads args files c →
    run args files = simulate files c.options c.settings c.tree c.function c.words
  refuse : (¬∃ c, Asks Reads args files c) → ∃ message, ∀ files', settings files' = settings files →
    run args files' = failure files' "" message

/-- The command reads the numerals that its arguments start with. It reads them in full, and refuses
everything else, unless all of them start with numerals and one has something else in it, too. -/
theorem run_heeds_arguments (args : List String) (files : FileStore) :
    Heeds Argument.AtFront args files ∧
      (∀ c, Asks Argument.InFull args files c ↔
        Asks Argument.AtFront args files c ∧ ∀ text ∈ c.texts, Argument.Bare text.toList) ∧
      ((∀ c, Asks Argument.AtFront args files c → ∀ text ∈ c.texts, Argument.Bare text.toList) →
        Heeds Argument.InFull args files) := by
  refine ⟨⟨fun c c' => Asks.unique, fun c => run_of_asks, run_of_not_asks⟩,
    fun c => asks_inFull_iff, fun hbare => ⟨?_, ?_, ?_⟩⟩
  · intro c c' h h'
    exact (asks_inFull_iff.mp h).1.unique (asks_inFull_iff.mp h').1
  · intro c h
    exact run_of_asks (asks_inFull_iff.mp h).1
  · intro hnone
    apply run_of_not_asks
    rintro ⟨c, h⟩
    exact hnone ⟨c, asks_inFull_iff.mpr ⟨h, hbare c h⟩⟩

/-- A tree file with a function that gives the difference of its arguments. -/
def gapTree : String :=
  "\x7b\"body\":[\x7b\"kind\":\"FunctionDef\",\"name\":\"gap\",\"args\":[\"a\",\"b\"],\"body\":[" ++
  "\x7b\"kind\":\"Return\",\"value\":\x7b\"kind\":\"BinOp\",\"op\":\"Sub\"," ++
  "\"left\":\x7b\"kind\":\"Name\",\"id\":\"a\"\x7d," ++
  "\"right\":\x7b\"kind\":\"Name\",\"id\":\"b\"\x7d\x7d\x7d]\x7d]\x7d"

def gapFiles : FileStore := { entries := [(["gap.json"], .file (bytesOfText gapTree))] }

theorem gapFiles_read : gapFiles.read? "gap.json" = some (bytesOfText gapTree) := by
  rw [FileStore.read?, FileStore.resolve?_name _ (by decide) (by decide)]
  rfl

/-- The program of a tree file that holds a text. -/
theorem lower_of_text {files : FileStore} {path text : String} (s : Settings)
    (h : files.read? path = some (bytesOfText text)) :
    lower files path s = do
      let source ← (Document.parse text).mapError .read
      let program ← (source.compile s.jobs).mapError .compile
      return (((pipeline s).run program).1,
        report ((pipeline s).run program).1 ((pipeline s).run program).2) := by
  simp only [lower, h, textOfBytes_bytesOfText]
  cases Document.parse text with
  | error e => rfl
  | ok source =>
      dsimp only [Except.mapError, bind, Except.bind]
      cases source.compile s.jobs with
      | error e => rfl
      | ok program => rfl

theorem gapFiles_settings {o : Options} (h : o.config = "") :
    settings gapFiles o = .ok (o.override {}) := by
  have hnone : gapFiles.fileExists defaultConfig = false := by
    rw [FileStore.fileExists, FileStore.resolve?_name _ (by decide) (by decide)]
    rfl
  simp [settings, h, hnone]

def signedArgs : List String := ["-j", "2", "gap.json", "gap", "-7", "-O0", "+0012"]

def signedCall : Call where
  options := { positional := ["gap.json", "gap", "-7", "+0012"], allOff := true, jobs := some 2 }
  settings := { deadStore := false, peephole := false, jobs := 2 }
  tree := "gap.json"
  function := "gap"
  texts := ["-7", "+0012"]
  words := [-7, 12]

/-- One more than the largest word. -/
def beyondArgs : List String := ["gap.json", "gap", "9223372036854775808", "1"]

/-- Numerals with signs are no options, and a number that is no word is refused. -/
theorem signedArgs_heeded :
    (Asks Argument.InFull signedArgs gapFiles signedCall ∧
      Heeds Argument.InFull signedArgs gapFiles ∧
      (run signedArgs gapFiles).stdout = "Result: -19\n") ∧
    (¬∃ c, Asks Argument.AtFront beyondArgs gapFiles c) ∧
      ∃ message, run beyondArgs gapFiles = failure gapFiles "" message := by
  constructor
  · have hfront : Asks Argument.AtFront signedArgs gapFiles signedCall :=
      asks_iff.mpr ⟨by decide, rfl, gapFiles_settings rfl, by decide⟩
    have hbare : ∀ text ∈ signedCall.texts, Argument.Bare text.toList := by decide
    obtain ⟨hheeds, hfull, hheedsFull⟩ := run_heeds_arguments signedArgs gapFiles
    refine ⟨(hfull signedCall).mpr ⟨hfront, hbare⟩, hheedsFull fun c hc => ?_, ?_⟩
    · obtain rfl := hheeds.unique signedCall c hfront hc
      exact hbare
    · have hcall : run signedArgs gapFiles =
          simulate gapFiles signedCall.options signedCall.settings "gap.json" "gap" [-7, 12] :=
        hheeds.call signedCall hfront
      rw [hcall, simulate, lower_of_text _ gapFiles_read]
      decide +kernel
  · have hnone : ¬∃ c, Asks Argument.AtFront beyondArgs gapFiles c := by
      rintro ⟨c, hc⟩
      obtain ⟨hparse, hpositional, -, hwords⟩ := asks_iff.mp hc
      have hoptions : Options.parse beyondArgs = .ok { positional := beyondArgs } := by decide
      rw [← Except.ok.inj (hoptions.symm.trans hparse)] at hpositional
      have htexts : c.texts = ["9223372036854775808", "1"] := by
        injection hpositional with _ hrest
        injection hrest with _ htexts
        exact htexts.symm
      have hrefused : words? ["9223372036854775808", "1"] = none := by decide
      rw [htexts, hrefused] at hwords
      cases hwords
    obtain ⟨message, hmessage⟩ := (run_heeds_arguments beyondArgs gapFiles).1.refuse hnone
    exact ⟨hnone, message, hmessage gapFiles rfl⟩

def trailingArgs : List String := ["gap.json", "gap", "12", "7x"]

def trailingCall : Call where
  options := { positional := trailingArgs }
  settings := {}
  tree := "gap.json"
  function := "gap"
  texts := ["12", "7x"]
  words := [12, 7]

/-- The last argument is no numeral, and the function is called with the 7 in front of it. -/
theorem trailingArgs_called :
    (run trailingArgs gapFiles).stdout = "Result: 5\n" ∧ (∀ w, ¬Argument.InFull "7x" w) ∧
      ¬Heeds Argument.InFull trailingArgs gapFiles := by
  have hfront : Asks Argument.AtFront trailingArgs gapFiles trailingCall :=
    asks_iff.mpr ⟨by decide, rfl, gapFiles_settings rfl, by decide⟩
  have hstdout : (run trailingArgs gapFiles).stdout = "Result: 5\n" := by
    have hcall : run trailingArgs gapFiles =
        simulate gapFiles trailingCall.options trailingCall.settings "gap.json" "gap" [12, 7] :=
      run_of_asks hfront
    rw [hcall, simulate, lower_of_text _ gapFiles_read]
    decide +kernel
  have htext : ∀ w, ¬Argument.InFull "7x" w := by
    intro w h
    have hbare : Argument.Bare "7x".toList := (Argument.numeral_iff.mp h).1
    exact absurd hbare (by decide)
  refine ⟨hstdout, htext, fun h => ?_⟩
  have hnone : ¬∃ c, Asks Argument.InFull trailingArgs gapFiles c := by
    rintro ⟨c, hc⟩
    obtain ⟨hasked, hbare⟩ := asks_inFull_iff.mp hc
    obtain rfl := hfront.unique hasked
    exact absurd (hbare "7x" (by decide)) (by decide)
  obtain ⟨message, hmessage⟩ := h.refuse hnone
  rw [hmessage gapFiles rfl] at hstdout
  simp [failure] at hstdout

end Command

end Arbor
