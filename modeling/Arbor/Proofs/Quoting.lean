import Mathlib
import Arbor.Proofs.Expansion

/-!
How the shell reads a path that was put into a command. A quoted text is closed and opened again at
each quote inside it; the shell, which reads the quotes by rules of its own, gets every character of
it as quoted, and is outside quotes behind it as it was in front of it. So where a placeholder stands
between blanks, the shell finds one word there, and that word is the path.
-/

namespace Arbor

namespace Shell

def isBlank (c : Char) : Bool := c = ' ' || c = '\t'

/-- What is left after a word is no longer than the text, and shorter if a word starts there. -/
theorem readWord_rest {q : Quoting} {cs : List Char} {w : WordRead} (h : readWord q cs = some w) :
    w.rest.length ≤ cs.length ∧
      (q = .plain → (∀ c ∈ cs.head?, ¬endsWord c) → cs ≠ [] → w.rest.length < cs.length) := by
  fun_induction readWord q cs generalizing w with
  | case1 =>
      cases h
      simp
  | case2 => cases h
  | case9 c rest _ _ _ _ hends =>
      cases h
      simp [hends]
  | case3 rest ih | case11 rest ih | case13 rest ih | case14 rest ih =>
      have := (ih h).1
      simp only [List.length_cons]
      omega
  | case4 | case5 | case6 | case7 | case8 | case10 | case12 | case15 | case16 | case17 | case18
  | case19 =>
      rename_i ih
      obtain ⟨w', hw', rfl⟩ := Option.map_eq_some_iff.mp h
      have := (ih hw').1
      simp only [List.length_cons, WordRead.cons, WordRead.markQuoted] at this ⊢
      omega

theorem readOperator?_rest {cs rest : List Char} {op : String}
    (h : readOperator? cs = some (op, rest)) : rest.length < cs.length := by
  obtain ⟨op', hfind, heq⟩ := Option.map_eq_some_iff.mp h
  cases heq
  have hnonempty : ∀ op ∈ operators, 0 < op.length := by decide
  have hpos := hnonempty op (List.mem_of_find?_eq_some hfind)
  have hstarts := List.find?_some hfind
  rw [List.isPrefixOf_iff_prefix] at hstarts
  have hle := hstarts.length_le
  rw [String.length_toList] at hle
  rw [List.length_drop]
  omega

/-- Outside quotes, words end at blanks and where an operator starts. -/
theorem isBlank_of_endsWord {c : Char} {cs : List Char} (hends : endsWord c)
    (h : readOperator? (c :: cs) = none) : isBlank c := by
  have hnone := List.find?_eq_none.mp (Option.map_eq_none_iff.mp h)
  have hop : ∀ op ∈ operators, op.toList ≠ [c] := by
    intro op hmem heq
    exact hnone op hmem (by rw [heq]; simp)
  simp only [endsWord, Bool.or_eq_true, decide_eq_true_eq] at hends
  rw [isBlank, Bool.or_eq_true, decide_eq_true_eq, decide_eq_true_eq]
  rcases hends with ((((((((rfl | rfl) | rfl) | rfl) | rfl) | rfl) | rfl) | rfl) | rfl) | rfl
  · exact .inl rfl
  · exact .inr rfl
  · exact absurd rfl (hop "\n" (by decide))
  · exact absurd rfl (hop ";" (by decide))
  · exact absurd rfl (hop "&" (by decide))
  · exact absurd rfl (hop "|" (by decide))
  · exact absurd rfl (hop "<" (by decide))
  · exact absurd rfl (hop ">" (by decide))
  · exact absurd rfl (hop "(" (by decide))
  · exact absurd rfl (hop ")" (by decide))

/-- A word takes at least one character. -/
theorem readWord_shorter {c : Char} {cs : List Char} {w : WordRead} (hblank : isBlank c = false)
    (hop : readOperator? (c :: cs) = none) (hword : readWord .plain (c :: cs) = some w) :
    w.rest.length < (c :: cs).length := by
  apply (readWord_rest hword).2 rfl
  · intro d hd hends
    cases hd
    rw [isBlank_of_endsWord hends hop] at hblank
    cases hblank
  · exact List.cons_ne_nil c cs

/-- Each token takes at least one character, so more fuel than there are characters changes
nothing. -/
theorem tokens_fuel {fuel fuel' : Nat} {cs : List Char} (h : cs.length < fuel)
    (h' : cs.length < fuel') : tokens fuel cs = tokens fuel' cs := by
  induction fuel generalizing fuel' cs with
  | zero => omega
  | succ fuel ih =>
      obtain ⟨fuel', rfl⟩ : ∃ n, fuel' = n + 1 := ⟨fuel' - 1, by omega⟩
      have hsame : ∀ rest : List Char, rest.length < cs.length → tokens fuel rest = tokens fuel' rest :=
        fun rest hrest => ih (by omega) (by omega)
      rw [tokens, tokens]
      have hle := List.length_dropWhile_le (fun c => decide (c = ' ') || decide (c = '\t')) cs
      have hhead := List.head?_dropWhile_not (fun c => decide (c = ' ') || decide (c = '\t')) cs
      generalize cs.dropWhile _ = ds at hle hhead ⊢
      split
      · rfl
      · rename_i rest
        have hrest := List.length_dropWhile_le (fun x => decide (x ≠ '\n')) rest
        rw [List.length_cons] at hle
        exact hsame _ (by omega)
      · rename_i rest
        rw [List.length_cons, List.length_cons] at hle
        exact hsame _ (by omega)
      · cases hop : readOperator? ds with
        | some found =>
            have hrest := readOperator?_rest hop
            dsimp only
            rw [hsame _ (by omega)]
        | none =>
            dsimp only
            cases hword : readWord .plain ds with
            | none => rfl
            | some w =>
                obtain ⟨c, cs', rfl⟩ := List.exists_cons_of_ne_nil ‹ds = [] → False›
                have hrest := readWord_shorter hhead hop hword
                dsimp only
                rw [hsame _ (by omega)]

/-- The tokens of a text. -/
def lex (cs : List Char) : Except SyntaxFault (List Token) := tokens (cs.length + 1) cs

theorem tokens_eq_lex {fuel : Nat} {cs : List Char} (h : cs.length < fuel) : tokens fuel cs = lex cs :=
  tokens_fuel h (Nat.lt_succ_self _)

theorem lex_blank {b : Char} (h : isBlank b) (cs : List Char) : lex (b :: cs) = lex cs := by
  have hdrop : (b :: cs).dropWhile (fun c => c = ' ' || c = '\t') =
      cs.dropWhile fun c => c = ' ' || c = '\t' := List.dropWhile_cons_of_pos h
  have hskip : tokens (cs.length + 2) (b :: cs) = tokens (cs.length + 2) cs := by
    rw [tokens, tokens, hdrop]
  exact hskip.trans (tokens_eq_lex (by omega))

/-- A word all of whose characters are quoted. -/
def Word.literal (text : String) : Word where
  pieces := text.toList.map (.char · true)
  quoted := true

/-- The characters, all of them quoted, before what was read after them. -/
def WordRead.prepend (text : List Char) (w : WordRead) : WordRead where
  pieces := text.map (.char · true) ++ w.pieces
  quoted := true
  rest := w.rest

theorem readWord_quoteChars (text rest : List Char) :
    (readWord .single (quoteChars text ++ '\'' :: rest)).map WordRead.markQuoted =
      (readWord .plain rest).map (WordRead.prepend text) := by
  fun_induction quoteChars text with
  | case1 =>
      rw [List.nil_append, readWord]
      rfl
  | case2 text ih =>
      -- the quotes close, a backslash gives the quote itself, and the quotes open again
      have hquote : readWord .single ('\'' :: '\\' :: '\'' :: '\'' :: (quoteChars text ++ '\'' :: rest)) =
          ((readWord .single (quoteChars text ++ '\'' :: rest)).map WordRead.markQuoted).map
            fun w => (w.cons (.char '\'' true)).markQuoted := by
        rw [readWord, readWord, if_neg (by decide), readWord]
      simp only [List.cons_append, List.nil_append]
      rw [hquote, ih]
      cases readWord .plain rest <;> rfl
  | case3 c text hc ih =>
      have hchar : readWord .single (c :: (quoteChars text ++ '\'' :: rest)) =
          (readWord .single (quoteChars text ++ '\'' :: rest)).map (WordRead.cons (.char c true)) := by
        rw [readWord]
        exact hc
      have hcomm : ∀ w : Option WordRead, (w.map (WordRead.cons (.char c true))).map
          WordRead.markQuoted = (w.map WordRead.markQuoted).map (WordRead.cons (.char c true)) := by
        intro w
        cases w <;> rfl
      rw [List.cons_append, hchar, hcomm, ih]
      cases readWord .plain rest <;> rfl

theorem quote_toList_append (text : String) (rest : List Char) :
    (quote text).toList ++ rest = '\'' :: (quoteChars text.toList ++ '\'' :: rest) := by
  simp [quote]

/-- Reading goes on behind a quoted text as it would have in its place, outside quotes. -/
theorem readWord_quote (text : String) (rest : List Char) :
    readWord .plain ((quote text).toList ++ rest) =
      (readWord .plain rest).map (WordRead.prepend text.toList) := by
  rw [← readWord_quoteChars, quote_toList_append, readWord]

/-- A character that has nothing to do with quoting is read as it is, unless it ends the word. -/
theorem readWord_plain {c : Char} (h : c ∉ ['\\', '$', '\'', '"']) (rest : List Char) :
    readWord .plain (c :: rest) =
      if endsWord c then some { pieces := [], quoted := false, rest := c :: rest }
      else (readWord .plain rest).map (·.cons (.char c false)) := by
  simp only [List.mem_cons, List.not_mem_nil, or_false, not_or] at h
  obtain ⟨hbackslash, hdollar, hsingle, hdouble⟩ := h
  rw [readWord]
  · exact fun _ _ hc _ => hbackslash hc
  · exact fun _ _ hc _ => hdollar hc
  · exact hsingle
  · exact hdouble

/-- A word cannot go on here. -/
def Separated (after : List Char) : Prop := ∀ c ∈ after.head?, isBlank c

theorem separated_cons {b : Char} {rest : List Char} : Separated (b :: rest) ↔ isBlank b := by
  simp [Separated]

theorem readWord_separated {after : List Char} (h : Separated after) :
    readWord .plain after = some { pieces := [], quoted := false, rest := after } := by
  cases after with
  | nil => rfl
  | cons b rest =>
      have hblank := separated_cons.mp h
      rw [isBlank, Bool.or_eq_true, decide_eq_true_eq, decide_eq_true_eq] at hblank
      rcases hblank with rfl | rfl
      · exact readWord_plain (by decide) rest
      · exact readWord_plain (by decide) rest

theorem foldl_push (done : List String) (field : String) (cs : List Char) :
    cs.foldl (fun x c => (x.1, some ((x.2.getD "").push c))) (done, some field) =
      (done, some (field ++ String.ofList cs)) := by
  induction cs generalizing field with
  | nil => simp
  | cons c cs ih =>
      rw [List.foldl_cons]
      refine (ih (field.push c)).trans ?_
      rw [String.ofList_cons, ← String.append_assoc, String.push_eq_append]

/-- Quoted characters are neither split nor replaced. -/
theorem fields_literal (value : Char → String) (text : String) :
    (Word.literal text).fields value = [text] := by
  simp only [Word.fields, Word.literal, List.foldl_map, if_true]
  rw [foldl_push]
  simp

theorem tokens_word {c : Char} {cs : List Char} {w : WordRead} (hblank : isBlank c = false)
    (hcomment : c ≠ '#') (hbackslash : c ≠ '\\') (hop : readOperator? (c :: cs) = none)
    (hword : readWord .plain (c :: cs) = some w) (hchannel : isChannel w = none) (fuel : Nat) :
    tokens (fuel + 1) (c :: cs) =
      (tokens fuel w.rest).map (.word { pieces := w.pieces, quoted := w.quoted } :: ·) := by
  have hdrop : (c :: cs).dropWhile (fun c => c = ' ' || c = '\t') = c :: cs := by
    rw [List.dropWhile_cons_of_neg]
    rw [Bool.not_eq_true]
    exact hblank
  rw [tokens, hdrop]
  split
  · rename_i heq
    cases heq
  · rename_i heq
    cases heq
    exact absurd rfl hcomment
  · rename_i heq
    cases heq
    exact absurd rfl hbackslash
  · simp only [hop, hword, hchannel]
    cases tokens fuel w.rest <;> rfl

theorem lex_quote {after : List Char} (h : Separated after) (text : String) :
    lex ((quote text).toList ++ after) = (lex after).map (.word (.literal text) :: ·) := by
  have hword : readWord .plain ((quote text).toList ++ after) =
      some { pieces := (Word.literal text).pieces, quoted := true, rest := after } := by
    rw [readWord_quote, readWord_separated h]
    simp [WordRead.prepend, Word.literal]
  rw [quote_toList_append] at hword ⊢
  have hop : readOperator? ('\'' :: (quoteChars text.toList ++ '\'' :: after)) = none := by
    simp [readOperator?, operators]
  rw [lex, tokens_word rfl (by decide) (by decide) hop hword rfl, tokens_eq_lex]
  · rfl
  · simp
    omega

/-- Having read the text, the shell is outside quotes and between words: whatever follows is read
as on its own. -/
def Reaches (before : List Char) (ts : List Token) : Prop :=
  ∀ rest, lex (before ++ rest) = (lex rest).map (ts ++ ·)

/-- The text is the word, wherever the shell comes to it outside quotes and between words. -/
structure ReadsAs (text : List Char) (word : String) : Prop where
  /-- The shell is handed the whole text. -/
  handed : ∀ rest, terminated (String.ofList text ++ rest) = String.ofList text ++ terminated rest
  /-- Every character is read as quoted, and reading goes on outside quotes. -/
  resumes : ∀ rest, readWord .plain (text ++ rest) =
    (readWord .plain rest).map (WordRead.prepend word.toList)
  /-- One token is read. -/
  token : ∀ before ts after, Reaches before ts → Separated after →
    lex (before ++ (text ++ after)) = (lex after).map (ts ++ .word (.literal word) :: ·)
  /-- A blank later, the shell is between words again. -/
  reaches : ∀ before ts b, Reaches before ts → isBlank b →
    Reaches (before ++ (text ++ [b])) (ts ++ [.word (.literal word)])
  /-- The token is one field, with the text of the word. -/
  field : ∀ value, (Word.literal word).fields value = [word]

theorem terminated_append {text : List Char} (h : '\x00' ∉ text) (rest : String) :
    terminated (String.ofList text ++ rest) = String.ofList text ++ terminated rest := by
  have htake : ∀ c ∈ text, decide (c ≠ '\x00') := by
    intro c hc
    rw [decide_eq_true_eq]
    rintro rfl
    exact h hc
  apply String.toList_inj.mp
  rw [terminated_toList, String.toList_append, String.toList_append, String.toList_ofList,
    terminated_toList, List.takeWhile_append_of_pos htake]

theorem mem_quoteChars {c : Char} {text : List Char} (h : c ∈ quoteChars text) :
    c ∈ text ∨ c = '\'' ∨ c = '\\' := by
  fun_induction quoteChars text with
  | case1 => cases h
  | case2 text ih =>
      simp only [List.cons_append, List.nil_append, List.mem_cons] at h ⊢
      tauto
  | case3 d text _ ih =>
      rcases List.mem_cons.mp h with rfl | h
      · exact .inl List.mem_cons_self
      · exact (ih h).imp_left (List.mem_cons_of_mem d)

theorem notMem_quote {text : String} (h : '\x00' ∉ text.toList) : '\x00' ∉ (quote text).toList := by
  intro hmem
  have hinner : '\x00' ∈ quoteChars text.toList := by simpa [quote] using hmem
  rcases mem_quoteChars hinner with hmem | hquote | hbackslash
  · exact h hmem
  · cases hquote
  · cases hbackslash

theorem readsAs_quote {text : String} (h : '\x00' ∉ text.toList) :
    ReadsAs (quote text).toList text := by
  have htoken : ∀ before ts after, Reaches before ts → Separated after →
      lex (before ++ ((quote text).toList ++ after)) =
        (lex after).map (ts ++ .word (.literal text) :: ·) := by
    intro before ts after hbefore hafter
    rw [hbefore, lex_quote hafter]
    cases lex after <;> rfl
  refine ⟨terminated_append (notMem_quote h), readWord_quote text, htoken, ?_,
    fun value => fields_literal value text⟩
  intro before ts b hbefore hb rest
  have hlex := htoken before ts (b :: rest) hbefore (separated_cons.mpr hb)
  rw [lex_blank hb] at hlex
  simpa using hlex

end Shell

namespace Toolchain

/-- A text that a word may start after: it is empty, or a blank ends it. -/
def EndsBlank (before : List Char) : Prop := ∀ c ∈ before.getLast?, Shell.isBlank c

theorem EndsBlank.cases_of {before : List Char} (h : EndsBlank before) :
    before = [] ∨ ∃ a b, before = a ++ [b] ∧ Shell.isBlank b := by
  rcases List.eq_nil_or_concat before with rfl | ⟨a, b, rfl⟩
  · exact .inl rfl
  · exact .inr ⟨a, b, List.concat_eq_append, h b (by simp)⟩

theorem endsBlank_concat (a : List Char) {b : Char} (h : Shell.isBlank b) : EndsBlank (a ++ [b]) := by
  simpa [EndsBlank] using h

namespace Placeholder

variable (k : Placeholder) (path : String)

theorem blank_notMem_text {b : Char} (h : Shell.isBlank b) : b ∉ k.text := by
  rw [Shell.isBlank, Bool.or_eq_true, decide_eq_true_eq, decide_eq_true_eq] at h
  rcases h with rfl | rfl <;> cases k <;> simp

theorem endsBlank_put {before : List Char} (h : EndsBlank before) : EndsBlank (k.put path before) := by
  rcases h.cases_of with rfl | ⟨a, b, rfl, hb⟩
  · exact h
  · rw [k.put_append_cons path (k.blank_notMem_text hb)]
    exact endsBlank_concat _ hb

theorem separated_put {after : List Char} (h : Shell.Separated after) :
    Shell.Separated (k.put path after) := by
  cases after with
  | nil => exact h
  | cons b rest =>
      have hb := Shell.separated_cons.mp h
      have hput := k.put_append_cons path (k.blank_notMem_text hb) [] rest
      rw [List.nil_append, put_nil, List.nil_append] at hput
      rw [hput]
      exact Shell.separated_cons.mpr hb

/-- Behind a blank, what stands for a placeholder is replaced on its own. -/
theorem put_between {before v : List Char} (h : EndsBlank before) (hheld : Held v)
    (after : List Char) :
    k.put path (before ++ (v ++ after)) =
      k.put path before ++ (k.put path v ++ k.put path after) := by
  rcases h.cases_of with rfl | ⟨a, b, rfl, hb⟩
  · exact hheld.put_append k path after
  · have hblank := k.blank_notMem_text hb
    rw [List.append_assoc, List.singleton_append, k.put_append_cons path hblank, hheld.put_append,
      k.put_append_cons path hblank]
    simp

end Placeholder

theorem expandChars_between (paths : Placeholder → String) (k : Placeholder) {before : List Char}
    (h : EndsBlank before) (after : List Char) :
    expandChars paths (before ++ (k.text ++ after)) =
      expandChars paths before ++ (rescanned paths k ++ expandChars paths after) := by
  have hheld : Held k.text := .inl ⟨k, rfl⟩
  have hinput := Placeholder.endsBlank_put .input (paths .input) h
  have hobject := Placeholder.endsBlank_put .object (paths .object) hinput
  rw [← expandChars_text]
  simp only [expandChars]
  rw [Placeholder.put_between _ _ h hheld, Placeholder.put_between _ _ hinput (hheld.put _ _),
    Placeholder.put_between _ _ hobject ((hheld.put _ _).put _ _)]

theorem separated_expandChars (paths : Placeholder → String) {after : List Char}
    (h : Shell.Separated after) : Shell.Separated (expandChars paths after) :=
  Placeholder.separated_put _ _ (Placeholder.separated_put _ _ (Placeholder.separated_put _ _ h))

/-- The paths of a scratch directory whose name the shell would cut into two commands. -/
def severedPaths : Placeholder → String
  | .input => "/tmp/it's; ls/program.asm"
  | .object => "/tmp/it's; ls/program.o"
  | .output => "/tmp/it's; ls/program"

end Toolchain

end Arbor
