import Mathlib
import Arbor.Toolchain

/-!
Command templates and the paths put into them. `Filled` says what it is to put a value in place of
every placeholder of a template at once and to leave the rest of the template alone. Expansion
replaces one placeholder after another instead, and so also replaces placeholders inside the paths
it has put in before. It fills a template exactly if no path that the template asks for has the text
of a placeholder that comes later.
-/

namespace Arbor.Toolchain

inductive Placeholder where
  | input
  | object
  | output
deriving DecidableEq, Repr

namespace Placeholder

def text : Placeholder → List Char
  | .input => inputPlaceholder.toList
  | .object => objectPlaceholder.toList
  | .output => outputPlaceholder.toList

/-- The placeholders that are replaced after this one. -/
def later : Placeholder → List Placeholder
  | .input => [.object, .output]
  | .object => [.output]
  | .output => []

@[simp] theorem text_input : text .input = ['\x7b', 'i', 'n', 'p', 'u', 't', '\x7d'] := rfl

@[simp] theorem text_object : text .object = ['\x7b', 'o', 'b', 'j', 'e', 'c', 't', '\x7d'] := rfl

@[simp] theorem text_output : text .output = ['\x7b', 'o', 'u', 't', 'p', 'u', 't', '\x7d'] := rfl

theorem text_eq_cons (k : Placeholder) : k.text = '\x7b' :: k.text.tail := by
  cases k <;> simp

/-- An opening brace is the first character of a placeholder only, and a quote is none. -/
theorem ne_of_mem_tail (k : Placeholder) {c : Char} (h : c ∈ k.text.tail) :
    c ≠ '\x7b' ∧ c ≠ '\'' := by
  constructor <;> rintro rfl <;> cases k <;> simp at h

theorem quote_notMem_text (k : Placeholder) : '\'' ∉ k.text := by
  cases k <;> simp

theorem text_ne_nil (k : Placeholder) : k.text ≠ [] := by
  cases k <;> simp

/-- No placeholder starts with another one. -/
theorem eq_of_starts {j k : Placeholder} {rest : List Char} (h : k.text <+: j.text ++ rest) :
    k = j := by
  cases j <;> cases k <;> simp [List.cons_prefix_cons] at h ⊢

/-- A placeholder inside a text that starts with one is that one, or occurs in the rest. -/
theorem infix_text_append {j k : Placeholder} {rest : List Char} (h : k.text <:+: j.text ++ rest) :
    k = j ∨ k.text <:+: rest := by
  have htail : ∀ tail : List Char, (∀ c ∈ tail, c ≠ '\x7b') → k.text <:+: tail ++ rest →
      k.text <:+: rest := by
    intro tail htail hoccurs
    induction tail with
    | nil => exact hoccurs
    | cons c tail ih =>
        rw [List.cons_append, List.infix_cons_iff] at hoccurs
        rcases hoccurs with hstarts | hoccurs
        · rw [text_eq_cons k, List.cons_prefix_cons] at hstarts
          exact absurd hstarts.1.symm (htail c List.mem_cons_self)
        · exact ih (fun d hd => htail d (List.mem_cons_of_mem c hd)) hoccurs
  by_cases hstarts : k.text <+: j.text ++ rest
  · exact .inl (eq_of_starts hstarts)
  · rw [text_eq_cons j, List.cons_append] at h hstarts
    rw [List.infix_cons_iff] at h
    exact .inr (htail _ (fun c hc => (j.ne_of_mem_tail hc).1) (h.resolve_left hstarts))

end Placeholder

/-- A text in single quotes. -/
def enclosed (w : List Char) : List Char := '\'' :: (w ++ ['\''])

theorem quote_toList (path : String) :
    (Shell.quote path).toList = enclosed (Shell.quoteChars path.toList) := by
  simp [Shell.quote, enclosed]

section Replacement

variable {pattern replacement : List Char}

theorem replaceFrom_skip (skip : Nat) (text : List Char) :
    replaceFrom pattern replacement skip text = replaceFrom pattern replacement 0 (text.drop skip) := by
  induction text generalizing skip with
  | nil => simp [replaceFrom]
  | cons c rest ih =>
      cases skip with
      | zero => rfl
      | succ skip => simpa [replaceFrom] using ih skip

theorem replaceFrom_pattern_append (hne : pattern ≠ []) (rest : List Char) :
    replaceFrom pattern replacement 0 (pattern ++ rest) =
      replacement ++ replaceFrom pattern replacement 0 rest := by
  obtain ⟨c, tail, rfl⟩ := List.exists_cons_of_ne_nil hne
  have hstarts : (c :: tail).isPrefixOf (c :: (tail ++ rest)) :=
    List.isPrefixOf_iff_prefix.mpr (List.prefix_append (c :: tail) rest)
  rw [List.cons_append, replaceFrom, if_pos hstarts, replaceFrom_skip]
  simp

theorem replaceFrom_cons_of_ne {c : Char} {rest : List Char} (h : ¬pattern <+: c :: rest) :
    replaceFrom pattern replacement 0 (c :: rest) = c :: replaceFrom pattern replacement 0 rest := by
  rw [← List.isPrefixOf_iff_prefix] at h
  rw [replaceFrom, if_neg h]

theorem replaceFrom_of_absent {text : List Char} (h : ¬pattern <:+: text) :
    replaceFrom pattern replacement 0 text = text := by
  induction text with
  | nil => rfl
  | cons c rest ih =>
      rw [List.infix_cons_iff, not_or] at h
      rw [replaceFrom_cons_of_ne h.1, ih h.2]

theorem prefix_append_of_notMem {a b : List Char} {x : Char} (hx : x ∉ pattern)
    (h : pattern <+: a ++ x :: b) : pattern <+: a := by
  induction a generalizing pattern with
  | nil =>
      cases pattern with
      | nil => exact List.nil_prefix
      | cons d pattern =>
          rw [List.nil_append, List.cons_prefix_cons] at h
          rw [h.1] at hx
          exact absurd List.mem_cons_self hx
  | cons c a ih =>
      cases pattern with
      | nil => exact List.nil_prefix
      | cons d pattern =>
          rw [List.cons_append, List.cons_prefix_cons] at h
          rw [List.cons_prefix_cons]
          exact ⟨h.1, ih (fun hmem => hx (List.mem_cons_of_mem d hmem)) h.2⟩

/-- A character that does not occur in the pattern stays, and no occurrence reaches over it. -/
theorem replaceFrom_append_cons (hne : pattern ≠ []) {x : Char} (hx : x ∉ pattern)
    (a b : List Char) :
    replaceFrom pattern replacement 0 (a ++ x :: b) =
      replaceFrom pattern replacement 0 a ++ x :: replaceFrom pattern replacement 0 b := by
  induction hlength : a.length using Nat.strongRecOn generalizing a with
  | ind n ih =>
      by_cases hstarts : pattern <+: a
      · obtain ⟨rest, rfl⟩ := hstarts
        have hshorter : rest.length < n := by
          have := List.length_pos_of_ne_nil hne
          rw [List.length_append] at hlength
          omega
        rw [List.append_assoc, replaceFrom_pattern_append hne, replaceFrom_pattern_append hne,
          ih _ hshorter rest rfl, List.append_assoc]
      · have hstarts' : ¬pattern <+: a ++ x :: b := fun h => hstarts (prefix_append_of_notMem hx h)
        cases a with
        | nil =>
            rw [List.nil_append, replaceFrom_cons_of_ne hstarts']
            rfl
        | cons c a =>
            have hshorter : a.length < n := by
              rw [List.length_cons] at hlength
              omega
            rw [List.cons_append] at hstarts' ⊢
            rw [replaceFrom_cons_of_ne hstarts', replaceFrom_cons_of_ne hstarts,
              ih _ hshorter a rfl, List.cons_append]

end Replacement

namespace Placeholder

/-- Puts a path, quoted for the shell, in place of every occurrence of the placeholder. -/
def put (k : Placeholder) (path : String) (text : List Char) : List Char :=
  replaceFrom k.text (Shell.quote path).toList 0 text

variable (k : Placeholder) (path : String)

@[simp] theorem put_nil : k.put path [] = [] := rfl

theorem put_cons {c : Char} {rest : List Char} (h : ¬k.text <+: c :: rest) :
    k.put path (c :: rest) = c :: k.put path rest :=
  replaceFrom_cons_of_ne h

theorem put_of_absent {text : List Char} (h : ¬k.text <:+: text) : k.put path text = text :=
  replaceFrom_of_absent h

theorem put_append_cons {x : Char} (hx : x ∉ k.text) (a b : List Char) :
    k.put path (a ++ x :: b) = k.put path a ++ x :: k.put path b :=
  replaceFrom_append_cons k.text_ne_nil hx a b

theorem put_self_append (rest : List Char) :
    k.put path (k.text ++ rest) = (Shell.quote path).toList ++ k.put path rest :=
  replaceFrom_pattern_append k.text_ne_nil rest

theorem put_append_of_ne {a : List Char} (h : ∀ c ∈ a, c ≠ '\x7b') (rest : List Char) :
    k.put path (a ++ rest) = a ++ k.put path rest := by
  induction a with
  | nil => rfl
  | cons c a ih =>
      have hstarts : ¬k.text <+: c :: (a ++ rest) := by
        rw [text_eq_cons k, List.cons_prefix_cons]
        exact fun hstarts => h c List.mem_cons_self hstarts.1.symm
      rw [List.cons_append, put_cons k path hstarts, ih fun d hd => h d (List.mem_cons_of_mem c hd),
        List.cons_append]

theorem put_other_append {j : Placeholder} (h : k ≠ j) (rest : List Char) :
    k.put path (j.text ++ rest) = j.text ++ k.put path rest := by
  have hstarts : ¬k.text <+: j.text ++ rest := fun hstarts => h (eq_of_starts hstarts)
  rw [text_eq_cons j, List.cons_append] at hstarts ⊢
  rw [put_cons k path hstarts, put_append_of_ne k path (fun c hc => (j.ne_of_mem_tail hc).1),
    List.cons_append]

@[simp] theorem put_self : k.put path k.text = (Shell.quote path).toList := by
  simpa using k.put_self_append path []

theorem put_other {j : Placeholder} (h : k ≠ j) : k.put path j.text = j.text := by
  simpa using k.put_other_append path h []

theorem put_enclosed_append (w rest : List Char) :
    k.put path (enclosed w ++ rest) = enclosed (k.put path w) ++ k.put path rest := by
  have hopen := k.put_append_cons path k.quote_notMem_text [] (w ++ '\'' :: rest)
  rw [k.put_append_cons path k.quote_notMem_text w rest] at hopen
  simpa [enclosed] using hopen

theorem put_enclosed (w : List Char) : k.put path (enclosed w) = enclosed (k.put path w) := by
  simpa using k.put_enclosed_append path w []

end Placeholder

/-- What stands in the course of an expansion where the template has a placeholder. -/
def Held (v : List Char) : Prop := (∃ k : Placeholder, v = k.text) ∨ ∃ w, v = enclosed w

namespace Held

theorem ne_nil {v : List Char} (h : Held v) : v ≠ [] := by
  rcases h with ⟨k, rfl⟩ | ⟨w, rfl⟩
  · exact k.text_ne_nil
  · exact List.cons_ne_nil _ _

theorem head_eq {v : List Char} (h : Held v) {c : Char} {rest : List Char} (hc : v = c :: rest) :
    c = '\x7b' ∨ c = '\'' := by
  rcases h with ⟨k, rfl⟩ | ⟨w, rfl⟩
  · rw [k.text_eq_cons] at hc
    exact .inl (List.cons.inj hc).1.symm
  · exact .inr (List.cons.inj hc).1.symm

theorem put_append {v : List Char} (h : Held v) (k : Placeholder) (path : String)
    (rest : List Char) : k.put path (v ++ rest) = k.put path v ++ k.put path rest := by
  rcases h with ⟨j, rfl⟩ | ⟨w, rfl⟩
  · by_cases hj : k = j
    · subst hj
      rw [k.put_self_append, k.put_self]
    · rw [k.put_other_append path hj, k.put_other path hj]
  · rw [k.put_enclosed_append, k.put_enclosed]

theorem put {v : List Char} (h : Held v) (k : Placeholder) (path : String) : Held (k.put path v) := by
  rcases h with ⟨j, rfl⟩ | ⟨w, rfl⟩
  · by_cases hj : k = j
    · subst hj
      rw [k.put_self, quote_toList]
      exact .inr ⟨_, rfl⟩
    · rw [k.put_other path hj]
      exact .inl ⟨j, rfl⟩
  · rw [k.put_enclosed]
    exact .inr ⟨_, rfl⟩

end Held

/-- The result has the value in place of every placeholder of the template, and all else as the
template has it. -/
inductive Filled (value : Placeholder → List Char) : List Char → List Char → Prop where
  | nil : Filled value [] []
  | literal {c : Char} {template result : List Char}
      (h : ∀ k : Placeholder, ¬k.text <+: c :: template) (hrest : Filled value template result) :
      Filled value (c :: template) (c :: result)
  | hole {template result : List Char} (k : Placeholder) (hrest : Filled value template result) :
      Filled value (k.text ++ template) (value k ++ result)

namespace Filled

variable {value value' : Placeholder → List Char} {template result result' : List Char}

theorem cases_of (h : Filled value template result) :
    (template = [] ∧ result = []) ∨
    (∃ c template' result', template = c :: template' ∧ result = c :: result' ∧
      (∀ k : Placeholder, ¬k.text <+: c :: template') ∧ Filled value template' result') ∨
    ∃ k template' result', template = k.text ++ template' ∧ result = value k ++ result' ∧
      Filled value template' result' := by
  cases h with
  | nil => exact .inl ⟨rfl, rfl⟩
  | literal h hrest => exact .inr (.inl ⟨_, _, _, rfl, rfl, h, hrest⟩)
  | hole k hrest => exact .inr (.inr ⟨k, _, _, rfl, rfl, hrest⟩)

/-- A template can be filled in only one way. -/
theorem unique (h : Filled value template result) (h' : Filled value template result') :
    result = result' := by
  induction h generalizing result' with
  | nil =>
      rcases h'.cases_of with ⟨-, rfl⟩ | ⟨c, t, r, ht, -⟩ | ⟨k, t, r, ht, -⟩
      · rfl
      · cases ht
      · exact absurd (List.append_eq_nil_iff.mp ht.symm).1 k.text_ne_nil
  | @literal c t r hliteral hrest ih =>
      rcases h'.cases_of with ⟨ht, -⟩ | ⟨d, t', r', ht, rfl, -, hrest'⟩ | ⟨k, t', r', ht, -⟩
      · cases ht
      · cases ht
        rw [ih hrest']
      · exact absurd (ht ▸ List.prefix_append k.text t') (hliteral k)
  | @hole t r k hrest ih =>
      rcases h'.cases_of with ⟨ht, -⟩ | ⟨d, t', r', ht, -, hliteral, -⟩ | ⟨j, t', r', ht, rfl, hrest'⟩
      · exact absurd (List.append_eq_nil_iff.mp ht).1 k.text_ne_nil
      · exact absurd (ht ▸ List.prefix_append k.text t) (hliteral k)
      · obtain rfl : k = j := Placeholder.eq_of_starts (ht ▸ List.prefix_append k.text t)
        rw [ih (List.append_cancel_left ht ▸ hrest')]

/-- Characters that no value starts with were there in the template already. -/
theorem prefix_template (h : Filled value template result) (hvalue : ∀ k, Held (value k))
    {w : List Char} (hw : ∀ c ∈ w, c ≠ '\x7b' ∧ c ≠ '\'') (hstarts : w <+: result) :
    w <+: template := by
  induction h generalizing w with
  | nil => exact hstarts
  | literal _ _ ih =>
      cases w with
      | nil => exact List.nil_prefix
      | cons d w =>
          rw [List.cons_prefix_cons] at hstarts ⊢
          exact ⟨hstarts.1, ih (fun c hc => hw c (List.mem_cons_of_mem d hc)) hstarts.2⟩
  | hole k _ _ =>
      cases w with
      | nil => exact List.nil_prefix
      | cons d w =>
          obtain ⟨c, rest, hc⟩ := List.exists_cons_of_ne_nil (hvalue k).ne_nil
          rw [hc, List.cons_append, List.cons_prefix_cons] at hstarts
          have hd := hw d List.mem_cons_self
          rw [hstarts.1] at hd
          exact absurd ((hvalue k).head_eq hc) (not_or.mpr hd)

/-- Putting a path in place of a placeholder reaches nothing of the template but its occurrences, and
whatever occurrences the values have. -/
theorem put (h : Filled value template result) (hvalue : ∀ k, Held (value k)) (k : Placeholder)
    (path : String) : Filled (fun j => k.put path (value j)) template (k.put path result) := by
  induction h with
  | nil => exact .nil
  | @literal c template result hliteral hrest ih =>
      have hstarts : ¬k.text <+: c :: result := by
        intro hstarts
        apply hliteral k
        rw [k.text_eq_cons, List.cons_prefix_cons] at hstarts ⊢
        exact ⟨hstarts.1, hrest.prefix_template hvalue (fun c => k.ne_of_mem_tail) hstarts.2⟩
      rw [k.put_cons path hstarts]
      exact .literal hliteral ih
  | hole j _ ih =>
      rw [(hvalue j).put_append]
      exact .hole j ih

/-- Only the values of placeholders that occur matter. -/
theorem congr (h : Filled value template result)
    (hvalue : ∀ k : Placeholder, k.text <:+: template → value k = value' k) :
    Filled value' template result := by
  induction h with
  | nil => exact .nil
  | literal hliteral _ ih =>
      exact .literal hliteral (ih fun k hk => hvalue k (List.infix_cons_iff.mpr (.inr hk)))
  | @hole template result k _ ih =>
      rw [hvalue k (List.prefix_append k.text template).isInfix]
      exact .hole k (ih fun j hj => hvalue j (hj.trans (List.suffix_append _ _).isInfix))

end Filled

/-- Every template is filled, to begin with, by its own placeholders. -/
theorem filled_text (template : List Char) : Filled Placeholder.text template template := by
  induction hlength : template.length using Nat.strongRecOn generalizing template with
  | ind n ih =>
      by_cases hstarts : ∃ k : Placeholder, k.text <+: template
      · obtain ⟨k, rest, rfl⟩ := hstarts
        have hshorter : rest.length < n := by
          have := List.length_pos_of_ne_nil k.text_ne_nil
          rw [List.length_append] at hlength
          omega
        exact .hole k (ih _ hshorter rest rfl)
      · cases template with
        | nil => exact .nil
        | cons c rest =>
            have hshorter : rest.length < n := by
              rw [List.length_cons] at hlength
              omega
            exact .literal (not_exists.mp hstarts) (ih _ hshorter rest rfl)

/-- Puts the quoted paths in place of the placeholders, one placeholder after another. -/
def expandChars (paths : Placeholder → String) (template : List Char) : List Char :=
  Placeholder.output.put (paths .output)
    (Placeholder.object.put (paths .object) (Placeholder.input.put (paths .input) template))

theorem expand_toList (template : String) (paths : Placeholder → String) :
    (expand template (paths .input) (paths .object) (paths .output)).toList =
      expandChars paths template.toList := by
  simp [expand, replaceAll, expandChars, Placeholder.put, Placeholder.text]

/-- What expansion makes of a quoted path: the placeholders still to come are replaced inside it,
too. -/
def rescanned (paths : Placeholder → String) (k : Placeholder) : List Char :=
  k.later.foldl (fun text j => j.put (paths j) text) (Shell.quote (paths k)).toList

theorem expandChars_text (paths : Placeholder → String) (k : Placeholder) :
    expandChars paths k.text = rescanned paths k := by
  cases k with
  | input =>
      rw [expandChars, Placeholder.put_self]
      simp only [rescanned, Placeholder.later, List.foldl_cons, List.foldl_nil]
  | object =>
      rw [expandChars, Placeholder.put_other _ _ (by decide), Placeholder.put_self]
      simp only [rescanned, Placeholder.later, List.foldl_cons, List.foldl_nil]
  | output =>
      rw [expandChars, Placeholder.put_other _ _ (by decide), Placeholder.put_other _ _ (by decide),
        Placeholder.put_self]
      simp only [rescanned, Placeholder.later, List.foldl_nil]

/-- Expansion fills a template, if not with the quoted paths. -/
theorem filled_expandChars (paths : Placeholder → String) (template : List Char) :
    Filled (rescanned paths) template (expandChars paths template) := by
  have hheld : ∀ k : Placeholder, Held k.text := fun k => .inl ⟨k, rfl⟩
  have hinput := (filled_text template).put hheld .input (paths .input)
  have hobject := hinput.put (fun k => (hheld k).put _ _) .object (paths .object)
  have houtput := hobject.put (fun k => ((hheld k).put _ _).put _ _) .output (paths .output)
  exact houtput.congr fun k _ => expandChars_text paths k

/-- The texts agree up to a place where the first has a quote and the second an opening brace. -/
def Departs (result text : List Char) : Prop :=
  ∃ common rest rest', result = common ++ '\'' :: rest ∧ text = common ++ '\x7b' :: rest'

namespace Departs

variable {result text : List Char}

theorem cons (h : Departs result text) (c : Char) : Departs (c :: result) (c :: text) := by
  obtain ⟨common, rest, rest', rfl, rfl⟩ := h
  exact ⟨c :: common, rest, rest', rfl, rfl⟩

theorem append (h : Departs result text) (after after' : List Char) :
    Departs (result ++ after) (text ++ after') := by
  obtain ⟨common, rest, rest', rfl, rfl⟩ := h
  exact ⟨common, rest ++ after, rest' ++ after', by simp, by simp⟩

theorem prepend (h : Departs result text) (before : List Char) :
    Departs (before ++ result) (before ++ text) := by
  obtain ⟨common, rest, rest', rfl, rfl⟩ := h
  exact ⟨before ++ common, rest, rest', by simp, by simp⟩

theorem ne (h : Departs result text) : result ≠ text := by
  obtain ⟨common, rest, rest', rfl, rfl⟩ := h
  simp

/-- The first occurrence is where the text is changed first. -/
theorem of_occurs {k : Placeholder} (path : String) (h : k.text <:+: text) :
    Departs (k.put path text) text := by
  induction text with
  | nil => exact absurd (List.infix_nil.mp h) k.text_ne_nil
  | cons c text ih =>
      by_cases hstarts : k.text <+: c :: text
      · obtain ⟨rest, hrest⟩ := hstarts
        rw [← hrest, k.put_self_append, quote_toList]
        exact ⟨[], _, _, rfl, by rw [k.text_eq_cons]; rfl⟩
      · rw [k.put_cons path hstarts]
        exact (ih ((List.infix_cons_iff.mp h).resolve_left hstarts)).cons c

/-- Further replacements leave the place, or move it further to the front. -/
theorem put (h : Departs result text) (k : Placeholder) (path : String) :
    Departs (k.put path result) text := by
  obtain ⟨common, rest, rest', rfl, rfl⟩ := h
  rw [k.put_append_cons path k.quote_notMem_text]
  by_cases hcommon : k.text <:+: common
  · exact (of_occurs path hcommon).append _ _
  · rw [k.put_of_absent path hcommon]
    exact ⟨common, _, _, rfl, rfl⟩

theorem foldl_put (h : Departs result text) (paths : Placeholder → String)
    (placeholders : List Placeholder) :
    Departs (placeholders.foldl (fun text j => j.put (paths j) text) result) text := by
  induction placeholders generalizing result with
  | nil => exact h
  | cons k rest ih => exact ih (h.put k (paths k))

end Departs

theorem foldl_put_of_absent (paths : Placeholder → String) {placeholders : List Placeholder}
    {text : List Char} (h : ∀ j ∈ placeholders, ¬j.text <:+: text) :
    placeholders.foldl (fun text j => j.put (paths j) text) text = text := by
  induction placeholders with
  | nil => rfl
  | cons k rest ih =>
      rw [List.foldl_cons, k.put_of_absent _ (h k List.mem_cons_self)]
      exact ih fun j hj => h j (List.mem_cons_of_mem k hj)

theorem departs_foldl_put (paths : Placeholder → String) {placeholders : List Placeholder}
    {text : List Char} {j : Placeholder} (hj : j ∈ placeholders) (h : j.text <:+: text) :
    Departs (placeholders.foldl (fun text j => j.put (paths j) text) text) text := by
  induction placeholders with
  | nil => cases hj
  | cons k rest ih =>
      rw [List.foldl_cons]
      by_cases hk : k.text <:+: text
      · exact (Departs.of_occurs (paths k) hk).foldl_put paths rest
      · rw [k.put_of_absent _ hk]
        rcases List.mem_cons.mp hj with rfl | hrest
        · exact absurd h hk
        · exact ih hrest

namespace Placeholder

variable {k : Placeholder}

theorem infix_cons_of_ne {c : Char} (hc : c ≠ '\x7b') {text : List Char} :
    k.text <:+: c :: text ↔ k.text <:+: text := by
  rw [List.infix_cons_iff, or_iff_right]
  intro hstarts
  rw [k.text_eq_cons, List.cons_prefix_cons] at hstarts
  exact hc hstarts.1.symm

/-- Up to its first quote a text is quoted as it is. -/
theorem prefix_quoteChars {w text : List Char} (hw : '\'' ∉ w) :
    w <+: Shell.quoteChars text ++ ['\''] ↔ w <+: text := by
  fun_induction Shell.quoteChars text generalizing w with
  | case1 =>
      cases w with
      | nil => simp
      | cons d w =>
          have hd : d ≠ '\'' := fun h => hw (h ▸ List.mem_cons_self)
          simp [List.cons_prefix_cons, hd]
  | case2 rest _ =>
      cases w with
      | nil => simp
      | cons d w =>
          have hd : d ≠ '\'' := fun h => hw (h ▸ List.mem_cons_self)
          simp [List.cons_prefix_cons, hd]
  | case3 c rest _ ih =>
      cases w with
      | nil => simp
      | cons d w =>
          rw [List.cons_append, List.cons_prefix_cons, List.cons_prefix_cons,
            ih fun h => hw (List.mem_cons_of_mem d h)]

/-- Quoting neither makes nor breaks a placeholder. -/
theorem infix_quote {path : String} :
    k.text <:+: (Shell.quote path).toList ↔ k.text <:+: path.toList := by
  have hquote : '\'' ≠ '\x7b' := by decide
  have hbackslash : '\\' ≠ '\x7b' := by decide
  rw [quote_toList, enclosed, infix_cons_of_ne hquote]
  generalize path.toList = text
  fun_induction Shell.quoteChars text with
  | case1 => rw [List.nil_append, infix_cons_of_ne hquote]
  | case2 rest ih =>
      simp only [List.cons_append, List.nil_append]
      rw [infix_cons_of_ne hquote, infix_cons_of_ne hbackslash, infix_cons_of_ne hquote,
        infix_cons_of_ne hquote, infix_cons_of_ne hquote]
      exact ih
  | case3 c rest _ ih =>
      have htail : '\'' ∉ k.text.tail := fun h => (k.ne_of_mem_tail h).2 rfl
      rw [List.cons_append, List.infix_cons_iff, List.infix_cons_iff]
      refine or_congr ?_ ih
      rw [k.text_eq_cons, List.cons_prefix_cons, List.cons_prefix_cons, prefix_quoteChars htail]

end Placeholder

/-- Where one of the values departs, the result departs. -/
theorem Filled.departs {value value' : Placeholder → List Char} {template result : List Char}
    (h : Filled value template result)
    (hvalue : ∀ k, value k = value' k ∨ Departs (value k) (value' k)) :
    ∃ result', Filled value' template result' ∧
      ∀ k : Placeholder, k.text <:+: template → Departs (value k) (value' k) →
        Departs result result' := by
  induction h with
  | nil => exact ⟨[], .nil, fun k hk => absurd (List.infix_nil.mp hk) k.text_ne_nil⟩
  | @literal c template result hliteral _ ih =>
      obtain ⟨result', hresult', hdeparts⟩ := ih
      refine ⟨c :: result', .literal hliteral hresult', ?_⟩
      intro k hk hdepart
      exact (hdeparts k ((List.infix_cons_iff.mp hk).resolve_left (hliteral k)) hdepart).cons c
  | @hole template result j _ ih =>
      obtain ⟨result', hresult', hdeparts⟩ := ih
      refine ⟨value' j ++ result', .hole j hresult', ?_⟩
      intro k hk hdepart
      rcases hvalue j with hsame | hj
      · rcases Placeholder.infix_text_append hk with rfl | hk
        · exact hdepart.append _ _
        · rw [hsame]
          exact (hdeparts k hk hdepart).prepend _
      · exact hj.append _ _

/-- Expansion puts the quoted paths in place of all placeholders at once, and leaves everything else
as it is, exactly if no path that the template asks for has the text of a placeholder whose turn
comes later. -/
theorem expand_fills_iff (template : String) (paths : Placeholder → String) :
    Filled (fun k => (Shell.quote (paths k)).toList) template.toList
        (expand template (paths .input) (paths .object) (paths .output)).toList ↔
      ∀ k : Placeholder, k.text <:+: template.toList →
        ∀ j ∈ k.later, ¬j.text <:+: (paths k).toList := by
  have hexpanded := filled_expandChars paths template.toList
  rw [expand_toList]
  constructor
  · intro hfilled k hk j hj hoccurs
    have hvalue : ∀ k, rescanned paths k = (Shell.quote (paths k)).toList ∨
        Departs (rescanned paths k) (Shell.quote (paths k)).toList := by
      intro k
      by_cases hlater : ∃ j ∈ k.later, j.text <:+: (Shell.quote (paths k)).toList
      · obtain ⟨j, hj, hoccurs⟩ := hlater
        exact .inr (departs_foldl_put paths hj hoccurs)
      · exact .inl (foldl_put_of_absent paths fun j hj hoccurs => hlater ⟨j, hj, hoccurs⟩)
    obtain ⟨result', hresult', hdeparts⟩ := hexpanded.departs hvalue
    have hdepart := hdeparts k hk (departs_foldl_put paths hj (Placeholder.infix_quote.mpr hoccurs))
    exact hdepart.ne (hfilled.unique hresult')
  · intro hclear
    apply hexpanded.congr
    intro k hk
    exact foldl_put_of_absent paths fun j hj hoccurs =>
      hclear k hk j hj (Placeholder.infix_quote.mp hoccurs)

/-- The paths of a scratch directory whose name has the text of a placeholder. -/
def bracedPaths : Placeholder → String
  | .input => "/tmp/" ++ objectPlaceholder ++ "/program.asm"
  | .object => "/tmp/a b/program.o"
  | .output => "/tmp/a b/program"

/-- The object file's path is put into the input file's, where its own quotes end the quotes around
it. -/
theorem bracedPaths_rescanned :
    (expand inputPlaceholder (bracedPaths .input) (bracedPaths .object) (bracedPaths .output)) =
      "'/tmp/'/tmp/a b/program.o'/program.asm'" ∧
    Filled (fun k => (Shell.quote (bracedPaths k)).toList) inputPlaceholder.toList
      ("'/tmp/" ++ objectPlaceholder ++ "/program.asm'").toList ∧
    ¬Filled (fun k => (Shell.quote (bracedPaths k)).toList) inputPlaceholder.toList
      "'/tmp/'/tmp/a b/program.o'/program.asm'".toList := by
  have hfilled : Filled (fun k => (Shell.quote (bracedPaths k)).toList) inputPlaceholder.toList
      ("'/tmp/" ++ objectPlaceholder ++ "/program.asm'").toList := Filled.hole .input .nil
  refine ⟨by decide +kernel, hfilled, ?_⟩
  intro hother
  have heq := hfilled.unique hother
  revert heq
  decide +kernel

end Arbor.Toolchain
