import Mathlib.Tactic
import Std.Data.String.ToNat
import Arbor.Symbol

/-!
Generated symbols and the names they cannot meet. A numbered symbol is a word,
an underscore and a decimal number; since digits hold no underscore, the word
and the number can be read back. Every generated symbol is reserved, so a name
that passed the reservation check is none of them.
-/

namespace Arbor

theorem numbered_toList (word : String) (id : Nat) :
    (numbered word id).toList = word.toList ++ '_' :: Nat.toDigits 10 id := by
  simp [numbered, Nat.toList_repr]

private theorem split_at_last_underscore {xs ys ds es : List Char}
    (hds : '_' ∉ ds) (hes : '_' ∉ es) (h : xs ++ '_' :: ds = ys ++ '_' :: es) :
    xs = ys ∧ ds = es := by
  have hrev := congrArg List.reverse h
  simp only [List.reverse_append, List.reverse_cons, List.append_assoc,
    List.singleton_append] at hrev
  have hne : '_' ∉ ds.reverse := by simpa using hds
  have hne' : '_' ∉ es.reverse := by simpa using hes
  have hlen : ds.reverse.length = es.reverse.length := by
    have hd : List.idxOf '_' (ds.reverse ++ '_' :: xs.reverse) = _ :=
      List.idxOf_append_of_notMem hne
    have he : List.idxOf '_' (es.reverse ++ '_' :: ys.reverse) = _ :=
      List.idxOf_append_of_notMem hne'
    rw [hrev, he] at hd
    simpa using hd.symm
  obtain ⟨htail, hhead⟩ := List.append_inj hrev hlen
  simp only [List.cons.injEq, List.reverse_inj, true_and] at hhead htail
  exact ⟨hhead, htail⟩

/-- The word and the number of a numbered symbol are determined by it. -/
theorem numbered_inj {word word' : String} {id id' : Nat}
    (h : numbered word id = numbered word' id') : word = word' ∧ id = id' := by
  have hlist := congrArg String.toList h
  rw [numbered_toList, numbered_toList] at hlist
  obtain ⟨hword, hdigits⟩ := split_at_last_underscore
    Nat.underscore_not_in_toDigits Nat.underscore_not_in_toDigits hlist
  refine ⟨String.toList_inj.mp hword, Nat.repr_injective (String.toList_inj.mp ?_)⟩
  rw [Nat.toList_repr, Nat.toList_repr, hdigits]

theorem globalSymbol_toList (name : String) :
    (globalSymbol name).toList = 'g' :: '_' :: name.toList := by
  simp [globalSymbol]

theorem globalSymbol_injective : Function.Injective globalSymbol := by
  intro a b h
  have hlist := congrArg String.toList h
  simp only [globalSymbol_toList, List.cons.injEq, true_and] at hlist
  exact String.toList_inj.mp hlist

theorem numbered_isEmpty (word : String) (id : Nat) : (numbered word id).isEmpty = false := by
  rw [← Bool.not_eq_true, String.isEmpty_iff, ← String.toList_eq_nil_iff, numbered_toList]
  simp

theorem globalSymbol_isEmpty (name : String) : (globalSymbol name).isEmpty = false := by
  rw [← Bool.not_eq_true, String.isEmpty_iff, ← String.toList_eq_nil_iff, globalSymbol_toList]
  simp

theorem isNumbered_numbered (word : String) (id : Nat) :
    isNumbered word (numbered word id).toList = true := by
  have hdigit : ∀ c ∈ Nat.toDigits 10 id, '0' ≤ c ∧ c ≤ '9' := by
    intro c hc
    have h := Nat.isDigit_of_mem_toDigits (by decide) (by decide) hc
    simpa [Char.isDigit, Char.le_def] using h
  have hpos : 0 < (Nat.toDigits 10 id).length := Nat.length_toDigits_pos
  have hsplit : (numbered word id).toList =
      (word.toList ++ ['_']) ++ Nat.toDigits 10 id := by
    rw [numbered_toList, List.append_assoc, List.singleton_append]
  simp only [isNumbered, hsplit, List.drop_left, Bool.and_eq_true,
    List.isPrefixOf_iff_prefix, List.prefix_append, decide_eq_true_eq, List.all_eq_true]
  refine ⟨⟨trivial, ?_⟩, hdigit⟩
  simp only [List.length_append]
  omega

/-- Labels and region symbols are reserved. -/
theorem isReservedSymbol_numbered {word : String} (hword : word ∈ numberedWords) (id : Nat) :
    isReservedSymbol (numbered word id) = true := by
  have h : numberedWords.any (fun w => isNumbered w (numbered word id).toList) = true :=
    List.any_eq_true.mpr ⟨word, hword, isNumbered_numbered word id⟩
  simp [isReservedSymbol, h]

/-- Storage of globals is reserved. -/
theorem isReservedSymbol_globalSymbol (name : String) :
    isReservedSymbol (globalSymbol name) = true := by
  simp [isReservedSymbol, globalSymbol_toList, List.isPrefixOf]

theorem isReservedSymbol_start : isReservedSymbol "_start" = true := by
  simp [isReservedSymbol]

/-- No word of a numbered symbol starts like the storage of a global. -/
theorem numbered_ne_globalSymbol {word : String} (hword : word ∈ numberedWords) (id : Nat)
    (name : String) : numbered word id ≠ globalSymbol name := by
  intro h
  have hlist := congrArg String.toList h
  rw [numbered_toList, globalSymbol_toList] at hlist
  simp only [numberedWords, List.mem_cons, List.not_mem_nil, or_false] at hword
  rcases hword with rfl | rfl | rfl | rfl | rfl | rfl | rfl | rfl <;> simp at hlist

theorem numbered_ne_start {word : String} (hword : word ∈ numberedWords) (id : Nat) :
    numbered word id ≠ "_start" := by
  intro h
  have hlist := congrArg String.toList h
  rw [numbered_toList] at hlist
  simp only [numberedWords, List.mem_cons, List.not_mem_nil, or_false] at hword
  rcases hword with rfl | rfl | rfl | rfl | rfl | rfl | rfl | rfl <;> simp at hlist

theorem globalSymbol_ne_start (name : String) : globalSymbol name ≠ "_start" := by
  intro h
  have hlist := congrArg String.toList h
  simp [globalSymbol_toList] at hlist

end Arbor
