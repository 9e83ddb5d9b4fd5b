import Mathlib.Tactic
import Arbor.Proofs.Discipline

/-!
Where jumps land. A jump of lowered code goes back, or to one of the next two labels, or
over an instruction that no pass ever leaves out. A jump that a pass finds to go to the
position after it therefore has at most one label to pass, and leaving it out never makes
a run longer.
-/

namespace Arbor

/-- An instruction that stays when a label stands before it. -/
def Instruction.isFirm (i : Instruction) : Bool :=
  !i.isSelfMove && i.mnemonic != .jmp && i.slotWritten?.isNone

namespace Code

/-- The label stands at the start, or behind one other label. -/
inductive Near (label : String) : Code → Prop where
  | first {line : UInt32} {rest : Code} : Near label (.labelled label line :: rest)
  | second {name : String} {line line' : UInt32} {rest : Code} :
      Near label (.labelled name line :: .labelled label line' :: rest)

/-- Other labels stand at the start, and then an instruction that stays. -/
inductive Blocked (label : String) : Code → Prop where
  | last {name : String} {line : UInt32} {i : Instruction} {rest : Code} (hname : name ≠ label)
      (hlabel : i.label = none) (hi : i.isFirm) :
      Blocked label (.labelled name line :: i :: rest)
  | more {name : String} {line : UInt32} {rest : Code} (hname : name ≠ label)
      (hrest : Blocked label rest) : Blocked label (.labelled name line :: rest)

/-- A jump lands behind it, near it, or not before an instruction that stays. -/
def JumpLands (before : List String) (i : Instruction) (rest : Code) : Prop :=
  ∀ label, i.mnemonic = .jmp → i.operands = [.sym label] →
    label ∈ before ∨ Near label rest ∨ Blocked label rest

/-- Every jump of the code lands as said, after the labels that stand before the code. -/
def Landing (before : List String) : Code → Prop
  | [] => True
  | i :: rest => JumpLands before i rest ∧ Landing (before ++ i.label.toList) rest

theorem Landing.jumpLands {before : List String} {code : Code} (h : Landing before code) {k : Nat}
    {i : Instruction} (hi : code[k]? = some i) :
    JumpLands (before ++ labels (code.take k)) i (code.drop (k + 1)) := by
  induction code generalizing before k with
  | nil => cases hi
  | cons j rest ih =>
      cases k with
      | zero =>
          cases hi
          simpa using h.1
      | succ k =>
          have hrest := ih h.2 hi
          have hlabels : before ++ j.label.toList ++ labels (rest.take k) =
              before ++ labels ((j :: rest).take (k + 1)) := by
            rw [List.append_assoc, List.take_succ_cons, ← List.singleton_append, labels_append]
            cases hj : j.label <;> simp [labels, hj]
          rw [hlabels] at hrest
          exact hrest

theorem Blocked.not_startsAt {label : String} {code : Code} (h : Blocked label code) :
    startsAt label code = false := by
  induction h with
  | last hname hlabel hi => simp [startsAt, Instruction.labelled, hname, hlabel]
  | more hname _ ih => simp [startsAt, Instruction.labelled, hname, ih]

theorem mem_labels_of_startsAt {label : String} {code : Code} (h : startsAt label code) :
    label ∈ labels code := by
  induction code with
  | nil => cases h
  | cons i rest ih =>
      rw [← List.singleton_append, labels_append, List.mem_append]
      cases hi : i.label with
      | none => simp [startsAt, hi] at h
      | some name =>
          simp only [startsAt, hi, Bool.or_eq_true, beq_iff_eq, Bool.and_eq_true] at h
          rcases h with rfl | ⟨-, hrest⟩
          · exact .inl (by simp [labels, hi])
          · exact .inr (ih hrest)

/-- A jump to the position after it has its label near. -/
theorem Landing.near {code : Code} (h : Landing [] code) (hnodup : (labels code).Nodup) {k : Nat}
    {label : String} {line : UInt32} (hi : code[k]? = some (.make .jmp [.sym label] line))
    (hstarts : startsAt label (code.drop (k + 1))) : Near label (code.drop (k + 1)) := by
  rcases h.jumpLands hi label rfl rfl with hbefore | hnear | hblocked
  · exfalso
    have hafter : label ∈ labels (code.drop k) := by
      rw [← List.getElem_cons_drop (List.getElem?_eq_some_iff.mp hi).1, ← List.singleton_append,
        labels_append]
      exact List.mem_append_right _ (mem_labels_of_startsAt hstarts)
    rw [← List.take_append_drop k code, labels_append, List.nodup_append] at hnodup
    exact hnodup.2.2 label (by simpa using hbefore) label hafter rfl
  · exact hnear
  · rw [hblocked.not_startsAt] at hstarts
    cases hstarts

section Thin

variable {label : String} {before : List String} {code : Code} {keep : Nat → Bool}

/-- What the passes never leave out. -/
structure KeepsLandings (keep : Nat → Bool) (code : Code) : Prop where
  labels : ∀ k i, code[k]? = some i → keep k = false → i.label = none
  firm : ∀ k name line i, code[k]? = some (.labelled name line) → code[k + 1]? = some i →
    i.isFirm → keep (k + 1) = true

theorem KeepsLandings.tail {i : Instruction} (h : KeepsLandings keep (i :: code)) :
    KeepsLandings (fun k => keep (k + 1)) code where
  labels := fun k j hj hk => h.labels (k + 1) j hj hk
  firm := fun k name line j hk hj hfirm => h.firm (k + 1) name line j hk hj hfirm

theorem KeepsLandings.head {name : String} {line : UInt32}
    (h : KeepsLandings keep (.labelled name line :: code)) : keep 0 = true := by
  cases hkeep : keep 0 with
  | true => rfl
  | false => cases h.labels 0 _ rfl hkeep

theorem Near.thin (h : Near label code) (hkeep : KeepsLandings keep code) :
    Near label (Code.thin keep code) := by
  cases h with
  | first =>
      rw [Code.thin, if_pos hkeep.head]
      exact .first
  | second =>
      rw [Code.thin, if_pos hkeep.head, Code.thin, if_pos hkeep.tail.head]
      exact .second

theorem Blocked.thin (h : Blocked label code) (hkeep : KeepsLandings keep code) :
    Blocked label (Code.thin keep code) := by
  induction h generalizing keep with
  | last hname hlabel hi =>
      rw [Code.thin, if_pos hkeep.head, Code.thin, if_pos (hkeep.firm 0 _ _ _ rfl rfl hi)]
      exact .last hname hlabel hi
  | more hname _ ih =>
      rw [Code.thin, if_pos hkeep.head]
      exact .more hname (ih hkeep.tail)

theorem Landing.thin (h : Landing before code) (hkeep : KeepsLandings keep code) :
    Landing before (Code.thin keep code) := by
  induction code generalizing before keep with
  | nil => trivial
  | cons i rest ih =>
      have hrest := ih h.2 hkeep.tail
      rw [Code.thin]
      split
      · refine ⟨fun label hm hos => ?_, hrest⟩
        rcases h.1 label hm hos with hbefore | hnear | hblocked
        · exact .inl hbefore
        · exact .inr (.inl (hnear.thin hkeep.tail))
        · exact .inr (.inr (hblocked.thin hkeep.tail))
      · rename_i hgone
        rw [hkeep.labels 0 i rfl (by simpa using hgone)] at hrest
        simpa using hrest

/-- Optional instructions may go without harm. -/
theorem keepsLandings_of_optional
    (h : ∀ k i, code[k]? = some i → keep k = false → Optional code k i) :
    KeepsLandings keep code where
  labels := fun k i hi hk => (h k i hi hk).label
  firm := by
    intro k name line i hname hi hfirm
    cases hkeep : keep (k + 1) with
    | true => rfl
    | false =>
        simp only [Instruction.isFirm, Bool.and_eq_true, Bool.not_eq_true', bne_iff_ne,
          Option.isNone_iff_eq_none] at hfirm
        obtain ⟨⟨hself, hjmp⟩, hslot⟩ := hfirm
        exfalso
        rcases h (k + 1) i hi hkeep with hredundant | ⟨-, hwritten⟩
        · cases hredundant with
          | selfMove h => rw [hself] at h; cases h
          | repeated hfirst h =>
              obtain rfl := Option.some.inj (hname.symm.trans hfirst)
              cases h
          | undone hfirst h =>
              obtain rfl := Option.some.inj (hname.symm.trans hfirst)
              cases h
          | jumpToNext h => exact hjmp (of_jumpsToNext h).1
          | shadowed hfirst h =>
              obtain rfl := Option.some.inj (hname.symm.trans hfirst)
              cases h
        · rw [hslot] at hwritten
          cases hwritten

end Thin

/-- The code starts with an instruction that stays. -/
def StartsFirm : Code → Prop
  | [] => False
  | i :: _ => i.label = none ∧ i.isFirm

theorem StartsFirm.append {a : Code} (h : StartsFirm a) (b : Code) : StartsFirm (a ++ b) := by
  cases a with
  | nil => cases h
  | cons i rest => exact h

/-- What the code of a statement starts with. -/
inductive Opens : Code → Prop where
  | firm {code : Code} (h : StartsFirm code) : Opens code
  | loop {id : Nat} {line : UInt32} {code : Code} (h : StartsFirm code) :
      Opens (.labelled (numbered "loop" id) line :: code)

theorem Opens.append {a : Code} (h : Opens a) (b : Code) : Opens (a ++ b) := by
  cases h with
  | firm h => exact .firm (h.append b)
  | loop h => exact .loop (h.append b)

/-- The end of a conditional is not found before its other branch. -/
theorem Opens.blocked {code : Code} (h : Opens code) (id : Nat) (line : UInt32) :
    Blocked (numbered "end" id) (.labelled (numbered "else" id) line :: code) := by
  have hother : ∀ word id', word ≠ "end" → numbered word id' ≠ numbered "end" id :=
    fun word id' hword heq => hword (numbered_inj heq).1
  cases h with
  | firm h =>
      cases code with
      | nil => cases h
      | cons i rest => exact .last (hother _ _ (by decide)) h.1 h.2
  | @loop _ _ code h =>
      cases code with
      | nil => cases h
      | cons i rest =>
          exact .more (hother _ _ (by decide)) (.last (hother _ _ (by decide)) h.1 h.2)

end Code

/-- What the code of a phrase starts with. -/
def Phrase.Opens (code : Code) : Phrase → Prop
  | .expression _ => code.StartsFirm
  | .pushes .. | .pairs .. => code = [] ∨ code.StartsFirm
  | .target _ | .targets _ => True
  | .statement _ => code.Opens
  | .block _ => code = [] ∨ code.Opens

open Code in
theorem Lowers.opens {env : LoweringEnv} {phrase : Phrase} {st st' : LoweringState} {code : Code}
    (h : Lowers env phrase st code st') : phrase.Opens code := by
  induction h with
  | constant | string | builtin | slot | global => exact ⟨rfl, rfl⟩
  | binary _ _ hleft _ | compare _ _ hleft _ | subscript _ _ hleft _ =>
      exact (StartsFirm.append hleft _).append _
  | call _ _ hargs | externalCall _ _ _ hargs | list _ hargs | dict _ _ hargs =>
      rcases hargs with rfl | hargs
      · exact ⟨rfl, rfl⟩
      · exact hargs.append _
  | pushesNil | pairsNil | blockNil => exact .inl rfl
  | pushesCons _ _ hhead _ => exact .inr (StartsFirm.append hhead _)
  | pairsCons _ _ _ hkey _ _ => exact .inr (StartsFirm.append hkey _)
  | storeName | storeElement | targetsNil | targetsCons => trivial
  | assign _ _ _ _ hvalue _ => exact .firm (hvalue.append _)
  | augElement _ _ _ hbase _ _ => exact .firm ((StartsFirm.append hbase _).append _)
  | augName _ _ _ _ hname _ _ =>
      exact .firm (((StartsFirm.append hname _).append _).append _)
  | bareReturn => exact .firm ⟨rfl, rfl⟩
  | ret _ hvalue => exact .firm (hvalue.append _)
  | expr _ hvalue => exact .firm hvalue
  | ifElse _ _ _ htest _ _ => exact .firm (((StartsFirm.append htest _).append _).append _)
  | whileLoop _ _ htest _ => exact .loop (((StartsFirm.append htest _).append _).append _)
  | bare _ hexpression => exact .firm hexpression
  | blockCons _ _ hhead _ => exact .inr (Code.Opens.append hhead _)

namespace Code

/-- The jumps of the code land as said, whatever stands around it. -/
def Settled (code : Code) : Prop :=
  ∀ before rest, Landing (before ++ labels code) rest → Landing before (code ++ rest)

namespace Settled

open Emit

variable {a b : Code} {i : Instruction} {line : UInt32}

theorem nil : Settled [] := by
  intro before rest h
  simpa [labels] using h

theorem append (ha : Settled a) (hb : Settled b) : Settled (a ++ b) := by
  intro before rest h
  rw [labels_append, ← List.append_assoc] at h
  rw [List.append_assoc]
  exact ha before _ (hb _ rest h)

theorem cons (hi : i.mnemonic ≠ .jmp) (hb : Settled b) : Settled (i :: b) := by
  intro before rest h
  refine ⟨fun label hm => absurd hm hi, hb _ rest ?_⟩
  rw [← List.singleton_append, labels_append, ← List.append_assoc] at h
  have hlabels : labels [i] = i.label.toList := by cases hi : i.label <;> simp [labels, hi]
  rwa [hlabels] at h

/-- Straight code. -/
theorem of_forall (h : ∀ i ∈ a, i.mnemonic ≠ .jmp) : Settled a := by
  induction a with
  | nil => exact nil
  | cons i rest ih =>
      exact cons (h i List.mem_cons_self) (ih fun j hj => h j (List.mem_cons_of_mem _ hj))

/-- A jump over other labels, or to one that is near. -/
theorem jump {label : String}
    (hlands : ∀ rest, Near label (b ++ rest) ∨ Blocked label (b ++ rest)) (hb : Settled b) :
    Settled (Emit.jump line .jmp label :: b) := by
  intro before rest h
  refine ⟨fun name _ hos => ?_, hb _ rest ?_⟩
  · cases hos
    exact .inr (hlands rest)
  · rw [labels_jump] at h
    rwa [show (Emit.jump line .jmp label).label.toList = [] from rfl, List.append_nil]

theorem rightOperand {leaf : Bool} (ha : Settled a) : Settled (Emit.rightOperand line leaf a) := by
  cases leaf with
  | true => exact cons (by simp [mov, Instruction.make]) ha
  | false =>
      refine cons (by simp [mov, Instruction.make]) (cons (by simp [push, Instruction.make]) ?_)
      exact ha.append (cons (by simp [pop, Instruction.make]) nil)

theorem applyOperator (op : BinaryOperator) : Settled (Emit.applyOperator line op) := by
  apply of_forall
  cases op <;> simp [Emit.applyOperator, mov, Instruction.make]

theorem applyCompare (op : CompareOperator) (id : Nat) :
    Settled (Emit.applyCompare line op id) := by
  have hother : ∀ word word', word ≠ word' → numbered word id ≠ numbered word' id :=
    fun word word' hword heq => hword (numbered_inj heq).1
  have hbranch : (Emit.jump line (jumpFor op) (numbered "true" id)).mnemonic ≠ .jmp := by
    cases op <;> simp [Emit.jump, jumpFor, Instruction.make]
  refine cons (by simp [Instruction.make]) (cons hbranch (jump ?_ (cons ?_ (cons ?_ (jump ?_
    (of_forall ?_))))))
  · exact fun rest => .inr (.last (hother _ _ (by decide)) rfl rfl)
  · simp [Instruction.labelled]
  · simp [mov, Instruction.make]
  · exact fun rest => .inr (.last (hother _ _ (by decide)) rfl rfl)
  · simp [mov, Instruction.make, Instruction.labelled]

theorem callPushed (callee : String) (count : Nat) :
    Settled (Emit.callPushed line callee count) := by
  apply of_forall
  unfold Emit.callPushed
  split <;> simp [Instruction.make]

theorem popWords (region : String) (n : Nat) : Settled (Emit.popWords line region n) := by
  induction n with
  | zero => exact nil
  | succ n ih => exact cons (by simp [pop, Instruction.make]) (cons (by simp [mov, Instruction.make]) ih)

theorem fillRegion (region : String) (count staged : Nat) :
    Settled (Emit.fillRegion line region count staged) :=
  cons (by simp [mov, Instruction.make]) (cons (by simp [mov, Instruction.make])
    ((popWords region staged).append (cons (by simp [lea, Instruction.make]) nil)))

theorem branchIfZero (label : String) : Settled (Emit.branchIfZero line label) := by
  apply of_forall
  simp [Emit.branchIfZero, Emit.jump, Instruction.make]

theorem epilogue : Settled (Emit.epilogue line) := by
  apply of_forall
  simp [Emit.epilogue, mov, pop, Instruction.make]

theorem conditional {id : Nat} {test body orelse : Code} (htest : Settled test)
    (hbody : Settled body) (horelse : Settled orelse) (hopens : orelse = [] ∨ orelse.Opens) :
    Settled (Emit.conditional line id test body orelse) := by
  unfold Emit.conditional
  refine ((htest.append (branchIfZero _)).append hbody).append (jump ?_ ?_)
  · intro rest
    rcases hopens with rfl | hopens
    · exact .inl .second
    · right
      rw [List.cons_append, List.append_assoc]
      exact (hopens.append _).blocked id line
  · exact cons (by simp [Instruction.labelled])
      (horelse.append (cons (by simp [Instruction.labelled]) nil))

/-- The jump at the end of a loop goes back. -/
theorem loop {id : Nat} {test body : Code} (htest : Settled test) (hbody : Settled body) :
    Settled (Emit.loop line id test body) := by
  intro before rest h
  have hinner : Settled (test ++ Emit.branchIfZero line (numbered "end" id) ++ body) :=
    (htest.append (branchIfZero _)).append hbody
  have hlast : Landing (before ++ [numbered "loop" id] ++
      labels (test ++ Emit.branchIfZero line (numbered "end" id) ++ body))
      (Emit.jump line .jmp (numbered "loop" id) :: .labelled (numbered "end" id) line :: rest) := by
    refine ⟨fun label _ hos => ?_, fun _ hm => (by cases hm), ?_⟩
    · cases hos
      exact .inl (by simp)
    · simpa [labels_loop, Emit.jump, Instruction.make, Instruction.labelled] using h
  have happend : Emit.loop line id test body ++ rest = .labelled (numbered "loop" id) line ::
      ((test ++ Emit.branchIfZero line (numbered "end" id) ++ body) ++
        Emit.jump line .jmp (numbered "loop" id) :: .labelled (numbered "end" id) line :: rest) := by
    simp [Emit.loop]
  rw [happend]
  exact ⟨fun _ hm => (by cases hm), hinner _ _ hlast⟩

end Settled

end Code

open Code Settled in
/-- The jumps of lowered code land as said. -/
theorem Lowers.settled {env : LoweringEnv} {phrase : Phrase} {st st' : LoweringState} {code : Code}
    (h : Lowers env phrase st code st') : Settled code := by
  have mov : ∀ {line dst src} {b : Code}, Settled b → Settled (Emit.mov line dst src :: b) :=
    fun hb => cons (by simp [Emit.mov, Instruction.make]) hb
  have push : ∀ {line o} {b : Code}, Settled b → Settled (Emit.push line o :: b) :=
    fun hb => cons (by simp [Emit.push, Instruction.make]) hb
  have pop : ∀ {line o} {b : Code}, Settled b → Settled (Emit.pop line o :: b) :=
    fun hb => cons (by simp [Emit.pop, Instruction.make]) hb
  induction h with
  | constant | builtin | slot | global | storeName => exact mov nil
  | string => exact cons (by simp [Emit.lea, Instruction.make]) nil
  | binary _ _ hleft hright => exact (hleft.append (rightOperand hright)).append (applyOperator _)
  | compare _ _ hleft hright =>
      exact (hleft.append (rightOperand hright)).append (applyCompare _ _)
  | call _ _ hargs | externalCall _ _ _ hargs => exact hargs.append (callPushed _ _)
  | list _ hargs | dict _ _ hargs => exact hargs.append (fillRegion _ _ _)
  | subscript _ _ hvalue hindex => exact (hvalue.append (rightOperand hindex)).append (mov nil)
  | pushesNil | pairsNil | targetsNil | blockNil => exact nil
  | pushesCons _ _ hhead htail => exact hhead.append (push htail)
  | pairsCons _ _ _ hkey hvalue htail =>
      exact hkey.append (push (hvalue.append (push htail)))
  | storeElement _ _ hvalue hindex =>
      exact push ((hvalue.append (rightOperand hindex)).append (mov (pop (mov nil))))
  | targetsCons _ _ hhead htail | blockCons _ _ hhead htail => exact hhead.append htail
  | assign _ _ _ _ hvalue hstores => exact hvalue.append hstores
  | augElement _ _ _ hbase hindex hvalue =>
      refine (hbase.append (rightOperand hindex)).append
        (push (push (append ?_ (pop (pop (mov nil))))))
      exact (append (mov nil) (rightOperand hvalue)).append (applyOperator _)
  | augName _ _ _ _ hname hvalue hstore =>
      exact ((hname.append (rightOperand hvalue)).append (applyOperator _)).append hstore
  | bareReturn => exact mov epilogue
  | ret _ hvalue => exact hvalue.append epilogue
  | expr _ hvalue | bare _ hvalue => exact hvalue
  | ifElse _ _ horelse htest hbody horelse' =>
      exact conditional htest hbody horelse' horelse.opens
  | whileLoop _ _ htest hbody => exact loop htest hbody

/-- The jumps of every unit land as said. -/
def Program.Landing (p : Program) : Prop := ∀ unit ∈ p.units, Code.Landing [] unit.code

theorem Program.Landing.mapCode {p : Program} (h : p.Landing) {f : Code → Code}
    (hf : Code.DropsOptional f) : (p.mapCode f).Landing := by
  intro unit hunit
  obtain ⟨old, hold, rfl⟩ := Program.mem_mapCode.mp hunit
  obtain ⟨keep, heq, hgone⟩ := hf old.code
  change Code.Landing [] (f old.code)
  rw [heq]
  exact (h old hold).thin (Code.keepsLandings_of_optional hgone)

theorem Links.landing {fns : List FunctionDef} {labels : Nat → Nat → Nat} {p : Program}
    (h : Links fns labels p) : p.Landing := by
  intro unit hunit
  obtain ⟨i, hi⟩ := List.mem_iff_getElem?.mp hunit
  obtain ⟨fn, hfn⟩ := h.exists_function hi
  obtain ⟨entry, body, final, hlowered⟩ := lower_eq_ok (h.lowered hfn hi)
  have hprologue : Code.Settled (Emit.prologue fn.name fn.line) := by
    apply Code.Settled.of_forall
    simp [Emit.prologue, Emit.mov, Emit.push, Instruction.make, Instruction.labelled]
  have hreserve : Code.Settled (Emit.reserve fn.line final.scope.frameSlots) := by
    apply Code.Settled.of_forall
    unfold Emit.reserve
    split <;> simp [Instruction.make]
  have hlast : Code.Settled (Emit.fallthrough fn.line) :=
    .cons (by simp [Emit.mov, Instruction.make]) .epilogue
  have hcode := hprologue.append (hreserve.append (hlowered.lowers.settled.append hlast)) [] [] trivial
  rw [List.append_nil] at hcode
  rw [hlowered.unit_eq]
  exact hcode

end Arbor
