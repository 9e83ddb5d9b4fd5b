import Mathlib.Tactic
import Arbor.Proofs.Discipline
import Arbor.Proofs.Simulation.Expression

/-!
The height of the stack at each position of lowered code. Inside a frame the height counts
the quadwords that were pushed below the slots of the locals. Every phrase leaves the height
as it found it, up to the words that it stages, whatever lies on the stack before it. A
statement begins at height 0, and so do the labels by which conditionals and loops go on.

The heights here go with the text of the code: after a return they continue with the height
before it, although control does not.
-/

namespace Arbor

open Emit

namespace Operand

/-- The operand is neither of the registers that hold the stack together. -/
def IsFree (o : Operand) : Prop := o.kind = .register → o.reg ≠ .rsp ∧ o.reg ≠ .rbp

theorem IsFree.of_memory {o : Operand} (h : o.kind = .memory) : o.IsFree := by
  intro hkind
  rw [h] at hkind
  cases hkind

@[simp] theorem isFree_ofReg {r : Reg} : (ofReg r).IsFree ↔ r ≠ .rsp ∧ r ≠ .rbp := by
  simp [IsFree, ofReg]

@[simp] theorem isFree_imm (v : Word) : (imm v).IsFree := by simp [IsFree, imm]

@[simp] theorem isFree_sym (name : String) : (sym name).IsFree := by simp [IsFree, sym]

@[simp] theorem isFree_frameSlot (d : Word) : (frameSlot d).IsFree := .of_memory rfl

@[simp] theorem isFree_element (base index : Reg) (d : Word) : (element base index d).IsFree :=
  .of_memory rfl

@[simp] theorem isFree_global (name : String) (d : Word) : (global name d).IsFree := .of_memory rfl

end Operand

namespace Instruction

/-- The first instruction of an exit drops all that the frame holds. -/
def Unwinds (i : Instruction) : Prop := i.mnemonic = .mov ∧ i.operands = [rsp, rbp]

/-- The second instruction of an exit restores the frame base of the caller. -/
def Unlinks (i : Instruction) : Prop := i.mnemonic = .pop ∧ i.operands = [rbp]

/-- The three instructions of an exit. -/
def Exits (i : Instruction) : Prop := i.Unwinds ∨ i.Unlinks ∨ i.mnemonic = .ret

/-- How an instruction inside a frame changes the height. A call leaves it as it is, and what
neither pushes, pops nor drops arguments leaves both stack registers alone. -/
inductive Adjusts : Instruction → Nat → Nat → Prop where
  | push {i : Instruction} {h : Nat} (hm : i.mnemonic = .push) : Adjusts i h (h + 1)
  | pop {i : Instruction} {h : Nat} (hm : i.mnemonic = .pop) (hfree : ∀ o ∈ i.operands, o.IsFree) :
      Adjusts i (h + 1) h
  | drop {i : Instruction} {h n : Nat} (hm : i.mnemonic = .add)
      (hos : i.operands = [rsp, .imm (8 * Int64.ofNat n)]) : Adjusts i (h + n) h
  | other {i : Instruction} {h : Nat} (hm : i.mnemonic ∉ [.push, .pop, .ret])
      (hfree : ∀ o ∈ i.operands, o.IsFree) : Adjusts i h h

variable {i : Instruction} {h h' : Nat}

theorem Adjusts.not_exits (hi : i.Adjusts h h') : ¬i.Exits := by
  rintro (⟨hm, hos⟩ | ⟨hm, hos⟩ | hm)
  · cases hi with
    | push hm' | pop hm' | drop hm' => simp [hm] at hm'
    | other _ hfree =>
        have hrsp := hfree rsp (by simp [hos])
        simp [rsp] at hrsp
  · cases hi with
    | push hm' | drop hm' => simp [hm] at hm'
    | pop _ hfree =>
        have hrbp := hfree rbp (by simp [hos])
        simp [rbp] at hrbp
    | other hm' => simp [hm] at hm'
  · cases hi with
    | push hm' | pop hm' | drop hm' => simp [hm] at hm'
    | other hm' => simp [hm] at hm'

/-- Moves and jumps leave the height as it is. -/
theorem Adjusts.eq_of_mov_or_jmp (hi : i.Adjusts h h')
    (hm : i.mnemonic = .mov ∨ i.mnemonic = .jmp) : h' = h := by
  cases hi with
  | push hm' | pop hm' | drop hm' => simp [hm'] at hm
  | other => rfl

end Instruction

/-- How far an activation is. -/
inductive Stage where
  /-- So many quadwords lie below the slots of the frame. -/
  | inside (height : Nat)
  /-- The stack pointer is back at the frame base. -/
  | unwound (height : Nat)
  /-- The frame base of the caller is back. -/
  | unlinked (height : Nat)
deriving DecidableEq, Repr

/-- The height, which an exit keeps for the code behind it. -/
def Stage.height : Stage → Nat
  | .inside height | .unwound height | .unlinked height => height

/-- What an instruction does to the stage. Labels are met, and jumped to, at their own height. -/
inductive Instruction.Shifts (marks : String → Option Nat) (i : Instruction) :
    Stage → Stage → Prop where
  | adjust {h h' : Nat} (hi : i.Adjusts h h') (hlabel : ∀ l, i.label = some l → marks l = some h)
      (hjump : i.mnemonic.isJump → ∃ l, i.operands = [.sym l] ∧ marks l = some h) :
      Shifts marks i (.inside h) (.inside h')
  | unwind {h : Nat} (hi : i.Unwinds) (hlabel : i.label = none) :
      Shifts marks i (.inside h) (.unwound h)
  | unlink {h : Nat} (hi : i.Unlinks) (hlabel : i.label = none) :
      Shifts marks i (.unwound h) (.unlinked h)
  | ret {h : Nat} (hi : i.mnemonic = .ret) (hlabel : i.label = none) :
      Shifts marks i (.unlinked h) (.inside h)

/-- A place in the code of a statement where nothing is staged: the start of a statement, or a
label of a conditional or a loop, given by its word. -/
structure Joint where
  position : Nat
  label? : Option String := none
deriving DecidableEq, Repr

def Joint.shift (n : Nat) (joint : Joint) : Joint := { joint with position := n + joint.position }

namespace Code

/-- The code has a joint's label where the joint says. -/
def Bears (code : Code) (joint : Joint) : Prop :=
  ∀ word, joint.label? = some word →
    ∃ i n, code[joint.position]? = some i ∧ i.label = some (numbered word n)

/-- Code inside a frame that leads from one height to another, with its joints at height 0. -/
def Climbs (marks : String → Option Nat) (h : Nat) (code : Code) (h' : Nat)
    (joints : List Joint) : Prop :=
  ∃ stage : Nat → Stage, stage 0 = .inside h ∧ stage code.length = .inside h' ∧
    (∀ (k : Nat) (i : Instruction), code[k]? = some i →
      i.Shifts marks (stage k) (stage (k + 1))) ∧
    ∀ joint ∈ joints, stage joint.position = .inside 0 ∧ joint.position ≤ code.length ∧
      code.Bears joint

namespace Climbs

variable {marks : String → Option Nat} {h h₁ h₂ : Nat} {a b : Code} {i : Instruction}
  {joints joints' : List Joint}

theorem nil : Climbs marks h [] h [] :=
  ⟨fun _ => .inside h, rfl, rfl, by simp, by simp⟩

theorem single (hi : i.Shifts marks (.inside h) (.inside h₁)) : Climbs marks h [i] h₁ [] := by
  refine ⟨fun k => if k = 0 then .inside h else .inside h₁, rfl, rfl, ?_, by simp⟩
  intro k j hj
  obtain ⟨rfl, rfl⟩ : k = 0 ∧ i = j := by simpa [List.getElem?_cons, List.getElem?_nil] using hj
  exact hi

/-- The joints of the second part come after the whole first part. -/
theorem append (ha : Climbs marks h a h₁ joints) (hb : Climbs marks h₁ b h₂ joints') :
    Climbs marks h (a ++ b) h₂ (joints ++ joints'.map (·.shift a.length)) := by
  obtain ⟨f, hf, hfa, hfstep, hfjoints⟩ := ha
  obtain ⟨g, hg, hgb, hgstep, hgjoints⟩ := hb
  let stage : Nat → Stage := fun k => if k ≤ a.length then f k else g (k - a.length)
  have hleft : ∀ k, k ≤ a.length → stage k = f k := fun k hk => if_pos hk
  have hright : ∀ k, stage (a.length + k) = g k := by
    intro k
    rcases Nat.eq_zero_or_pos k with rfl | hk
    · rw [Nat.add_zero, hleft _ le_rfl, hfa, hg]
    · simp only [stage, if_neg (show ¬a.length + k ≤ a.length by omega), Nat.add_sub_cancel_left]
  refine ⟨stage, ?_, ?_, ?_, ?_⟩
  · rw [hleft 0 (Nat.zero_le _), hf]
  · rw [List.length_append, hright, hgb]
  · intro k j hj
    rcases Nat.lt_or_ge k a.length with hk | hk
    · rw [List.getElem?_append_left hk] at hj
      rw [hleft k hk.le, hleft (k + 1) hk]
      exact hfstep k j hj
    · obtain ⟨m, rfl⟩ := Nat.exists_eq_add_of_le hk
      rw [List.getElem?_append_right hk, Nat.add_sub_cancel_left] at hj
      rw [hright, Nat.add_assoc, hright]
      exact hgstep m j hj
  · intro joint hjoint
    rcases List.mem_append.mp hjoint with hjoint | hjoint
    · obtain ⟨hstage, hle, hbears⟩ := hfjoints joint hjoint
      refine ⟨(hleft _ hle).trans hstage, by rw [List.length_append]; omega, ?_⟩
      intro word hword
      obtain ⟨i, n, hi, hlabel⟩ := hbears word hword
      have hlt := (List.getElem?_eq_some_iff.mp hi).1
      exact ⟨i, n, by rw [List.getElem?_append_left hlt, hi], hlabel⟩
    · obtain ⟨old, hold, rfl⟩ := List.mem_map.mp hjoint
      obtain ⟨hstage, hle, hbears⟩ := hgjoints old hold
      refine ⟨(hright _).trans hstage, by rw [List.length_append]; exact Nat.add_le_add_left hle _, ?_⟩
      intro word hword
      obtain ⟨i, n, hi, hlabel⟩ := hbears word hword
      refine ⟨i, n, ?_, hlabel⟩
      rw [Joint.shift, List.getElem?_append_right (Nat.le_add_right _ _), Nat.add_sub_cancel_left, hi]

theorem cons (hi : i.Shifts marks (.inside h) (.inside h₁)) (hb : Climbs marks h₁ b h₂ joints) :
    Climbs marks h (i :: b) h₂ (joints.map (·.shift 1)) := (single hi).append hb

/-- The code of a statement starts at a joint. -/
theorem start (ha : Climbs marks 0 a h₁ joints) : Climbs marks 0 a h₁ ({ position := 0 } :: joints) := by
  obtain ⟨f, hf, hlast, hstep, hjoints⟩ := ha
  refine ⟨f, hf, hlast, hstep, List.forall_mem_cons.mpr ⟨⟨hf, Nat.zero_le _, ?_⟩, hjoints⟩⟩
  intro word hword
  cases hword

/-- A label of a statement is a joint. -/
theorem label {name : String} (line : UInt32) (hmark : marks name = some h) :
    Climbs marks h [.labelled name line] h [] :=
  single (.adjust (.other (by simp [Instruction.labelled]) (by simp [Instruction.labelled]))
    (by rintro l ⟨⟩; exact hmark) (by simp [Instruction.labelled, Mnemonic.isJump, Mnemonic.isConditionalJump]))

theorem joint {word : String} {n : Nat} (line : UInt32) (hmark : marks (numbered word n) = some 0) :
    Climbs marks 0 [.labelled (numbered word n) line] 0 [{ position := 0, label? := some word }] := by
  obtain ⟨f, hf, hlast, hstep, -⟩ := label line hmark
  refine ⟨f, hf, hlast, hstep, List.forall_mem_singleton.mpr ⟨hf, Nat.zero_le _, ?_⟩⟩
  rintro _ ⟨⟩
  exact ⟨_, n, rfl, rfl⟩

/-- A jump is met at the height of its label. -/
theorem jump {m : Mnemonic} {name : String} (line : UInt32) (hm : m.isJump = true)
    (hmark : marks name = some h) : Climbs marks h [Emit.jump line m name] h [] := by
  refine single (.adjust (.other ?_ (by simp [Emit.jump, Instruction.make])) (by rintro l ⟨⟩)
    fun _ => ⟨name, rfl, hmark⟩)
  intro hmem
  simp only [Emit.jump, Instruction.make, List.mem_cons, List.not_mem_nil, or_false] at hmem
  rcases hmem with rfl | rfl | rfl <;> cases hm

/-- An instruction without label that does not jump. -/
theorem instruction {m : Mnemonic} {os : List Operand} {line : UInt32}
    (hi : (Instruction.make m os line).Adjusts h h₁) (hm : m.isJump = false) :
    Climbs marks h [.make m os line] h₁ [] :=
  single (.adjust hi (by rintro l ⟨⟩) fun hjump => by rw [Instruction.make, hm] at hjump; cases hjump)

/-- Nothing falls out of a return, and the height behind it is the one before. -/
theorem epilogue {line : UInt32} : Climbs marks h (Emit.epilogue line) h [] := by
  refine ⟨fun k => if k = 1 then .unwound h else if k = 2 then .unlinked h else .inside h,
    rfl, rfl, ?_, by simp⟩
  intro k i hi
  match k, hi with
  | 0, rfl => exact .unwind ⟨rfl, rfl⟩ rfl
  | 1, rfl => exact .unlink ⟨rfl, rfl⟩ rfl
  | 2, rfl => exact .ret rfl rfl
  | k + 3, hi => cases hi

end Climbs

/-- Code that climbs as soon as its labels are marked with the heights that the list gives. -/
def Poised (h : Nat) (code : Code) (h' : Nat) (joints : List Joint) : Prop :=
  ∃ heights : List (String × Nat), heights.map (·.1) = labels code ∧
    ∀ marks : String → Option Nat, (∀ e ∈ heights, marks e.1 = some e.2) →
      Climbs marks h code h' joints

namespace Poised

variable {h h₁ h₂ : Nat} {a b : Code} {line : UInt32} {joints joints' : List Joint}

theorem of_climbs (hlabels : labels a = []) (ha : ∀ marks, Climbs marks h a h₁ joints) :
    Poised h a h₁ joints := ⟨[], hlabels.symm, fun marks _ => ha marks⟩

theorem nil : Poised h [] h [] := of_climbs rfl fun _ => .nil

theorem append (ha : Poised h a h₁ joints) (hb : Poised h₁ b h₂ joints') :
    Poised h (a ++ b) h₂ (joints ++ joints'.map (·.shift a.length)) := by
  obtain ⟨as, halabels, haclimbs⟩ := ha
  obtain ⟨bs, hblabels, hbclimbs⟩ := hb
  refine ⟨as ++ bs, by rw [List.map_append, halabels, hblabels, labels_append], ?_⟩
  intro marks hmarks
  rw [List.forall_mem_append] at hmarks
  exact (haclimbs marks hmarks.1).append (hbclimbs marks hmarks.2)

theorem start (ha : Poised 0 a h₁ joints) : Poised 0 a h₁ ({ position := 0 } :: joints) := by
  obtain ⟨as, hlabels, hclimbs⟩ := ha
  exact ⟨as, hlabels, fun marks hmarks => (hclimbs marks hmarks).start⟩

theorem instruction {m : Mnemonic} {os : List Operand}
    (hi : (Instruction.make m os line).Adjusts h h₁) (hm : m.isJump = false) :
    Poised h [.make m os line] h₁ [] := of_climbs (by simp) fun _ => .instruction hi hm

/-- An instruction that leaves the stack alone. -/
theorem plain {m : Mnemonic} {os : List Operand} (hos : ∀ o ∈ os, o.IsFree)
    (hm : m ∉ [.push, .pop, .ret]) (hjump : m.isJump = false) : Poised h [.make m os line] h [] :=
  instruction (.other hm hos) hjump

theorem mov {dst src : Operand} (hdst : dst.IsFree) (hsrc : src.IsFree) :
    Poised h [Emit.mov line dst src] h [] := plain (by simp [hdst, hsrc]) (by simp) rfl

theorem push {o : Operand} : Poised h [Emit.push line o] (h + 1) [] := instruction (.push rfl) rfl

theorem pop {o : Operand} (ho : o.IsFree) : Poised (h + 1) [Emit.pop line o] h [] :=
  instruction (.pop rfl (by simpa [Instruction.make] using ho)) rfl

theorem epilogue : Poised h (Emit.epilogue line) h [] :=
  of_climbs (labels_epilogue ..) fun _ => .epilogue

/-- The second operand is evaluated at whatever height it finds. -/
theorem rightOperand {leaf : Bool} (ha : ∀ h, Poised h a h []) :
    Poised h (Emit.rightOperand line leaf a) h [] := by
  have hmov : Poised h [Emit.mov line rbx rax] h [] := mov (by simp [rbx]) (by simp [rax])
  cases leaf with
  | true => exact hmov.append (ha h)
  | false => exact hmov.append (push.append ((ha (h + 1)).append (pop (by simp [rbx]))))

theorem operands {leaf : Bool} (ha : Poised h a h []) (hb : ∀ h, Poised h b h []) :
    Poised h (a ++ Emit.rightOperand line leaf b) h [] := ha.append (rightOperand hb)

theorem applyOperator (op : BinaryOperator) : Poised h (Emit.applyOperator line op) h [] := by
  have combine : ∀ m : Mnemonic, m ∈ [.add, .sub, .imul, .xchg] →
      Poised h [.make m [rax, rbx] line] h [] := by
    intro m hm
    simp only [List.mem_cons, List.not_mem_nil, or_false] at hm
    apply plain (by simp [rax, rbx])
    · rcases hm with rfl | rfl | rfl | rfl <;> simp
    · rcases hm with rfl | rfl | rfl | rfl <;> rfl
  have quotient : Poised h [.make .cqo [] line, .make .idiv [rbx] line] h [] :=
    (plain (by simp) (by simp) rfl).append (plain (by simp [rbx]) (by simp) rfl)
  cases op with
  | add => exact combine .add (by simp)
  | sub => exact (combine .xchg (by simp)).append (combine .sub (by simp))
  | mult => exact combine .imul (by simp)
  | div => exact (combine .xchg (by simp)).append quotient
  | mod =>
      exact (combine .xchg (by simp)).append
        (quotient.append (mov (by simp [rax]) (by simp [rdx])))

theorem applyCompare (op : CompareOperator) (id : Nat) :
    Poised h (Emit.applyCompare line op id) h [] := by
  refine ⟨[(numbered "true" id, h), (numbered "false" id, h), (numbered "end" id, h)], by simp, ?_⟩
  intro marks hmarks
  simp only [List.forall_mem_cons] at hmarks
  obtain ⟨htrue, hfalse, hend, -⟩ := hmarks
  have word : ∀ v : Word, Climbs marks h [Emit.mov line rax (.imm v)] h [] :=
    fun v => .instruction (.other (by simp [Instruction.make]) (by simp [Instruction.make, rax])) rfl
  have compared : Climbs marks h [.make .cmp [rbx, rax] line] h [] :=
    .instruction (.other (by simp [Instruction.make]) (by simp [Instruction.make, rax, rbx])) rfl
  have jumped : ∀ {name : String}, marks name = some h →
      Climbs marks h [Emit.jump line .jmp name] h [] := fun hmark => .jump line rfl hmark
  have branches := compared.append
    ((Climbs.jump line (jumpFor_isJump op) htrue).append (jumped hfalse))
  have holds := (Climbs.label line htrue).append ((word 1).append (jumped hend))
  have fails := (Climbs.label line hfalse).append ((word 0).append (.label line hend))
  exact branches.append (holds.append fails)

theorem callPushed {callee : String} {n : Nat} :
    Poised (h + n) (Emit.callPushed line callee n) h [] := by
  have hcall : Poised (h + n) [.make .call [.sym callee] line] (h + n) [] :=
    plain (by simp) (by simp) rfl
  unfold Emit.callPushed
  split
  · rename_i hzero
    subst hzero
    exact hcall
  · exact hcall.append (instruction (.drop rfl rfl) rfl)

theorem popWords {region : String} {n : Nat} :
    Poised (h + n) (Emit.popWords line region n) h [] := by
  induction n with
  | zero => exact nil
  | succ n ih =>
      exact (pop (by simp [rax])).append ((mov (by simp) (by simp [rax])).append ih)

theorem fillRegion {region : String} {count staged : Nat} :
    Poised (h + staged) (Emit.fillRegion line region count staged) h [] := by
  have hcount : Poised (h + staged) [Emit.mov line rax (.imm (Int64.ofNat count))] (h + staged) [] :=
    mov (by simp [rax]) (by simp)
  have hlength : Poised (h + staged) [Emit.mov line (.global region 0) rax] (h + staged) [] :=
    mov (by simp) (by simp [rax])
  have haddress : Poised h [Emit.lea line rax region] h [] := plain (by simp [rax]) (by simp) rfl
  exact hcount.append (hlength.append (popWords.append haddress))

theorem loadElement : Poised h (Emit.loadElement line) h [] := mov (by simp [rax]) (by simp)

theorem storeElement : Poised h [Emit.storeElement line] h [] := mov (by simp) (by simp [rax])

end Poised

end Code

/-! ### Where statements start -/

/-- The number of instructions that apply an operator. -/
def BinaryOperator.codeLength : BinaryOperator → Nat
  | .add | .mult => 1
  | .sub => 2
  | .div => 3
  | .mod => 4

/-- The number of instructions of a right operand, which a compound one takes two more for. -/
def rightLength (leaf : Bool) (n : Nat) : Nat := if leaf then n + 1 else n + 3

namespace Tree

mutual

/-- The number of instructions of an expression or a statement. -/
def codeLength : Tree → Nat
  | .constant .. | .name .. | .absent => 1
  | .binary _ op left right =>
    left.codeLength + rightLength right.isLeaf right.codeLength + op.codeLength
  | .compare _ _ left right => left.codeLength + rightLength right.isLeaf right.codeLength + 9
  | .call _ _ args => codeLengthIn args + args.length + (if args.length = 0 then 1 else 2)
  | .list _ elements => codeLengthIn elements + elements.length + (2 * elements.length + 3)
  | .dict _ keys values =>
    codeLengthIn keys + codeLengthIn values + 2 * keys.length + (4 * keys.length + 3)
  | .subscript _ value index =>
    value.codeLength + rightLength index.isLeaf index.codeLength + 1
  | .assign _ targets value => value.codeLength + storeLengthIn targets
  | .augAssign _ (.subscript _ base index) op value =>
    base.codeLength + rightLength index.isLeaf index.codeLength + 2 +
      (1 + rightLength value.isLeaf value.codeLength + op.codeLength + 3)
  | .augAssign _ _ op value => 1 + rightLength value.isLeaf value.codeLength + op.codeLength + 1
  | .ret _ value => value.codeLength + 3
  | .expr _ value => value.codeLength
  | .ifElse _ test body orelse =>
    test.codeLength + 2 + codeLengthIn body + 1 + (1 + codeLengthIn orelse + 1)
  | .whileLoop _ test body => 1 + test.codeLength + 2 + codeLengthIn body + 2
  | .functionDef .. | .attribute .. => 0

def codeLengthIn : List Tree → Nat
  | [] => 0
  | t :: rest => t.codeLength + codeLengthIn rest

/-- The number of instructions that store to a target. -/
def storeLength : Tree → Nat
  | .name .. => 1
  | .subscript _ value index => 1 + (value.codeLength + rightLength index.isLeaf index.codeLength + 3)
  | _ => 0

def storeLengthIn : List Tree → Nat
  | [] => 0
  | t :: rest => t.storeLength + storeLengthIn rest

end

mutual

/-- The joints in the code of a statement: its own start, and the starts and labels of the
statements inside it. -/
def joints : Tree → List Joint
  | .ifElse _ test body orelse =>
    let otherwise := test.codeLength + 2 + codeLengthIn body + 1
    { position := 0 } ::
      ((jointsIn body).map (·.shift (test.codeLength + 2)) ++
        { position := otherwise, label? := some "else" } ::
          ((jointsIn orelse).map (·.shift (otherwise + 1)) ++
            [{ position := otherwise + 1 + codeLengthIn orelse, label? := some "end" }]))
  | .whileLoop _ test body =>
    { position := 0 } :: { position := 0, label? := some "loop" } ::
      ((jointsIn body).map (·.shift (1 + test.codeLength + 2)) ++
        [{ position := 1 + test.codeLength + 2 + codeLengthIn body + 1, label? := some "end" }])
  | _ => [{ position := 0 }]

def jointsIn : List Tree → List Joint
  | [] => []
  | t :: rest => t.joints ++ (jointsIn rest).map (·.shift t.codeLength)

end

end Tree

namespace Phrase

def codeLength : Phrase → Nat
  | .expression t | .statement t => t.codeLength
  | .pushes _ ts => Tree.codeLengthIn ts + ts.length
  | .pairs _ keys values => Tree.codeLengthIn keys + Tree.codeLengthIn values + 2 * keys.length
  | .target t => t.storeLength
  | .targets ts => Tree.storeLengthIn ts
  | .block ts => Tree.codeLengthIn ts

def joints : Phrase → List Joint
  | .statement t => t.joints
  | .block ts => Tree.jointsIn ts
  | _ => []

end Phrase

namespace Emit

variable {line : UInt32}

@[simp] theorem length_rightOperand (leaf : Bool) (right : Code) :
    (rightOperand line leaf right).length = rightLength leaf right.length := by
  cases leaf <;> simp [rightOperand, rightLength]

@[simp] theorem length_applyOperator (op : BinaryOperator) :
    (applyOperator line op).length = op.codeLength := by
  cases op <;> rfl

@[simp] theorem length_applyCompare (op : CompareOperator) (id : Nat) :
    (applyCompare line op id).length = 9 := rfl

@[simp] theorem length_callPushed (callee : String) (n : Nat) :
    (callPushed line callee n).length = if n = 0 then 1 else 2 := by
  unfold callPushed
  split <;> rfl

@[simp] theorem length_fillRegion (region : String) (count n : Nat) :
    (fillRegion line region count n).length = 2 * n + 3 := by
  simp [fillRegion, length_popWords]

@[simp] theorem length_epilogue : (epilogue line).length = 3 := rfl

@[simp] theorem length_branchIfZero (label : String) : (branchIfZero line label).length = 2 := rfl

@[simp] theorem length_loadElement : (loadElement line).length = 1 := rfl

end Emit

/-- The syntax tells how long the code of a phrase is. -/
theorem Lowers.length_eq {env : LoweringEnv} {phrase : Phrase} {st st' : LoweringState} {code : Code}
    (hlowers : Lowers env phrase st code st') : code.length = phrase.codeLength := by
  induction hlowers with
  | dict hlength _ ih =>
      simp only [Phrase.codeLength, Tree.codeLength, List.length_append, length_fillRegion] at *
      omega
  | ifElse | whileLoop =>
      simp only [Phrase.codeLength, Tree.codeLength, conditional, loop, List.length_append,
        List.length_cons, List.length_nil, length_branchIfZero] at *
      omega
  | bareReturn => rfl
  | _ =>
      simp_all [Phrase.codeLength, Tree.codeLength, Tree.codeLengthIn, Tree.storeLength,
        Tree.storeLengthIn]
      try omega

namespace Code.Poised

variable {line : UInt32} {id n m l : Nat} {test body orelse : Code} {joints joints' : List Joint}

theorem conditional (hn : test.length = n) (hm : body.length = m) (hl : orelse.length = l)
    (htest : Poised 0 test 0 []) (hbody : Poised 0 body 0 joints)
    (horelse : Poised 0 orelse 0 joints') :
    Poised 0 (Emit.conditional line id test body orelse) 0
      (joints.map (·.shift (n + 2)) ++ { position := n + 2 + m + 1, label? := some "else" } ::
        (joints'.map (·.shift (n + 2 + m + 1 + 1)) ++
          [{ position := n + 2 + m + 1 + 1 + l, label? := some "end" }])) := by
  subst hn hm hl
  obtain ⟨ts, htlabels, htclimbs⟩ := htest
  obtain ⟨bs, hblabels, hbclimbs⟩ := hbody
  obtain ⟨os, holabels, hoclimbs⟩ := horelse
  refine ⟨ts ++ (bs ++ (numbered "else" id, 0) :: (os ++ [(numbered "end" id, 0)])),
    by simp [labels_conditional, htlabels, hblabels, holabels], ?_⟩
  intro marks hmarks
  simp only [List.forall_mem_append, List.forall_mem_cons] at hmarks
  obtain ⟨htest, hbody, helse, horelse, hend, -⟩ := hmarks
  have htested : Climbs marks 0 [.make .test [rax, rax] line] 0 [] :=
    .instruction (.other (by simp [Instruction.make]) (by simp [Instruction.make, rax])) rfl
  have hbranch : Climbs marks 0 (branchIfZero line (numbered "else" id)) 0 [] :=
    htested.append (.jump line rfl helse)
  have hskip : Climbs marks 0 [Emit.jump line .jmp (numbered "end" id)] 0 [] := .jump line rfl hend
  have hafter := (hskip.append (Climbs.joint line helse)).append
    ((hoclimbs marks horelse).append (Climbs.joint line hend))
  have hall := (((htclimbs marks htest).append hbranch).append (hbclimbs marks hbody)).append hafter
  simpa [Emit.conditional, Joint.shift, Function.comp_def, Nat.add_assoc] using hall

theorem loop (hn : test.length = n) (hm : body.length = m)
    (htest : Poised 0 test 0 []) (hbody : Poised 0 body 0 joints) :
    Poised 0 (Emit.loop line id test body) 0
      ({ position := 0, label? := some "loop" } :: (joints.map (·.shift (1 + n + 2)) ++
        [{ position := 1 + n + 2 + m + 1, label? := some "end" }])) := by
  subst hn hm
  obtain ⟨ts, htlabels, htclimbs⟩ := htest
  obtain ⟨bs, hblabels, hbclimbs⟩ := hbody
  refine ⟨(numbered "loop" id, 0) :: (ts ++ (bs ++ [(numbered "end" id, 0)])),
    by simp [labels_loop, htlabels, hblabels], ?_⟩
  intro marks hmarks
  simp only [List.forall_mem_append, List.forall_mem_cons] at hmarks
  obtain ⟨hloop, htest, hbody, hend, -⟩ := hmarks
  have htested : Climbs marks 0 [.make .test [rax, rax] line] 0 [] :=
    .instruction (.other (by simp [Instruction.make]) (by simp [Instruction.make, rax])) rfl
  have hbranch : Climbs marks 0 (branchIfZero line (numbered "end" id)) 0 [] :=
    htested.append (.jump line rfl hend)
  have hback : Climbs marks 0 [Emit.jump line .jmp (numbered "loop" id)] 0 [] := .jump line rfl hloop
  have hall := (Climbs.joint line hloop).append
    ((((htclimbs marks htest).append hbranch).append (hbclimbs marks hbody)).append
      (hback.append (Climbs.joint line hend)))
  simpa [Emit.loop, Joint.shift, Function.comp_def, Nat.add_assoc] using hall

end Code.Poised

/-- An expression has no joints but its start. -/
theorem Lowers.joints_expression {env : LoweringEnv} {t : Tree} {st st' : LoweringState} {code : Code}
    (hlowers : Lowers env (.expression t) st code st') : t.joints = [{ position := 0 }] := by
  cases hlowers <;> rfl

open Code in
/-- A phrase takes off the stack what it has put there, at any height. Statements are lowered at
height 0 only. -/
theorem Lowers.poised {env : LoweringEnv} {phrase : Phrase} {st st' : LoweringState} {code : Code}
    (hlowers : Lowers env phrase st code st') {h : Nat} (hh : phrase.joints ≠ [] → h = 0) :
    Poised h code (h + phrase.staged) phrase.joints := by
  have expression : ∀ {t : Tree} {code : Code},
      (∀ {h : Nat}, ((Phrase.expression t).joints ≠ [] → h = 0) → Poised h code h []) →
      ∀ h, Poised h code h [] := fun ih h => ih fun hne => absurd rfl hne
  induction hlowers generalizing h with
  | constant | builtin => exact .mov (by simp [rax]) (by simp)
  | string => exact .plain (by simp [rax]) (by simp) rfl
  | slot | global => exact .mov (by simp [rax]) (by simp)
  | binary _ _ ihleft ihright =>
      exact (Poised.operands (expression ihleft h) (expression ihright)).append (.applyOperator _)
  | compare _ _ ihleft ihright =>
      exact (Poised.operands (expression ihleft h) (expression ihright)).append (.applyCompare _ _)
  | call _ _ ihargs | externalCall _ _ _ ihargs => exact (ihargs hh).append .callPushed
  | list _ ihelements => exact (ihelements hh).append .fillRegion
  | dict _ _ ihpairs => exact (ihpairs hh).append .fillRegion
  | subscript _ _ ihvalue ihindex =>
      exact (Poised.operands (expression ihvalue h) (expression ihindex)).append .loadElement
  | pushesNil | pairsNil | targetsNil | blockNil => exact .nil
  | pushesCons _ _ ihhead ihtail =>
      have hrest := ihtail (h := h + 1) (by simp [Phrase.joints])
      simp only [Phrase.staged, Nat.add_right_comm h 1] at hrest
      exact (expression ihhead h).append (Poised.push.append hrest)
  | @pairsCons _ key keys _ _ _ _ _ _ _ _ _ _ _ _ ihkey ihvalue ihtail =>
      have hrest := ihtail (h := h + 1 + 1) (by simp [Phrase.joints])
      have hlength : h + 1 + 1 + 2 * keys.length = h + 2 * (key :: keys).length := by
        rw [List.length_cons]
        omega
      simp only [Phrase.staged, hlength] at hrest
      exact (expression ihkey h).append
        (Poised.push.append ((expression ihvalue (h + 1)).append (Poised.push.append hrest)))
  | storeName => exact .mov (by simp) (by simp [rax])
  | storeElement _ _ ihvalue ihindex =>
      exact Poised.push.append ((Poised.operands (expression ihvalue (h + 1)) (expression ihindex)).append
        ((Poised.mov (by simp [rcx]) (by simp [rax])).append
          ((Poised.pop (by simp [rax])).append .storeElement)))
  | targetsCons _ _ ihhead ihtail => exact (ihhead hh).append (ihtail hh)
  | assign _ _ _ _ ihvalue ihstores =>
      obtain rfl : h = 0 := hh (by simp [Phrase.joints, Tree.joints])
      exact ((expression ihvalue 0).append (ihstores fun _ => rfl)).start
  | augElement _ _ _ ihbase ihindex ihvalue =>
      obtain rfl : h = 0 := hh (by simp [Phrase.joints, Tree.joints])
      exact ((Poised.operands (expression ihbase 0) (expression ihindex)).append
        (Poised.push.append (Poised.push.append
          (((Poised.loadElement.operands (expression ihvalue)).append (.applyOperator _)).append
            ((Poised.pop (by simp [rcx])).append
              ((Poised.pop (by simp [rbx])).append .storeElement)))))).start
  | augName _ _ _ _ ihname ihvalue ihstore =>
      obtain rfl : h = 0 := hh (by simp [Phrase.joints, Tree.joints])
      exact (((Poised.operands (expression ihname 0) (expression ihvalue)).append
        (.applyOperator _)).append (ihstore fun _ => rfl)).start
  | bareReturn =>
      obtain rfl : h = 0 := hh (by simp [Phrase.joints, Tree.joints])
      exact ((Poised.mov (by simp [rax]) (by simp)).append .epilogue).start
  | ret _ ihvalue =>
      obtain rfl : h = 0 := hh (by simp [Phrase.joints, Tree.joints])
      exact ((expression ihvalue 0).append .epilogue).start
  | expr _ ihvalue =>
      obtain rfl : h = 0 := hh (by simp [Phrase.joints, Tree.joints])
      exact (expression ihvalue 0).start
  | ifElse htest hbody horelse ihtest ihbody ihorelse =>
      obtain rfl : h = 0 := hh (by simp [Phrase.joints, Tree.joints])
      exact (Poised.conditional htest.length_eq hbody.length_eq horelse.length_eq
        (expression ihtest 0) (ihbody fun _ => rfl) (ihorelse fun _ => rfl)).start
  | whileLoop htest hbody ihtest ihbody =>
      obtain rfl : h = 0 := hh (by simp [Phrase.joints, Tree.joints])
      exact (Poised.loop htest.length_eq hbody.length_eq (expression ihtest 0)
        (ihbody fun _ => rfl)).start
  | bare hexpression ihexpression =>
      have hjoints := hexpression.joints_expression
      obtain rfl : h = 0 := hh (by simp [Phrase.joints, hjoints])
      simp only [Phrase.joints, hjoints]
      exact (expression ihexpression 0).start
  | blockCons hhead htail ihhead ihtail =>
      have hall := (ihhead fun hne => hh (by simp_all [Phrase.joints, Tree.jointsIn])).append
        (ihtail fun hne => hh (by simp_all [Phrase.joints, Tree.jointsIn]))
      rw [hhead.length_eq] at hall
      exact hall

end Arbor
