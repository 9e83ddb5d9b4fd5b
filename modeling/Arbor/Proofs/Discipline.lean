import Mathlib.Tactic
import Arbor.Proofs.Closure
import Arbor.Proofs.Frames
import Arbor.Proofs.Thinning

/-!
How lowered code uses the stack. A shape says what an activation has put there, and
every instruction that lowering emits leads from one shape to the next, so the shape is
known at each position that a run can reach. Labels have a shape of their own, which is
the shape of every jump to them. A pass that leaves out redundant moves and jumps leaves
the shapes of the other positions as they are.
-/

namespace Arbor

/-- What an activation has on the stack. -/
inductive Shape where
  /-- The return address is on top, and the frame base is that of the caller. -/
  | outside
  /-- The frame base of the caller has been saved. -/
  | saved
  /-- The frame is gone, up to the saved frame base. -/
  | based
  /-- So many words lie below the frame base. The last `pending` of them were arguments
  of a call that has returned. -/
  | inside (height pending : Nat)
  /-- Two words have just been compared. -/
  | compared (height : Nat)
deriving DecidableEq, Repr

/-- The shape that a jump takes to its label. -/
def Shape.landing : Shape → Shape
  | .compared height => .inside height 0
  | σ => σ

/-- Whether a register is free for values, unlike the two that hold the stack together. -/
def Reg.isScratch : Reg → Bool
  | .rax | .rbx | .rcx | .rdx => true
  | .none | .rbp | .rsp => false

/-- How many parameters a function has, and how many words of other locals. -/
structure FrameSize where
  params : Nat
  slots : Nat
deriving DecidableEq, Repr

def CompiledUnit.frameSize (unit : CompiledUnit) : FrameSize :=
  { params := unit.params, slots := unit.slots }

/-- The displacements of parameters and locals. -/
def FrameSize.HasSlot (size : FrameSize) (d : Word) : Prop :=
  ∃ j < size.params + size.slots, slotDisplacement size.params j = d

/-- What a move inside the frame may move. -/
inductive Operand.Movable (size : FrameSize) : Operand → Prop where
  | reg {r : Reg} (hr : r.isScratch) : Movable size (.ofReg r)
  | imm (v : Word) : Movable size (.imm v)
  | slot {d : Word} (hd : size.HasSlot d) : Movable size (.frameSlot d)
  | element {base index : Reg} (hbase : base.isScratch) (hindex : index.isScratch) (d : Word) :
      Movable size (.element base index d)
  | global (symbol : String) (d : Word) : Movable size (.global symbol d)

/-- Instructions that work on scratch registers only. -/
inductive Instruction.Computes : Instruction → Prop where
  | lea {r : Reg} {symbol : String} {line : UInt32} (hr : r.isScratch) :
      Computes (.make .lea [.ofReg r, .sym symbol] line)
  | combine {m : Mnemonic} {a b : Reg} {line : UInt32} (hm : m ∈ [.add, .sub, .imul, .xchg])
      (ha : a.isScratch) (hb : b.isScratch) : Computes (.make m [.ofReg a, .ofReg b] line)
  | extend {line : UInt32} : Computes (.make .cqo [] line)
  | divide {r : Reg} {line : UInt32} (hr : r.isScratch) : Computes (.make .idiv [.ofReg r] line)

/-- How an instruction changes the shape. Nothing follows a jump, a return and a
call that leaves the program. -/
inductive Instruction.Moves (arity? : String → Option Nat) (size : FrameSize) :
    Shape → Instruction → Option Shape → Prop where
  | pushBase {line : UInt32} :
      Moves arity? size .outside (.make .push [.ofReg .rbp] line) (some .saved)
  | setBase {line : UInt32} :
      Moves arity? size .saved (.make .mov [.ofReg .rbp, .ofReg .rsp] line) (some (.inside 0 0))
  | reserve {line : UInt32} :
      Moves arity? size (.inside 0 0)
        (.make .sub [.ofReg .rsp, .imm (Int64.ofNat (8 * size.slots))] line)
        (some (.inside size.slots 0))
  | move {h : Nat} {dst src : Operand} {line : UInt32} (hh : size.slots ≤ h)
      (hdst : dst.Movable size) (hsrc : src.Movable size) :
      Moves arity? size (.inside h 0) (.make .mov [dst, src] line) (some (.inside h 0))
  | compute {h : Nat} {i : Instruction} (hi : i.Computes) :
      Moves arity? size (.inside h 0) i (some (.inside h 0))
  | compare {h : Nat} {m : Mnemonic} {a b : Reg} {line : UInt32} (hm : m ∈ [.cmp, .test]) :
      Moves arity? size (.inside h 0) (.make m [.ofReg a, .ofReg b] line) (some (.compared h))
  | branch {h : Nat} {m : Mnemonic} {label : String} {line : UInt32} (hm : m.isConditionalJump) :
      Moves arity? size (.compared h) (.make m [.sym label] line) (some (.inside h 0))
  | jump {h : Nat} {label : String} {line : UInt32} :
      Moves arity? size (.inside h 0) (.make .jmp [.sym label] line) none
  | push {h : Nat} {r : Reg} {line : UInt32} (hh : size.slots ≤ h) (hr : r.isScratch) :
      Moves arity? size (.inside h 0) (.make .push [.ofReg r] line) (some (.inside (h + 1) 0))
  | pop {h : Nat} {r : Reg} {line : UInt32} (hh : size.slots ≤ h) (hr : r.isScratch) :
      Moves arity? size (.inside (h + 1) 0) (.make .pop [.ofReg r] line) (some (.inside h 0))
  | call {h n : Nat} {callee : String} {line : UInt32} (hn : arity? callee = some n)
      (hh : size.slots + n ≤ h) :
      Moves arity? size (.inside h 0) (.make .call [.sym callee] line) (some (.inside h n))
  | external {h : Nat} {callee : String} {line : UInt32} (hn : arity? callee = none) :
      Moves arity? size (.inside h 0) (.make .call [.sym callee] line) none
  | drop {h n : Nat} {line : UInt32} (hh : size.slots ≤ h) :
      Moves arity? size (.inside (h + n) n)
        (.make .add [.ofReg .rsp, .imm (8 * Int64.ofNat n)] line) (some (.inside h 0))
  | leave {h : Nat} {line : UInt32} :
      Moves arity? size (.inside h 0) (.make .mov [.ofReg .rsp, .ofReg .rbp] line) (some .based)
  | popBase {line : UInt32} :
      Moves arity? size .based (.make .pop [.ofReg .rbp] line) (some .outside)
  | ret {line : UInt32} : Moves arity? size .outside (.make .ret [] line) none

theorem Instruction.Moves.label_eq {arity? : String → Option Nat} {size : FrameSize}
    {σ : Shape} {i : Instruction} {next : Option Shape} (h : i.Moves arity? size σ next) :
    i.label = none := by
  cases h with
  | compute hi => cases hi <;> rfl
  | _ => rfl

/-- Code keeps to the shapes, from the shape it is entered with on. Code that
cannot be entered may be anything up to the next label. -/
inductive Code.Shaped (arity? : String → Option Nat) (size : FrameSize)
    (marks : String → Shape) : Option Shape → Code → Prop where
  | nil {entry : Option Shape} : Shaped arity? size marks entry []
  | label {entry : Option Shape} {name : String} {line : UInt32} {rest : Code}
      (hentry : ∀ σ, entry = some σ → σ = marks name)
      (hrest : Shaped arity? size marks (some (marks name)) rest) :
      Shaped arity? size marks entry (.labelled name line :: rest)
  | dead {i : Instruction} {rest : Code} (hlabel : i.label = none)
      (hrest : Shaped arity? size marks none rest) : Shaped arity? size marks none (i :: rest)
  | step {σ : Shape} {next : Option Shape} {i : Instruction} {rest : Code}
      (hmoves : i.Moves arity? size σ next)
      (hjump : ∀ label, i.mnemonic.isJump → i.operands = [.sym label] → marks label = σ.landing)
      (hrest : Shaped arity? size marks next rest) :
      Shaped arity? size marks (some σ) (i :: rest)

namespace Code

variable {arity? : String → Option Nat} {size : FrameSize} {marks : String → Shape}

/-- Code that keeps to the shapes may as well not be entered. -/
theorem Shaped.unentered {entry : Option Shape} {code : Code}
    (h : Shaped arity? size marks entry code) : Shaped arity? size marks none code := by
  induction h with
  | nil => exact .nil
  | label _ hrest _ => exact .label (by simp) hrest
  | dead hlabel hrest _ => exact .dead hlabel hrest
  | step hmoves _ _ ih => exact .dead hmoves.label_eq ih

/-- A label is entered with its own shape. -/
theorem Shaped.at_label {entry : Option Shape} {code : Code}
    (h : Shaped arity? size marks entry code) {k : Nat} {i : Instruction} {name : String}
    (hi : code[k]? = some i) (hname : i.label = some name) :
    Shaped arity? size marks (some (marks name)) (code.drop k) := by
  induction h generalizing k with
  | nil => cases hi
  | label hentry hrest ih =>
      cases k with
      | zero =>
          cases hi
          cases hname
          exact .label (fun σ hσ => (Option.some.inj hσ).symm) hrest
      | succ k => exact ih hi
  | dead hlabel hrest ih =>
      cases k with
      | zero =>
          cases hi
          rw [hlabel] at hname
          cases hname
      | succ k => exact ih hi
  | step hmoves hjump hrest ih =>
      cases k with
      | zero =>
          cases hi
          rw [hmoves.label_eq] at hname
          cases hname
      | succ k => exact ih hi

/-- Code leads from one shape to another, whatever follows it. -/
def Carries (arity? : String → Option Nat) (size : FrameSize) (marks : String → Shape)
    (σ : Shape) (code : Code) (τ : Shape) : Prop :=
  ∀ rest, Shaped arity? size marks (some τ) rest → Shaped arity? size marks (some σ) (code ++ rest)

namespace Carries

variable {σ τ υ : Shape} {a b : Code} {i : Instruction}

theorem nil : Carries arity? size marks σ [] σ := fun _ h => h

theorem append (ha : Carries arity? size marks σ a τ) (hb : Carries arity? size marks τ b υ) :
    Carries arity? size marks σ (a ++ b) υ := by
  intro rest h
  rw [List.append_assoc]
  exact ha _ (hb rest h)

theorem cons (hmoves : i.Moves arity? size σ (some τ)) (hjump : i.mnemonic.isJump = false)
    (hb : Carries arity? size marks τ b υ) : Carries arity? size marks σ (i :: b) υ := by
  intro rest h
  refine .step hmoves ?_ (hb rest h)
  intro label hj
  rw [hjump] at hj
  cases hj

theorem single (hmoves : i.Moves arity? size σ (some τ)) (hjump : i.mnemonic.isJump = false) :
    Carries arity? size marks σ [i] τ := cons hmoves hjump nil

/-- The code after a return is entered elsewhere, if at all. -/
theorem last (hmoves : i.Moves arity? size σ none) (hjump : i.mnemonic.isJump = false) :
    Carries arity? size marks σ [i] τ := by
  intro rest h
  refine .step hmoves ?_ h.unentered
  intro label hj
  rw [hjump] at hj
  cases hj

theorem branch {h : Nat} {m : Mnemonic} {name : String} {line : UInt32}
    (hm : m.isConditionalJump) (hmark : marks name = .inside h 0)
    (hb : Carries arity? size marks (.inside h 0) b υ) :
    Carries arity? size marks (.compared h) (Emit.jump line m name :: b) υ := by
  intro rest hrest
  refine .step (.branch hm) ?_ (hb rest hrest)
  intro label _ hlabel
  cases hlabel
  exact hmark

/-- A jump and the label after it. -/
theorem jump {h : Nat} {name next : String} {line line' : UInt32}
    (hmark : marks name = .inside h 0) (hb : Carries arity? size marks (marks next) b υ) :
    Carries arity? size marks (.inside h 0)
      (Emit.jump line .jmp name :: .labelled next line' :: b) υ := by
  intro rest hrest
  refine .step .jump ?_ (.label (by simp) (hb rest hrest))
  intro label _ hlabel
  cases hlabel
  exact hmark

theorem label {name : String} {line : UInt32} (hmark : marks name = σ)
    (hb : Carries arity? size marks σ b υ) :
    Carries arity? size marks σ (.labelled name line :: b) υ := by
  intro rest hrest
  refine .label (fun τ hτ => ?_) ?_
  · cases hτ
    exact hmark.symm
  · rw [hmark]
    exact hb rest hrest

end Carries

/-- Code of a frame that changes the height of the stack as said. The list gives the shapes
of its labels. -/
def Balanced (arity? : String → Option Nat) (size : FrameSize) (h : Nat) (code : Code)
    (h' : Nat) : Prop :=
  ∃ shapes : List (String × Shape), shapes.map (·.1) = labels code ∧
    ∀ marks : String → Shape, (∀ e ∈ shapes, marks e.1 = e.2) →
      Carries arity? size marks (.inside h 0) code (.inside h' 0)

namespace Balanced

open Emit

variable {h h₁ h₂ : Nat} {a b : Code} {i : Instruction} {line : UInt32}

theorem nil : Balanced arity? size h [] h := ⟨[], rfl, fun _ _ => .nil⟩

theorem append (ha : Balanced arity? size h a h₁) (hb : Balanced arity? size h₁ b h₂) :
    Balanced arity? size h (a ++ b) h₂ := by
  obtain ⟨as, haLabels, hashapes⟩ := ha
  obtain ⟨bs, hbLabels, hbshapes⟩ := hb
  refine ⟨as ++ bs, by rw [List.map_append, haLabels, hbLabels, labels_append], ?_⟩
  intro marks hmarks
  apply Carries.append (hashapes marks _) (hbshapes marks _)
  · exact fun e he => hmarks e (List.mem_append_left _ he)
  · exact fun e he => hmarks e (List.mem_append_right _ he)

/-- Code without labels. -/
theorem of_carries (hlabels : labels a = [])
    (ha : ∀ marks, Carries arity? size marks (.inside h 0) a (.inside h₁ 0)) :
    Balanced arity? size h a h₁ := ⟨[], hlabels.symm, fun marks _ => ha marks⟩

theorem cons (hmoves : i.Moves arity? size (.inside h 0) (some (.inside h₁ 0)))
    (hjump : i.mnemonic.isJump = false) (hb : Balanced arity? size h₁ b h₂) :
    Balanced arity? size h (i :: b) h₂ := by
  have hsingle : Balanced arity? size h [i] h₁ := by
    apply of_carries
    · simp [labels, hmoves.label_eq]
    · exact fun _ => .single hmoves hjump
  exact hsingle.append hb

theorem single (hmoves : i.Moves arity? size (.inside h 0) (some (.inside h₁ 0)))
    (hjump : i.mnemonic.isJump = false) : Balanced arity? size h [i] h₁ :=
  cons hmoves hjump nil

theorem mov {dst src : Operand} (hh : size.slots ≤ h) (hdst : dst.Movable size)
    (hsrc : src.Movable size) (hb : Balanced arity? size h b h₁) :
    Balanced arity? size h (Emit.mov line dst src :: b) h₁ := cons (.move hh hdst hsrc) rfl hb

theorem push {r : Reg} (hh : size.slots ≤ h) (hr : r.isScratch)
    (hb : Balanced arity? size (h + 1) b h₁) :
    Balanced arity? size h (Emit.push line (.ofReg r) :: b) h₁ := cons (.push hh hr) rfl hb

theorem pop {r : Reg} (hh : size.slots ≤ h) (hr : r.isScratch)
    (hb : Balanced arity? size h b h₁) :
    Balanced arity? size (h + 1) (Emit.pop line (.ofReg r) :: b) h₁ := cons (.pop hh hr) rfl hb

theorem rightOperand {leaf : Bool} (hh : size.slots ≤ h)
    (ha : ∀ h', size.slots ≤ h' → Balanced arity? size h' a h') :
    Balanced arity? size h (Emit.rightOperand line leaf a) h := by
  cases leaf with
  | true => exact mov hh (.reg rfl) (.reg rfl) (ha h hh)
  | false =>
      exact mov hh (.reg rfl) (.reg rfl) (push hh rfl
        ((ha (h + 1) (by omega)).append (pop hh rfl nil)))

/-- Two operands, the second of which is evaluated at whatever height the first leaves. -/
theorem operands {leaf : Bool} (hh : size.slots ≤ h) (ha : Balanced arity? size h a h)
    (hb : ∀ h', size.slots ≤ h' → Balanced arity? size h' b h') :
    Balanced arity? size h (a ++ Emit.rightOperand line leaf b) h := ha.append (rightOperand hh hb)

theorem applyOperator (hh : size.slots ≤ h) (op : BinaryOperator) :
    Balanced arity? size h (Emit.applyOperator line op) h := by
  have combine : ∀ (m : Mnemonic) (rest : Code), m ∈ [.add, .sub, .imul, .xchg] →
      Balanced arity? size h rest h →
      Balanced arity? size h (.make m [rax, rbx] line :: rest) h := by
    intro m rest hm hrest
    refine cons (.compute (.combine hm rfl rfl)) ?_ hrest
    simp only [List.mem_cons, List.not_mem_nil, or_false] at hm
    rcases hm with rfl | rfl | rfl | rfl <;> rfl
  have quotient : ∀ rest : Code, Balanced arity? size h rest h →
      Balanced arity? size h (.make .cqo [] line :: .make .idiv [rbx] line :: rest) h :=
    fun rest hrest => cons (.compute .extend) rfl (cons (.compute (.divide rfl)) rfl hrest)
  cases op with
  | add => exact combine .add [] (by simp) nil
  | sub => exact combine .xchg _ (by simp) (combine .sub [] (by simp) nil)
  | mult => exact combine .imul [] (by simp) nil
  | div => exact combine .xchg _ (by simp) (quotient [] nil)
  | mod =>
      exact combine .xchg _ (by simp) (quotient _ (mov hh (.reg rfl) (.reg rfl) nil))

theorem applyCompare (hh : size.slots ≤ h) (op : CompareOperator) (id : Nat) :
    Balanced arity? size h (Emit.applyCompare line op id) h := by
  refine ⟨[(numbered "true" id, .inside h 0), (numbered "false" id, .inside h 0),
    (numbered "end" id, .inside h 0)], by simp, ?_⟩
  intro marks hmarks
  simp only [List.forall_mem_cons] at hmarks
  obtain ⟨htrue, hfalse, hend, -⟩ := hmarks
  have hm : (jumpFor op).isConditionalJump = true := by cases op <;> rfl
  have word : ∀ (v : Word) (rest : Code),
      Carries arity? size marks (.inside h 0) rest (.inside h 0) →
      Carries arity? size marks (.inside h 0) (Emit.mov line rax (.imm v) :: rest) (.inside h 0) :=
    fun v rest hrest => .cons (.move hh (.reg rfl) (.imm v)) rfl hrest
  refine .cons (.compare (by simp)) rfl (.branch hm htrue (.jump hfalse ?_))
  rw [htrue]
  refine word 1 _ (.jump hend ?_)
  rw [hfalse]
  exact word 0 _ (.label hend .nil)

theorem conditional {id : Nat} {test body orelse : Code} (htest : Balanced arity? size h test h)
    (hbody : Balanced arity? size h body h) (horelse : Balanced arity? size h orelse h) :
    Balanced arity? size h (Emit.conditional line id test body orelse) h := by
  obtain ⟨ts, htlabels, htshapes⟩ := htest
  obtain ⟨bs, hblabels, hbshapes⟩ := hbody
  obtain ⟨os, holabels, hoshapes⟩ := horelse
  refine ⟨ts ++ (bs ++ (numbered "else" id, .inside h 0) :: (os ++
    [(numbered "end" id, .inside h 0)])), by simp [labels_conditional, htlabels, hblabels, holabels], ?_⟩
  intro marks hmarks
  simp only [List.forall_mem_append, List.forall_mem_cons] at hmarks
  obtain ⟨htest, hbody, helse, horelse, hend, -⟩ := hmarks
  have hafter := hoshapes marks horelse
  have hbefore : Carries arity? size marks (.inside h 0)
      (test ++ branchIfZero line (numbered "else" id)) (.inside h 0) :=
    (htshapes marks htest).append (.cons (.compare (by simp)) rfl (.branch rfl helse .nil))
  unfold Emit.conditional
  refine (hbefore.append (hbshapes marks hbody)).append (.jump hend ?_)
  rw [helse]
  exact hafter.append (.label hend .nil)

theorem loop {id : Nat} {test body : Code} (htest : Balanced arity? size h test h)
    (hbody : Balanced arity? size h body h) :
    Balanced arity? size h (Emit.loop line id test body) h := by
  obtain ⟨ts, htlabels, htshapes⟩ := htest
  obtain ⟨bs, hblabels, hbshapes⟩ := hbody
  refine ⟨(numbered "loop" id, .inside h 0) :: (ts ++ (bs ++
    [(numbered "end" id, .inside h 0)])), by simp [labels_loop, htlabels, hblabels], ?_⟩
  intro marks hmarks
  simp only [List.forall_mem_append, List.forall_mem_cons] at hmarks
  obtain ⟨hloop, htest, hbody, hend, -⟩ := hmarks
  have hbefore : Carries arity? size marks (.inside h 0)
      (test ++ branchIfZero line (numbered "end" id)) (.inside h 0) :=
    (htshapes marks htest).append (.cons (.compare (by simp)) rfl (.branch rfl hend .nil))
  unfold Emit.loop
  refine .label hloop ((hbefore.append (hbshapes marks hbody)).append (.jump hloop ?_))
  rw [hend]
  exact .nil

/-- The words that a callee was given are dropped after the call. -/
theorem callPushed {callee : String} {n : Nat} (hh : size.slots ≤ h)
    (harity : arity? callee = some n ∨ arity? callee = none) :
    Balanced arity? size (h + n) (Emit.callPushed line callee n) h := by
  apply of_carries (labels_callPushed ..)
  intro marks
  unfold Emit.callPushed
  rcases harity with hn | hn
  · by_cases hzero : n = 0
    · subst hzero
      rw [if_pos rfl]
      exact .single (.call hn (by omega)) rfl
    · rw [if_neg hzero]
      exact .cons (.call hn (by omega)) rfl (.single (.drop hh) rfl)
  · -- nothing is known of a function outside the program, so what follows is not entered
    intro rest hrest
    refine .step (.external hn) (fun label hj => by cases hj) ?_
    split
    · exact hrest.unentered
    · exact .dead rfl hrest.unentered

theorem popWords {region : String} {n : Nat} (hh : size.slots ≤ h) :
    Balanced arity? size (h + n) (Emit.popWords line region n) h := by
  induction n with
  | zero => exact nil
  | succ n ih =>
      have hn : size.slots ≤ h + n := by omega
      exact pop hn rfl (mov hn (.global _ _) (.reg rfl) ih)

theorem fillRegion {region : String} {count staged : Nat} (hh : size.slots ≤ h) :
    Balanced arity? size (h + staged) (Emit.fillRegion line region count staged) h :=
  mov (by omega) (.reg rfl) (.imm _) (mov (by omega) (.global _ _) (.reg rfl)
    ((popWords hh).append (single (.compute (.lea rfl)) rfl)))

theorem loadElement (hh : size.slots ≤ h) : Balanced arity? size h (Emit.loadElement line) h :=
  mov hh (.reg rfl) (.element rfl rfl 8) nil

theorem storeElement (hh : size.slots ≤ h) : Balanced arity? size h [Emit.storeElement line] h :=
  mov hh (.element rfl rfl 8) (.reg rfl) nil

/-- Nothing falls out of a return, so any height will do after it. -/
theorem epilogue : Balanced arity? size h (Emit.epilogue line) h₁ :=
  of_carries (labels_epilogue ..) fun _ =>
    .cons .leave rfl (.cons .popBase rfl (.last .ret rfl))

end Balanced

end Code

/-- The frame has a slot for everything in scope. -/
def FrameSize.Covers (size : FrameSize) (st : LoweringState) : Prop :=
  ∀ id d, st.scope.displacement? id = some d → size.HasSlot d

theorem FrameSize.Covers.earlier {env : LoweringEnv} {size : FrameSize} {phrase : Phrase}
    {st st' : LoweringState} {code : Code} (h : size.Covers st')
    (hlowers : Lowers env phrase st code st') : size.Covers st :=
  fun id d hd => h id d (hlowers.leads.displacement? hd)

/-- The words that a phrase leaves on the stack. -/
def Phrase.staged : Phrase → Nat
  | .pushes _ ts => ts.length
  | .pairs _ keys _ => 2 * keys.length
  | _ => 0

open Code Balanced in
/-- Lowered code takes off the stack what it has put there. -/
theorem Lowers.balanced {env : LoweringEnv} {phrase : Phrase} {st st' : LoweringState} {code : Code}
    (hlowers : Lowers env phrase st code st') {size : FrameSize} (hcovers : size.Covers st')
    {h : Nat} (hh : size.slots ≤ h) :
    Balanced env.arity? size h code (h + phrase.staged) := by
  induction hlowers generalizing h with
  | constant | builtin => exact mov hh (.reg rfl) (.imm _) nil
  | string => exact single (.compute (.lea rfl)) rfl
  | slot _ hslot => exact mov hh (.reg rfl) (.slot (hcovers _ _ hslot)) nil
  | global => exact mov hh (.reg rfl) (.global _ _) nil
  | binary hleft hright ihleft ihright =>
      exact (operands hh (ihleft (hcovers.earlier hright) hh) fun _ => ihright hcovers).append
        (applyOperator hh _)
  | @compare _ _ _ _ _ _ _ _ st₂ hleft hright ihleft ihright =>
      have hcovers' : size.Covers st₂ := hcovers
      exact (operands hh (ihleft (hcovers'.earlier hright) hh) fun _ => ihright hcovers').append
        (applyCompare hh _ _)
  | call harity _ ihargs => exact (ihargs hcovers hh).append (callPushed hh (.inl harity))
  | externalCall harity _ _ ihargs =>
      exact (ihargs hcovers hh).append (callPushed hh (.inr harity))
  | list _ ihelements => exact (ihelements hcovers hh).append (fillRegion hh)
  | dict _ _ ihpairs => exact (ihpairs hcovers hh).append (fillRegion hh)
  | subscript _ hindex ihvalue ihindex =>
      exact (operands hh (ihvalue (hcovers.earlier hindex) hh) fun _ => ihindex hcovers).append
        (loadElement hh)
  | pushesNil | pairsNil | targetsNil | blockNil => exact nil
  | pushesCons _ htail ihhead ihtail =>
      have hrest := ihtail hcovers (h := h + 1) (by omega)
      simp only [Phrase.staged, Nat.add_right_comm h 1] at hrest
      exact (ihhead (hcovers.earlier htail) hh).append (push hh rfl hrest)
  | @pairsCons _ key keys _ _ _ _ _ _ _ _ _ _ hvalue htail ihkey ihvalue ihtail =>
      have hcovers' := hcovers.earlier htail
      have hrest := ihtail hcovers (h := h + 1 + 1) (by omega)
      have hlength : h + 1 + 1 + 2 * keys.length = h + 2 * (key :: keys).length := by
        rw [List.length_cons]
        omega
      simp only [Phrase.staged, hlength] at hrest
      exact (ihkey (hcovers'.earlier hvalue) hh).append (push hh rfl
        ((ihvalue hcovers' (h := h + 1) (by omega)).append (push (by omega) rfl hrest)))
  | storeName hslot => exact mov hh (.slot (hcovers _ _ hslot)) (.reg rfl) nil
  | storeElement _ hindex ihvalue ihindex =>
      have hh' : size.slots ≤ h + 1 := by omega
      exact push hh rfl
        ((operands hh' (ihvalue (hcovers.earlier hindex) hh') fun _ => ihindex hcovers).append
          (mov hh' (.reg rfl) (.reg rfl) (pop hh rfl (Balanced.storeElement hh))))
  | targetsCons _ htail ihhead ihtail =>
      exact (ihhead (hcovers.earlier htail) hh).append (ihtail hcovers hh)
  | assign _ _ _ hstores ihvalue ihstores =>
      exact (ihvalue (hcovers.earlier hstores) hh).append (ihstores hcovers hh)
  | augElement _ hindex hvalue ihbase ihindex ihvalue =>
      have hcovers' := hcovers.earlier hvalue
      have hh' : size.slots ≤ h + 1 := by omega
      have hh'' : size.slots ≤ h + 1 + 1 := by omega
      refine (operands hh (ihbase (hcovers'.earlier hindex) hh) fun _ => ihindex hcovers').append
        (push hh rfl (push hh' rfl (append ?_
          (pop hh' rfl (pop hh rfl (Balanced.storeElement hh))))))
      exact (operands hh'' (loadElement hh'') fun _ => ihvalue hcovers).append
        (applyOperator hh'' _)
  | augName _ _ hvalue hstore ihname ihvalue ihstore =>
      have hcovers' := hcovers.earlier hstore
      exact ((operands hh (ihname (hcovers'.earlier hvalue) hh) fun _ => ihvalue hcovers').append
        (applyOperator hh _)).append (ihstore hcovers hh)
  | bareReturn => exact mov hh (.reg rfl) (.imm _) epilogue
  | ret _ ihvalue => exact (ihvalue hcovers hh).append epilogue
  | expr _ ihvalue => exact ihvalue hcovers hh
  | ifElse _ hbody horelse ihtest ihbody ihorelse =>
      have hcovers' := hcovers.earlier horelse
      exact conditional (ihtest (hcovers'.earlier hbody) hh) (ihbody hcovers' hh)
        (ihorelse hcovers hh)
  | whileLoop _ hbody ihtest ihbody =>
      exact loop (ihtest (hcovers.earlier hbody) hh) (ihbody hcovers hh)
  | bare _ ihexpression => exact ihexpression hcovers hh
  | blockCons _ htail ihhead ihtail =>
      exact (ihhead (hcovers.earlier htail) hh).append (ihtail hcovers hh)

namespace Code

variable {arity? : String → Option Nat} {size : FrameSize} {marks : String → Shape}

/-- Code that starts with a label, or with other labels before it, is entered with its shape. -/
theorem Shaped.eq_of_startsAt {σ : Shape} {code : Code}
    (h : Shaped arity? size marks (some σ) code) {label : String} (hstarts : startsAt label code) :
    σ = marks label := by
  induction code generalizing σ with
  | nil => cases hstarts
  | cons i rest ih =>
      cases h with
      | label hentry hrest =>
          rename_i name line
          simp only [startsAt, Instruction.labelled, Bool.or_eq_true, beq_iff_eq,
            Bool.and_eq_true] at hstarts
          rw [hentry σ rfl]
          rcases hstarts with rfl | ⟨-, hstarts⟩
          · rfl
          · exact ih hrest hstarts
      | step hmoves hjump hrest => simp [startsAt, hmoves.label_eq] at hstarts

theorem Shaped.enter {code : Code} (h : Shaped arity? size marks none code) {label : String}
    (hstarts : startsAt label code) : Shaped arity? size marks (some (marks label)) code := by
  cases h with
  | nil => cases hstarts
  | dead hlabel hrest => simp [startsAt, hlabel] at hstarts
  | label hentry hrest =>
      rename_i name line rest
      refine .label (fun σ hσ => ?_) hrest
      cases hσ
      simp only [startsAt, Instruction.labelled, Bool.or_eq_true, beq_iff_eq,
        Bool.and_eq_true] at hstarts
      rcases hstarts with rfl | ⟨-, hstarts⟩
      · rfl
      · exact (hrest.eq_of_startsAt hstarts).symm

theorem startsAt_thin {label : String} {code : Code} {keep : Nat → Bool}
    (h : ∀ k i, code[k]? = some i → keep k = false → i.label = none)
    (hstarts : startsAt label code) : startsAt label (thin keep code) := by
  induction code generalizing keep with
  | nil => cases hstarts
  | cons i rest ih =>
      have hkept : keep 0 = true := by
        cases hkeep : keep 0 with
        | true => rfl
        | false => simp [startsAt, h 0 i rfl hkeep] at hstarts
      rw [thin, if_pos hkept]
      cases hname : i.label with
      | none => simp [startsAt, hname] at hstarts
      | some name =>
          simp only [startsAt, hname, Bool.or_eq_true, Bool.and_eq_true] at hstarts ⊢
          rcases hstarts with hhere | ⟨honly, hrest⟩
          · exact .inl hhere
          · exact .inr ⟨honly, ih (fun k j hj => h (k + 1) j hj) hrest⟩

/-- An instruction that may go in its code, for a reason a window finds or because it only
stores to a slot. -/
def Optional (code : Code) (k : Nat) (i : Instruction) : Prop :=
  Redundant code k i ∨ (i.label = none ∧ i.slotWritten?.isSome)

theorem Optional.label {code : Code} {k : Nat} {i : Instruction} (h : Optional code k i) :
    i.label = none := by
  rcases h with h | h
  · exact h.label
  · exact h.1

end Code

namespace Instruction

variable {arity? : String → Option Nat} {size : FrameSize} {σ : Shape} {i : Instruction}
  {next : Option Shape}

theorem moveOperands?_eq_some {dst src : Operand} (h : i.moveOperands? = some (dst, src)) :
    i.mnemonic = .mov ∧ i.operands = [dst, src] := by
  unfold moveOperands? at h
  split at h
  · rename_i hm hos
    cases h
    exact ⟨hm, hos⟩
  · cases h

/-- A move keeps the shape, unless it is one of those that open and close the frame. -/
theorem Moves.of_mov (h : i.Moves arity? size σ next) {dst src : Operand}
    (hm : i.mnemonic = .mov) (hos : i.operands = [dst, src]) :
    (next = some σ ∧ dst.Movable size) ∨
      (σ = .saved ∧ next = some (.inside 0 0) ∧ dst = .ofReg .rbp ∧ src = .ofReg .rsp) ∨
      (∃ height, σ = .inside height 0 ∧ next = some .based ∧ dst = .ofReg .rsp ∧
        src = .ofReg .rbp) := by
  cases h with
  | setBase =>
      cases hos
      exact .inr (.inl ⟨rfl, rfl, rfl, rfl⟩)
  | leave =>
      cases hos
      exact .inr (.inr ⟨_, rfl, rfl, rfl, rfl⟩)
  | move hh hdst =>
      cases hos
      exact .inl ⟨rfl, hdst⟩
  | compute hi => cases hi <;> simp_all [make]
  | compare hm' => simp_all [make]
  | branch hm' =>
      cases hm
      cases hm'
  | _ => cases hm

/-- Nothing is entered right after a return or a jump. -/
theorem Moves.eq_none (h : i.Moves arity? size σ next) (hm : i.mnemonic = .ret ∨ i.mnemonic = .jmp) :
    next = none := by
  cases h with
  | ret | jump => rfl
  | compute hi =>
      cases hi with
      | combine hm' =>
          simp only [make] at hm
          rcases hm with rfl | rfl <;> simp at hm'
      | _ => simp [make] at hm
  | compare hm' =>
      simp only [make] at hm
      rcases hm with rfl | rfl <;> simp at hm'
  | branch hm' =>
      simp only [make] at hm
      rcases hm with rfl | rfl <;> cases hm'
  | _ => simp [make] at hm

theorem Moves.of_jmp (h : i.Moves arity? size σ next) (hm : i.mnemonic = .jmp) :
    ∃ height label line, σ = .inside height 0 ∧ next = none ∧ i = .make .jmp [.sym label] line := by
  obtain rfl := h.eq_none (.inr hm)
  cases h with
  | jump => exact ⟨_, _, _, rfl, rfl, rfl⟩
  | external | ret => cases hm

/-- A store to a slot keeps the shape. -/
theorem Moves.of_slotWritten (h : i.Moves arity? size σ next) (hi : i.slotWritten?.isSome) :
    next = some σ := by
  unfold slotWritten? at hi
  split at hi
  · rename_i o rest hm hos
    obtain ⟨src, rfl⟩ : ∃ src, rest = [src] := by
      cases h with
      | setBase | leave | move =>
          cases hos
          exact ⟨_, rfl⟩
      | compute hi => cases hi <;> simp_all [make]
      | compare hm' => simp_all [make]
      | branch hm' =>
          cases hm
          cases hm'
      | _ => cases hm
    rcases h.of_mov hm hos with ⟨heq, -⟩ | ⟨-, -, rfl, -⟩ | ⟨_, -, -, rfl, -⟩
    · exact heq
    · cases hi
    · cases hi
  · cases hi

/-- What a window finds redundant keeps the shape or is a jump. -/
theorem Moves.of_redundant (h : i.Moves arity? size σ next) {prev : Instruction} {rest : Code}
    (hprev : prev.mnemonic ≠ .none → ∃ σ₀, prev.Moves arity? size σ₀ (some σ))
    (hi : Code.Redundant (prev :: i :: rest) 1 i) :
    next = some σ ∨ (i.mnemonic = .jmp ∧ Code.jumpsToNext i rest) := by
  -- neither of the moves that open and close the frame can follow itself
  have frame : ∀ dst src, prev.moveOperands? = some (dst, src) →
      ¬(σ = .saved ∧ dst = .ofReg .rbp) ∧ ¬∃ height, σ = .inside height 0 ∧ dst = .ofReg .rsp := by
    intro dst src hmove
    obtain ⟨hm, hos⟩ := moveOperands?_eq_some hmove
    obtain ⟨σ₀, hσ₀⟩ := hprev (by simp [hm])
    rcases hσ₀.of_mov hm hos with ⟨-, hdst⟩ | ⟨-, hσ, rfl, -⟩ | ⟨_, -, hσ, rfl, -⟩
    · constructor
      · rintro ⟨-, rfl⟩
        cases hdst with
        | reg hr => cases hr
      · rintro ⟨_, -, rfl⟩
        cases hdst with
        | reg hr => cases hr
    · cases hσ
      simp [Operand.ofReg]
    · cases hσ
      simp
  cases hi with
  | selfMove hself =>
      obtain ⟨-, o, hmove, -⟩ := of_isSelfMove hself
      obtain ⟨hm, hos⟩ := moveOperands?_eq_some hmove
      rcases h.of_mov hm hos with ⟨heq, -⟩ | ⟨-, -, hdst, hsrc⟩ | ⟨_, -, -, hdst, hsrc⟩
      · exact .inl heq
      · rw [hdst] at hsrc
        cases hsrc
      · rw [hdst] at hsrc
        cases hsrc
  | repeated hfirst hrepeats =>
      cases hfirst
      obtain ⟨-, dst, src, hmove, hmove', -⟩ := of_repeats hrepeats
      obtain ⟨hm, hos⟩ := moveOperands?_eq_some hmove'
      rcases h.of_mov hm hos with ⟨heq, -⟩ | ⟨hσ, -, hdst, -⟩ | ⟨height, hσ, -, hdst, -⟩
      · exact .inl heq
      · exact absurd ⟨hσ, hdst⟩ (frame _ _ hmove).1
      · exact absurd ⟨height, hσ, hdst⟩ (frame _ _ hmove).2
  | undone hfirst hundoes =>
      obtain ⟨-, dst, src, -, hmove', hkinds⟩ := of_undoes hundoes
      obtain ⟨hm, hos⟩ := moveOperands?_eq_some hmove'
      rcases h.of_mov hm hos with ⟨heq, -⟩ | ⟨-, -, hdst, hsrc⟩ | ⟨_, -, -, hdst, hsrc⟩
      · exact .inl heq
      · rw [hdst, hsrc] at hkinds
        simp [Operand.ofReg] at hkinds
      · rw [hdst, hsrc] at hkinds
        simp [Operand.ofReg] at hkinds
  | jumpToNext hjump => exact .inr ⟨(Code.of_jumpsToNext hjump).1, hjump⟩
  | shadowed hfirst hshadows =>
      cases hfirst
      simp only [shadows, Bool.and_eq_true, Bool.or_eq_true, beq_iff_eq] at hshadows
      obtain ⟨σ₀, hσ₀⟩ := hprev (by rcases hshadows.1.1 with hm | hm <;> simp [hm])
      cases hσ₀.eq_none hshadows.1.1

end Instruction

/-- Leaving out optional instructions leaves the shapes as they are. -/
theorem Code.Shaped.thin {arity? : String → Option Nat} {size : FrameSize}
    {marks : String → Shape} {entry : Option Shape} {code : Code}
    (h : Shaped arity? size marks entry code) (prev : Instruction)
    (hprev : ∀ σ, entry = some σ → prev.mnemonic ≠ .none →
      ∃ σ₀, prev.Moves arity? size σ₀ (some σ))
    (keep : Nat → Bool)
    (hgone : ∀ k i, code[k]? = some i → keep k = false → Optional (prev :: code) (k + 1) i) :
    Shaped arity? size marks entry (Code.thin keep code) := by
  induction h generalizing prev keep with
  | nil => exact .nil
  | @label entry name line rest hentry hrest ih =>
      have hkept : keep 0 = true := by
        cases hkeep : keep 0 with
        | true => rfl
        | false => cases (hgone 0 _ rfl hkeep).label
      rw [Code.thin, if_pos hkept]
      have hthin := ih (.labelled name line) (fun σ _ hm => absurd rfl hm) (fun k => keep (k + 1))
        fun k j hj hk => (hgone (k + 1) j hj hk).imp (·.of_cons) id
      exact .label hentry hthin
  | @dead i rest hlabel hrest ih =>
      have hthin := ih i (fun σ hσ => by cases hσ) (fun k => keep (k + 1))
        fun k j hj hk => (hgone (k + 1) j hj hk).imp (·.of_cons) id
      rw [Code.thin]
      split
      · exact .dead hlabel hthin
      · exact hthin
  | @step σ next i rest hmoves hjump hrest ih =>
      have hthin := ih i (fun τ hτ _ => ⟨σ, hτ ▸ hmoves⟩) (fun k => keep (k + 1))
        fun k j hj hk => (hgone (k + 1) j hj hk).imp (·.of_cons) id
      rw [Code.thin]
      split
      · exact .step hmoves hjump hthin
      · rename_i hkeep
        rcases hgone 0 i rfl (by simpa using hkeep) with hredundant | ⟨-, hwritten⟩
        · rcases hmoves.of_redundant (hprev σ rfl) hredundant with rfl | ⟨hm, hnext⟩
          · exact hthin
          · obtain ⟨height, label, line, rfl, rfl, rfl⟩ := hmoves.of_jmp hm
            have hmark : marks label = .inside height 0 := hjump label rfl rfl
            have hstarts : startsAt label rest := by
              simpa [jumpsToNext, Instruction.make, Operand.sym] using hnext
            rw [← hmark]
            exact hthin.enter
              (startsAt_thin (fun k j hj hk => (hgone (k + 1) j hj hk).label) hstarts)
        · rw [hmoves.of_slotWritten hwritten] at hthin
          exact hthin

namespace Emit

open Code

variable {arity? : String → Option Nat} {size : FrameSize}

/-- A function is entered at its return address and left in the same way. -/
theorem functionCode_shaped {fn : FunctionDef} {body : Code}
    (hbody : Balanced arity? size size.slots body size.slots)
    (hnodup : (labels (functionCode fn size.slots body)).Nodup) :
    ∃ marks, Shaped arity? size marks (some .outside) (functionCode fn size.slots body) := by
  obtain ⟨shapes, hkeys, hshapes⟩ := hbody
  have hall : ((fn.name, Shape.outside) :: shapes).map (·.1) =
      labels (functionCode fn size.slots body) := by
    rw [labels_functionCode, List.map_cons, hkeys]
  rw [← hall] at hnodup
  let marks : String → Shape := fun name =>
    (((fn.name, Shape.outside) :: shapes).lookup name).getD .outside
  have hmarks : ∀ e ∈ (fn.name, Shape.outside) :: shapes, marks e.1 = e.2 := by
    rintro ⟨name, σ⟩ he
    simp only [marks, (lookup_eq_some_iff_mem hnodup).mpr he, Option.getD_some]
  have hname : marks fn.name = .outside := hmarks _ List.mem_cons_self
  have hreserve : Carries arity? size marks (.inside 0 0) (reserve fn.line size.slots)
      (.inside size.slots 0) := by
    unfold reserve
    split
    · rename_i hzero
      rw [hzero]
      exact .nil
    · exact .single .reserve rfl
  have hprologue : Carries arity? size marks .outside (prologue fn.name fn.line) (.inside 0 0) :=
    .label hname (.cons .pushBase rfl (.single .setBase rfl))
  have hinside := hshapes marks fun e he => hmarks e (List.mem_cons_of_mem _ he)
  have hlast : Carries arity? size marks (.inside size.slots 0) (fallthrough fn.line) .outside :=
    .cons (.move (Nat.le_refl _) (.reg rfl) (.imm 0)) rfl
      (.cons .leave rfl (.cons .popBase rfl (.last .ret rfl)))
  have hcode := hprologue.append (hreserve.append (hinside.append hlast)) [] .nil
  rw [List.append_nil] at hcode
  exact ⟨marks, hcode⟩

end Emit

/-- How many arguments a function of the program takes. -/
def Program.arity? (p : Program) (name : String) : Option Nat :=
  (p.units.map fun unit => (unit.name, unit.params)).lookup name

@[simp] theorem Program.arity?_mapCode (f : Code → Code) (p : Program) :
    (p.mapCode f).arity? = p.arity? := by
  funext name
  simp [arity?, mapCode, Function.comp_def]

/-- Every unit keeps to the shapes. -/
def Program.Shaped (p : Program) : Prop :=
  ∀ unit ∈ p.units, ∃ marks,
    Code.Shaped p.arity? unit.frameSize marks (some .outside) unit.code

/-- A transformation that leaves out optional instructions and does nothing else. -/
def Code.DropsOptional (f : Code → Code) : Prop :=
  ∀ code, ∃ keep, f code = Code.thin keep code ∧
    ∀ k i, code[k]? = some i → keep k = false → Optional code k i

theorem Code.dropsOptional_removeDeadStores : DropsOptional removeDeadStores := by
  intro code
  refine ⟨keepsStore code, removeDeadStores_eq_thin code, fun k i hi hk => .inr ?_⟩
  refine ⟨label_of_keepsStore hi hk, ?_⟩
  simp only [keepsStore, hi, isDeadStore] at hk
  split at hk
  · cases hk
  · rename_i slot hslot
    rw [nodeAt] at hslot
    rw [hslot]
    rfl

theorem Code.dropsOptional_sweepWindows : DropsOptional sweepWindows := by
  intro code
  obtain ⟨keep, heq, hgone⟩ := exists_thin_eq_sweepWindows code
  exact ⟨keep, heq, fun k i hi hk => .inl (hgone k i hi hk)⟩

theorem Program.Shaped.mapCode {p : Program} (h : p.Shaped) {f : Code → Code}
    (hf : Code.DropsOptional f) : (p.mapCode f).Shaped := by
  intro unit hunit
  obtain ⟨old, hold, rfl⟩ := Program.mem_mapCode.mp hunit
  obtain ⟨marks, hmarks⟩ := h old hold
  obtain ⟨keep, heq, hgone⟩ := hf old.code
  refine ⟨marks, ?_⟩
  rw [Program.arity?_mapCode, heq]
  refine hmarks.thin (.labelled "" 0) (fun σ _ hm => absurd rfl hm) keep ?_
  exact fun k i hi hk => (hgone k i hi hk).imp (·.cons _) id

namespace Links

variable {fns : List FunctionDef} {labels : Nat → Nat → Nat} {p : Program}

theorem arity?_eq (h : Links fns labels p) : p.arity? = arityOf fns := by
  funext name
  rw [Program.arity?, arityOf]
  congr 1
  apply List.ext_getElem?
  intro i
  rw [List.getElem?_map, List.getElem?_map]
  cases hfn : fns[i]? with
  | none =>
      have hlength : p.units.length ≤ i := by
        rw [h.units_length]
        exact List.getElem?_eq_none_iff.mp hfn
      rw [List.getElem?_eq_none_iff.mpr hlength]
      rfl
  | some fn =>
      obtain ⟨unit, hunit⟩ := h.exists_unit hfn
      obtain ⟨entry, body, final, hlowered⟩ := lower_eq_ok (h.lowered hfn hunit)
      rw [hunit, hlowered.unit_eq]
      rfl

/-- Compiled programs keep to the shapes. -/
theorem shaped (h : Links fns labels p) : p.Shaped := by
  intro unit hunit
  obtain ⟨i, hi⟩ := List.mem_iff_getElem?.mp hunit
  obtain ⟨fn, hfn⟩ := h.exists_function hi
  obtain ⟨entry, body, final, hlowered⟩ := lower_eq_ok (h.lowered hfn hi)
  obtain ⟨hentry, -⟩ := Scope.declareParams_framed hlowered.params
  have hframed : final.scope.Framed fn.params.length := hlowered.lowers.framed hentry
  have hcovers : unit.frameSize.Covers final := by
    intro id d hd
    obtain ⟨j, hj, rfl⟩ := hframed.toLaid.displacement?_eq_some_iff.mp hd
    have hlt : j < final.scope.locals.length := (List.getElem?_eq_some_iff.mp hj).1
    rw [hframed.length_eq] at hlt
    rw [hlowered.unit_eq]
    exact ⟨j, hlt, rfl⟩
  have hbody := hlowered.lowers.balanced hcovers (Nat.le_refl _)
  have hcode : unit.code = Emit.functionCode fn unit.frameSize.slots body := by
    rw [hlowered.unit_eq]
    rfl
  have hnodup := h.unit_definedSymbols_nodup hi
  rw [CompiledUnit.definedSymbols, List.nodup_append] at hnodup
  rw [h.arity?_eq, hcode]
  exact Emit.functionCode_shaped hbody (hcode ▸ hnodup.1)

end Links

end Arbor
