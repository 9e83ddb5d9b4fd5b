import Mathlib.Tactic
import Arbor.Proofs.Derivation
import Arbor.Proofs.Layout

/-!
Runs of the machine, one instruction after the other. Each instruction that lowering
emits has a lemma that gives the state it leads to; the memory operands enter through
the address they name and the fact that it may be accessed. A step takes place at a
place of the code and counts; a run that stays within the step limit is a chain of
steps that ends with the return from the first activation.
-/

namespace Arbor

namespace MachineState

/-- The state in which an instruction runs: it counts, and the place is past it. -/
@[simps]
def next (s : MachineState) : MachineState := { s with steps := s.steps + 1, ip := s.ip + 1 }

@[simps]
def setReg (s : MachineState) (r : Reg) (v : Word) : MachineState :=
  { s with regs := s.regs.set r v }

@[simps]
def setWord (s : MachineState) (a : Address) (v : Word) : MachineState :=
  { s with memory := s.memory.write a v }

@[simps]
def goto (s : MachineState) (k : Nat) : MachineState := { s with ip := k }

@[simps]
def compared (s : MachineState) (x y : Word) : MachineState := { s with lhs := x, rhs := y }

@[simps]
def enter (s : MachineState) (unit ip : Nat) : MachineState := { s with unit := unit, ip := ip }

end MachineState

namespace Exec

/-- A step, by what is found at the place reached. -/
theorem step_eq (img : Image) (s : MachineState) :
    step img s =
      match img.fetch? s.unit s.ip with
      | none => .error (img.faultOf s .pastEnd) s
      | some i =>
        if img.limits.maxSteps < s.steps + 1 then
          .error (img.faultOf { s with steps := s.steps + 1 } (.stepLimit img.limits.maxSteps))
            { s with steps := s.steps + 1 }
        else instruction img i s.next := by
  simp only [step, bind, EStateM.bind, get, getThe, MonadStateOf.get, EStateM.get, Image.fetch?]
  cases img.units[s.unit]?.bind (·.code[s.ip]?) with
  | none => rfl
  | some i =>
      dsimp only
      split <;> rfl

theorem step_over_limit {img : Image} {s : MachineState} {i : Instruction}
    (hfetch : img.fetch? s.unit s.ip = some i)
    (hlimit : img.limits.maxSteps < s.steps + 1) :
    ∃ s', step img s = .error (img.faultOf s' (.stepLimit img.limits.maxSteps)) s' := by
  rw [step_eq, hfetch]
  dsimp only
  rw [if_pos hlimit]
  exact ⟨_, rfl⟩

theorem step_within_limit {img : Image} {s : MachineState} {i : Instruction}
    (hfetch : img.fetch? s.unit s.ip = some i)
    (hlimit : ¬img.limits.maxSteps < s.steps + 1) : step img s = instruction img i s.next := by
  rw [step_eq, hfetch]
  dsimp only
  rw [if_neg hlimit]

section Instructions

open Emit

variable {img : Image} {s : MachineState} {line : UInt32}

theorem load_of_accessible {a : Address} (h : img.accessTrap? a = none) :
    load img a s = .ok (s.memory.read a) s := by
  simp only [load, Image.load?, h]

theorem store_of_accessible {a : Address} {v : Word} (h : img.accessTrap? a = none) :
    store img a v s = .ok () (s.setWord a v) := by
  simp only [store, h]
  rfl

theorem addressOf_frameSlot (d : Word) :
    addressOf img (.frameSlot d) s = .ok (s.regs.rbp.toUInt64 + d.toUInt64) s := by
  have h : addressOf img (.frameSlot d) s =
      .ok (s.regs.rbp.toUInt64 + 8 * (0 : Word).toUInt64 + d.toUInt64) s := rfl
  rw [h, show 8 * (0 : Word).toUInt64 = 0 from rfl, UInt64.add_zero]

theorem addressOf_element (base : Reg) {index : Reg} (hindex : index ≠ .none) (d : Word) :
    addressOf img (.element base index d) s =
      .ok ((s.regs.get base).toUInt64 + 8 * (s.regs.get index).toUInt64 + d.toUInt64) s := by
  cases index with
  | none => exact absurd rfl hindex
  | rax | rbx | rcx | rdx | rbp | rsp => rfl

theorem addressOf_global {symbol : String} {a : Address} (hempty : symbol.isEmpty = false)
    (h : img.symbolAddress symbol = .ok a) (d : Word) :
    addressOf img (.global symbol d) s = .ok (a + d.toUInt64) s := by
  have hempty' : ¬(Operand.global symbol d).symbol.isEmpty = true := by simp [Operand.global, hempty]
  have hsymbol : img.symbolAddress (Operand.global symbol d).symbol = .ok a := h
  simp only [addressOf, if_neg hempty', hsymbol, ofExcept]
  rfl

theorem read_of_address {o : Operand} {a : Address} (hkind : o.kind = .memory)
    (haddress : addressOf img o s = .ok a s) (h : img.accessTrap? a = none) :
    Exec.read img o s = .ok (s.memory.read a) s := by
  simp only [Exec.read, hkind]
  rw [bind_of_ok haddress, load_of_accessible h]

theorem write_of_address {o : Operand} {a : Address} {v : Word} (hkind : o.kind = .memory)
    (haddress : addressOf img o s = .ok a s) (h : img.accessTrap? a = none) :
    Exec.write img o v s = .ok () (s.setWord a v) := by
  simp only [Exec.write, hkind]
  rw [bind_of_ok haddress, store_of_accessible h]

theorem instruction_labelled (name : String) :
    instruction img (.labelled name line) s = .ok false s := rfl

/-- An instruction that is no return lets the call go on. -/
theorem continue_of_ok {x : Exec Unit} {s' : MachineState} (h : x s = .ok () s') :
    (x >>= fun _ => pure false : Exec Bool) s = .ok false s' := by
  rw [bind_of_ok h]
  rfl

theorem instruction_mov {dst src : Operand} {v : Word} {s' : MachineState}
    (hread : Exec.read img src s = .ok v s) (hwrite : Exec.write img dst v s = .ok () s') :
    instruction img (mov line dst src) s = .ok false s' :=
  continue_of_ok ((bind_of_ok hread).trans hwrite)

theorem instruction_mov_reg {r : Reg} {src : Operand} {v : Word}
    (hread : Exec.read img src s = .ok v s) :
    instruction img (mov line (.ofReg r) src) s = .ok false (s.setReg r v) :=
  instruction_mov hread rfl

theorem instruction_lea {r : Reg} {symbol : String} {a : Address}
    (h : img.symbolAddress symbol = .ok a) :
    instruction img (lea line (.ofReg r) symbol) s = .ok false (s.setReg r a.toInt64) := by
  have haddress : addressOf img (.sym symbol) s = .ok a s := by
    simp only [addressOf, Operand.sym, h, ofExcept]
    rfl
  exact continue_of_ok ((bind_of_ok haddress).trans rfl)

/-- The stack grows downwards by a word. -/
theorem push_of_room {v : Word} {a : Address} (ha : (s.regs.rsp - 8).toUInt64 = a)
    (hroom : ¬a < img.stackLimit) (h : img.accessTrap? a = none) :
    Exec.push img v s = .ok () ((s.setReg .rsp (s.regs.rsp - 8)).setWord a v) := by
  subst ha
  have hreg : reg .rsp s = .ok s.regs.rsp s := rfl
  have hset : setReg .rsp (s.regs.rsp - 8) s = .ok () (s.setReg .rsp (s.regs.rsp - 8)) := rfl
  rw [Exec.push, bind_of_ok hreg, bind_of_ok hset, if_neg hroom, store_of_accessible h]

theorem instruction_push {o : Operand} {v : Word} {a : Address}
    (hread : Exec.read img o s = .ok v s) (ha : (s.regs.rsp - 8).toUInt64 = a)
    (hroom : ¬a < img.stackLimit) (h : img.accessTrap? a = none) :
    instruction img (Emit.push line o) s =
      .ok false ((s.setReg .rsp (s.regs.rsp - 8)).setWord a v) :=
  continue_of_ok ((bind_of_ok hread).trans (push_of_room ha hroom h))

theorem pop_of_accessible (h : img.accessTrap? s.regs.rsp.toUInt64 = none) :
    Exec.pop img s =
      .ok (s.memory.read s.regs.rsp.toUInt64) (s.setReg .rsp (s.regs.rsp + 8)) := by
  change (load img s.regs.rsp.toUInt64 >>= fun v =>
    setReg .rsp (s.regs.rsp + 8) >>= fun _ => pure v : Exec Word) s = _
  rw [bind_of_ok (load_of_accessible h)]
  rfl

theorem instruction_pop {r : Reg} (h : img.accessTrap? s.regs.rsp.toUInt64 = none) :
    instruction img (Emit.pop line (.ofReg r)) s =
      .ok false ((s.setReg .rsp (s.regs.rsp + 8)).setReg r
        (s.memory.read s.regs.rsp.toUInt64)) :=
  continue_of_ok ((bind_of_ok (pop_of_accessible h)).trans rfl)

theorem instruction_add {a : Reg} {src : Operand} {v : Word}
    (hread : Exec.read img src s = .ok v s) :
    instruction img (.make .add [.ofReg a, src] line) s =
      .ok false (s.setReg a (s.regs.get a + v)) :=
  continue_of_ok ((bind_of_ok hread).trans rfl)

theorem instruction_sub {a : Reg} {src : Operand} {v : Word}
    (hread : Exec.read img src s = .ok v s) :
    instruction img (.make .sub [.ofReg a, src] line) s =
      .ok false (s.setReg a (s.regs.get a - v)) :=
  continue_of_ok ((bind_of_ok hread).trans rfl)

theorem instruction_imul {a : Reg} {src : Operand} {v : Word}
    (hread : Exec.read img src s = .ok v s) :
    instruction img (.make .imul [.ofReg a, src] line) s =
      .ok false (s.setReg a (s.regs.get a * v)) :=
  continue_of_ok ((bind_of_ok hread).trans rfl)

theorem instruction_xchg (a b : Reg) :
    instruction img (.make .xchg [.ofReg a, .ofReg b] line) s =
      .ok false ((s.setReg a (s.regs.get b)).setReg b (s.regs.get a)) := rfl

theorem instruction_cqo :
    instruction img (.make .cqo [] line) s =
      .ok false (s.setReg .rdx (signWord s.regs.rax)) := rfl

theorem instruction_idiv {r : Reg} (hzero : s.regs.get r ≠ 0)
    (hwide : s.regs.rdx = signWord s.regs.rax)
    (hfits : ¬(s.regs.rax = Int64.minValue ∧ s.regs.get r = -1)) :
    instruction img (.make .idiv [.ofReg r] line) s =
      .ok false ((s.setReg .rax (s.regs.rax / s.regs.get r)).setReg .rdx
        (s.regs.rax % s.regs.get r)) := by
  have hdivide : divide img (.ofReg r) s =
      .ok () ((s.setReg .rax (s.regs.rax / s.regs.get r)).setReg .rdx
        (s.regs.rax % s.regs.get r)) := by
    change (if s.regs.get r = 0 then trap img .divisionByZero
      else if s.regs.rdx ≠ signWord s.regs.rax then trap img .dividendTooWide
      else if s.regs.rax = Int64.minValue ∧ s.regs.get r = -1 then trap img .divisionOverflow
      else do
        setReg .rax (s.regs.rax / s.regs.get r)
        setReg .rdx (s.regs.rax % s.regs.get r) : Exec Unit) s = _
    rw [if_neg hzero, if_neg (not_not.mpr hwide), if_neg hfits]
    rfl
  exact continue_of_ok hdivide

theorem instruction_cmp (a b : Reg) :
    instruction img (.make .cmp [.ofReg a, .ofReg b] line) s =
      .ok false (s.compared (s.regs.get a) (s.regs.get b)) := rfl

theorem instruction_test (a b : Reg) :
    instruction img (.make .test [.ofReg a, .ofReg b] line) s =
      .ok false (s.compared (s.regs.get a &&& s.regs.get b) 0) := rfl

theorem jump_eq (label : String) :
    Exec.jump img label s = (match img.target? s.unit label with
      | some k => set { s with ip := k }
      | none => trap img (.unknownLabel label) : Exec Unit) s := rfl

theorem jump_of_target {label : String} {k : Nat} (h : img.target? s.unit label = some k) :
    Exec.jump img label s = .ok () (s.goto k) := by
  rw [jump_eq, h]
  rfl

theorem instruction_jmp {label : String} {k : Nat} (h : img.target? s.unit label = some k) :
    instruction img (Emit.jump line .jmp label) s = .ok false (s.goto k) :=
  continue_of_ok (jump_of_target h)

theorem instruction_conditional {m : Mnemonic} (hm : m.isConditionalJump = true)
    (label : String) :
    instruction img (Emit.jump line m label) s =
      ((if conditionHolds m s.lhs s.rhs then Exec.jump img label else pure ()) >>=
        fun _ => pure false : Exec Bool) s := by
  cases m with
  | jz | je | jne | jg | jl | jge | jle =>
      simp only [instruction, Emit.jump, Instruction.make, unary, Operand.sym, bind, EStateM.bind,
        get, getThe, MonadStateOf.get, EStateM.get]
      rfl
  | none | mov | lea | xchg | push | pop | add | sub | imul | cqo | idiv | cmp | test | jmp
  | call | ret => cases hm

theorem instruction_branch_taken {m : Mnemonic} {label : String} {k : Nat}
    (hm : m.isConditionalJump = true) (hholds : conditionHolds m s.lhs s.rhs = true)
    (h : img.target? s.unit label = some k) :
    instruction img (Emit.jump line m label) s = .ok false (s.goto k) := by
  rw [instruction_conditional hm, if_pos hholds]
  exact continue_of_ok (jump_of_target h)

theorem instruction_branch_passed {m : Mnemonic} {label : String}
    (hm : m.isConditionalJump = true) (hholds : conditionHolds m s.lhs s.rhs = false) :
    instruction img (Emit.jump line m label) s = .ok false s := by
  rw [instruction_conditional hm, hholds]
  rfl

theorem instruction_call {callee : String} {unit : Nat} {a : Address}
    (hcallee : img.functions.lookup callee = some unit)
    (ha : (s.regs.rsp - 8).toUInt64 = a) (hroom : ¬a < img.stackLimit)
    (h : img.accessTrap? a = none) :
    instruction img (.make .call [.sym callee] line) s =
      .ok false (((s.setReg .rsp (s.regs.rsp - 8)).setWord a
        (returnAddress s.unit s.ip)).enter unit 0) := by
  have hcall : Exec.call img callee s = .ok () (((s.setReg .rsp (s.regs.rsp - 8)).setWord a
      (returnAddress s.unit s.ip)).enter unit 0) := by
    have hget : (get : Exec MachineState) s = .ok s s := rfl
    simp only [Exec.call, hcallee]
    rw [bind_of_ok hget, bind_of_ok (push_of_room ha hroom h)]
    rfl
  exact continue_of_ok hcall

/-- Returning from the first activation ends the call. -/
theorem instruction_ret_last (h : img.accessTrap? s.regs.rsp.toUInt64 = none)
    (hlast : s.memory.read s.regs.rsp.toUInt64 = returnSentinel) :
    instruction img (.make .ret [] line) s =
      .ok true (s.setReg .rsp (s.regs.rsp + 8)) := by
  change Exec.ret img s = _
  rw [Exec.ret, bind_of_ok (pop_of_accessible h), hlast]
  rfl

/-- The two halves of a return address. -/
theorem returnAddress_toNat {unit ip : Nat} (hunit : unit < 2 ^ 32) (hip : ip < 2 ^ 32) :
    (returnAddress unit ip).toUInt64.toNat = unit * 2 ^ 32 + ip := by
  have hshift : (UInt64.ofNat unit <<< 32).toNat = unit <<< 32 := by
    rw [UInt64.toNat_shiftLeft, UInt64.toNat_ofNat_of_lt' (by simp [UInt64.size]; omega)]
    simp only [Nat.shiftLeft_eq]
    exact Nat.mod_eq_of_lt (by simp; omega)
  rw [returnAddress, UInt64.toUInt64_toInt64, UInt64.toNat_or, hshift,
    UInt64.toNat_ofNat_of_lt' (by simp [UInt64.size]; omega), ← Nat.shiftLeft_add_eq_or_of_lt hip, Nat.shiftLeft_eq]

theorem instruction_ret {unit ip : Nat} (h : img.accessTrap? s.regs.rsp.toUInt64 = none)
    (htarget : s.memory.read s.regs.rsp.toUInt64 = returnAddress unit ip)
    (hunit : unit < img.units.size) (hunits : img.units.size < 2 ^ 32) (hip : ip < 2 ^ 32) :
    instruction img (.make .ret [] line) s =
      .ok false ((s.setReg .rsp (s.regs.rsp + 8)).enter unit ip) := by
  have hnat := returnAddress_toNat (hunit.trans hunits) hip
  have hother : returnAddress unit ip ≠ returnSentinel := by
    intro heq
    rw [heq] at hnat
    have hones : returnSentinel.toUInt64.toNat = 2 ^ 64 - 1 := rfl
    omega
  have hupper : ((returnAddress unit ip).toUInt64 >>> 32).toNat = unit := by
    rw [UInt64.toNat_shiftRight, hnat, show (32 : UInt64).toNat % 64 = 32 from rfl,
      Nat.shiftRight_eq_div_pow]
    omega
  have hlower : ((returnAddress unit ip).toUInt64 &&& 0xffffffff).toNat = ip := by
    rw [UInt64.toNat_and, hnat, show (0xffffffff : UInt64).toNat = 2 ^ 32 - 1 from rfl,
      Nat.and_two_pow_sub_one_eq_mod]
    omega
  change Exec.ret img s = _
  rw [Exec.ret, bind_of_ok (pop_of_accessible h), htarget, if_neg hother]
  simp only [hupper, hlower, if_neg (not_le.mpr hunit)]
  rfl

end Instructions

/-- The state that a computation ends in, whether it traps or not. -/
def outcome {α : Type} : EStateM.Result Fault MachineState α → MachineState
  | .ok _ s => s
  | .error _ s => s

/-- Wherever the computation starts and whatever comes of it, it ends in a related state. -/
def Leads {α : Type} (R : MachineState → MachineState → Prop) (x : Exec α) : Prop :=
  ∀ s, R s (outcome (x s))

theorem Leads.bind {α β : Type} {R : MachineState → MachineState → Prop}
    (hR : ∀ s t u, R s t → R t u → R s u) {x : Exec α} {f : α → Exec β} (hx : Leads R x)
    (hf : ∀ a, Leads R (f a)) : Leads R (x >>= f) := by
  intro s
  have hs := hx s
  cases hxs : x s with
  | ok a s₁ =>
      rw [hxs] at hs
      rw [bind_of_ok hxs]
      exact hR s s₁ _ hs (hf a s₁)
  | error e s₁ =>
      rw [hxs] at hs
      rw [bind_of_error hxs]
      exact hs

end Exec

/-- The one memory comes from the other by writes to words that may be accessed. -/
def Image.Rewrites (img : Image) : Memory → Memory → Prop :=
  Relation.ReflTransGen fun m m' => ∃ a v, img.accessTrap? a = none ∧ m' = m.write a v

/-- What the parts of an instruction do to a state: they write words that may be accessed, and
count no step. -/
structure Image.Affects (img : Image) (s s' : MachineState) : Prop where
  steps : s'.steps = s.steps
  memory : img.Rewrites s.memory s'.memory

namespace Exec

/-- Even if it traps, the computation has done no more than that. -/
abbrev Confined (img : Image) {α : Type} (x : Exec α) : Prop := Leads img.Affects x

namespace Confined

variable {img : Image}

theorem bind {α β : Type} {x : Exec α} {f : α → Exec β} (hx : Confined img x)
    (hf : ∀ a, Confined img (f a)) : Confined img (x >>= f) :=
  Leads.bind (fun _ _ _ h h' => ⟨h'.steps.trans h.steps, h.memory.trans h'.memory⟩) hx hf

/-- A computation after which memory and step count are what they were. -/
theorem of_same {α : Type} {x : Exec α}
    (h : ∀ s, (outcome (x s)).memory = s.memory ∧ (outcome (x s)).steps = s.steps) :
    Confined img x := by
  intro s
  refine ⟨(h s).2, ?_⟩
  rw [(h s).1]
  exact .refl

theorem pure {α : Type} (a : α) : Confined img (pure a : Exec α) := of_same fun _ => ⟨rfl, rfl⟩

theorem trap {α : Type} (t : Trap) : Confined img (Exec.trap img t : Exec α) :=
  of_same fun _ => ⟨rfl, rfl⟩

theorem ofExcept {α : Type} (x : Except Fault α) : Confined img (Exec.ofExcept x) := by
  cases x with
  | ok v => exact pure v
  | error e => exact of_same fun _ => ⟨rfl, rfl⟩

theorem get : Confined img (get : Exec MachineState) := of_same fun _ => ⟨rfl, rfl⟩

theorem modify {f : MachineState → MachineState}
    (hf : ∀ s, (f s).memory = s.memory ∧ (f s).steps = s.steps) :
    Confined img (modify f : Exec Unit) := of_same hf

theorem ite {α : Type} {c : Prop} [Decidable c] {x y : Exec α} (hx : Confined img x)
    (hy : Confined img y) : Confined img (if c then x else y) := by
  split
  · exact hx
  · exact hy

theorem reg (r : Reg) : Confined img (reg r) := bind get fun _ => pure _

theorem setReg (r : Reg) (v : Word) : Confined img (setReg r v) := modify fun _ => ⟨rfl, rfl⟩

theorem load (a : Address) : Confined img (load img a) := by
  apply of_same
  intro s
  unfold Exec.load
  cases img.load? s a with
  | ok v => exact ⟨rfl, rfl⟩
  | error e => exact ⟨rfl, rfl⟩

theorem store (a : Address) (v : Word) : Confined img (store img a v) := by
  unfold Exec.store
  split
  · exact trap _
  · rename_i haccess
    intro s
    exact ⟨rfl, .single ⟨a, v, haccess, rfl⟩⟩

theorem push (v : Word) : Confined img (push img v) :=
  bind (reg _) fun _ => bind (setReg _ _) fun _ => ite (trap _) (store _ _)

theorem pop : Confined img (pop img) :=
  bind (reg _) fun _ => bind (load _) fun _ => bind (setReg _ _) fun _ => pure _

theorem addressOf (o : Operand) : Confined img (addressOf img o) := by
  unfold Exec.addressOf
  split
  · refine ite (bind (reg _) fun _ => ?_) (bind (ofExcept _) fun _ => pure _)
    split
    · exact bind (pure _) fun _ => pure _
    · exact bind (reg _) fun _ => pure _
  · exact ofExcept _
  · exact trap _
  · exact trap _

theorem read (o : Operand) : Confined img (Exec.read img o) := by
  unfold Exec.read
  split
  · exact reg _
  · exact pure _
  · exact bind (addressOf _) fun _ => load _
  · exact bind (ofExcept _) fun _ => pure _

theorem write (o : Operand) (v : Word) : Confined img (Exec.write img o v) := by
  unfold Exec.write
  split
  · exact setReg _ _
  · exact bind (addressOf _) fun _ => store _ _
  · exact trap _
  · exact trap _

theorem unary {i : Instruction} {action : Operand → Exec Unit}
    (h : ∀ o, Confined img (action o)) : Confined img (unary img i action) := by
  unfold Exec.unary
  split
  · exact h _
  · exact trap _

theorem binary {i : Instruction} {action : Operand → Operand → Exec Unit}
    (h : ∀ a b, Confined img (action a b)) : Confined img (binary img i action) := by
  unfold Exec.binary
  split
  · exact h _ _
  · exact trap _

theorem jump (label : String) : Confined img (jump img label) := by
  apply of_same
  intro s
  rw [jump_eq]
  cases img.target? s.unit label with
  | none => exact ⟨rfl, rfl⟩
  | some k => exact ⟨rfl, rfl⟩

theorem call (symbol : String) : Confined img (call img symbol) := by
  unfold Exec.call
  split
  · exact trap _
  · exact bind get fun _ => bind (push _) fun _ => modify fun _ => ⟨rfl, rfl⟩

theorem ret : Confined img (ret img) :=
  bind pop fun _ => ite (pure _) (ite (trap _) (bind (modify fun _ => ⟨rfl, rfl⟩) fun _ => pure _))

theorem divide (o : Operand) : Confined img (divide img o) :=
  bind (read _) fun _ => bind (reg _) fun _ => bind (reg _) fun _ =>
    ite (trap _) (ite (trap _) (ite (trap _) (bind (setReg _ _) fun _ => setReg _ _)))

theorem combine (f : Word → Word → Word) (a b : Operand) : Confined img (combine img f a b) :=
  bind (read _) fun _ => bind (read _) fun _ => write _ _

theorem pushArgs (args : List Word) : Confined img (pushArgs img args) := by
  induction args with
  | nil => exact pure ()
  | cons v rest ih => exact bind (push v) fun _ => ih

end Confined

theorem instruction_confined (img : Image) (i : Instruction) :
    Confined img (instruction img i) := by
  obtain ⟨m, operands, label, line⟩ := i
  have goOn : ∀ {x : Exec Unit}, Confined img x → Confined img (x >>= fun _ => pure false) :=
    fun hx => .bind hx fun _ => .pure _
  cases m with
  | none => exact .pure _
  | mov => exact goOn (.binary fun _ _ => .bind (.read _) fun _ => .write _ _)
  | lea => exact goOn (.binary fun _ _ => .bind (.addressOf _) fun _ => .write _ _)
  | xchg =>
      exact goOn (.binary fun _ _ => .bind (.read _) fun _ => .bind (.read _) fun _ =>
        .bind (.write _ _) fun _ => .write _ _)
  | push => exact goOn (.unary fun _ => .bind (.read _) fun _ => .push _)
  | pop => exact goOn (.unary fun _ => .bind .pop fun _ => .write _ _)
  | add | sub | imul => exact goOn (.binary (.combine _))
  | cqo => exact .bind (.reg _) fun _ => goOn (.setReg _ _)
  | idiv => exact goOn (.unary .divide)
  | cmp =>
      exact goOn (.binary fun _ _ => .bind (.read _) fun _ => .bind (.modify fun _ => ⟨rfl, rfl⟩)
        fun _ => .bind (.read _) fun _ => .modify fun _ => ⟨rfl, rfl⟩)
  | test =>
      exact goOn (.binary fun _ _ => .bind (.read _) fun _ => .bind (.read _) fun _ =>
        .modify fun _ => ⟨rfl, rfl⟩)
  | jmp => exact goOn (.unary fun _ => .jump _)
  | jz | je | jne | jg | jl | jge | jle =>
      exact goOn (.unary fun _ => .bind .get fun _ => .ite (.jump _) (.pure _))
  | call => exact goOn (.unary fun _ => .call _)
  | ret => exact .ret

/-- The step count moves in `step` only. -/
def KeepsSteps {α : Type} (x : Exec α) : Prop :=
  ∀ s a s', x s = .ok a s' → s'.steps = s.steps

theorem Confined.keepsSteps {img : Image} {α : Type} {x : Exec α} (h : Confined img x) :
    KeepsSteps x := by
  intro s a s' hx
  have hs := h s
  rw [hx] at hs
  exact hs.steps

theorem instruction_keepsSteps (img : Image) (i : Instruction) : KeepsSteps (instruction img i) :=
  (instruction_confined img i).keepsSteps

end Exec

/-- One step at a place of the code that does not end the call, whatever the step limit. -/
def Image.Steps (img : Image) (s s' : MachineState) : Prop :=
  ∃ i, img.fetch? s.unit s.ip = some i ∧ Exec.instruction img i s.next = .ok false s'

theorem Image.Steps.steps_eq {img : Image} {s s' : MachineState} (h : img.Steps s s') :
    s'.steps = s.steps + 1 := by
  obtain ⟨i, -, hi⟩ := h
  exact Exec.instruction_keepsSteps img i _ _ _ hi

open Relation

theorem Image.steps_le_of_reaches {img : Image} {s s' : MachineState}
    (h : ReflTransGen img.Steps s s') : s.steps ≤ s'.steps := by
  induction h with
  | refl => exact le_refl _
  | tail _ hstep ih => exact ih.trans (by rw [hstep.steps_eq]; omega)

namespace Exec

theorem step_of_steps {img : Image} {s s' : MachineState} (h : img.Steps s s')
    (hlimit : s'.steps ≤ img.limits.maxSteps) : step img s = .ok false s' := by
  obtain ⟨i, hfetch, hi⟩ := h
  have hsteps : s'.steps = s.steps + 1 := instruction_keepsSteps img i _ _ _ hi
  rw [step_within_limit hfetch (by omega), hi]

/-- A chain of steps that ends with the return from the first activation is a run. -/
theorem run_of_reaches {img : Image} {s s' s'' : MachineState} {i : Instruction}
    (h : ReflTransGen img.Steps s s') (hfetch : img.fetch? s'.unit s'.ip = some i)
    (hlast : instruction img i s'.next = .ok true s'')
    (hlimit : s''.steps ≤ img.limits.maxSteps) :
    run img (img.limits.maxSteps - s.steps) s = .ok () s'' := by
  have hsteps : s''.steps = s'.steps + 1 := instruction_keepsSteps img i _ _ _ hlast
  induction h using ReflTransGen.head_induction_on with
  | refl =>
      obtain ⟨budget, hbudget⟩ : ∃ budget, img.limits.maxSteps - s'.steps = budget + 1 :=
        ⟨img.limits.maxSteps - s'.steps - 1, by omega⟩
      have hstep : step img s' = .ok true s'' := by
        rw [step_within_limit hfetch (by omega), hlast]
      rw [hbudget, run, bind_of_ok hstep]
      rfl
  | head hstep hreach ih =>
      rename_i s₀ s₁
      have hle := Image.steps_le_of_reaches hreach
      have hone := hstep.steps_eq
      obtain ⟨budget, hbudget⟩ : ∃ budget, img.limits.maxSteps - s₀.steps = budget + 1 :=
        ⟨img.limits.maxSteps - s₀.steps - 1, by omega⟩
      have hrest : budget = img.limits.maxSteps - s₁.steps := by omega
      rw [hbudget, run, bind_of_ok (step_of_steps hstep (by omega)), hrest]
      exact ih

/-- A call pushes the arguments and the sentinel, runs, and answers `rax`. -/
theorem callFunction_of_run {img : Image} {name : String} {args : List Word} {u : Nat}
    {s s₁ s₂ s' : MachineState} (hlookup : img.functions.lookup name = some u)
    (hargs : pushArgs img args { s with regs := { rsp := Image.stackTop.toInt64 } } = .ok () s₁)
    (hpush : Exec.push img returnSentinel s₁ = .ok () s₂)
    (hrun : run img (img.limits.maxSteps - s₂.steps) { s₂ with unit := u, ip := 0 } = .ok () s') :
    callFunction img name args s = .ok s'.regs.rax s' := by
  have hregs : (modify fun s => { s with regs := { rsp := Image.stackTop.toInt64 } } : Exec Unit) s =
      .ok () { s with regs := { rsp := Image.stackTop.toInt64 } } := rfl
  have henter : (modify fun s => { s with unit := u, ip := 0 } : Exec Unit) s₂ =
      .ok () { s₂ with unit := u, ip := 0 } := rfl
  have hget : (get : Exec MachineState) { s₂ with unit := u, ip := 0 } =
      .ok { s₂ with unit := u, ip := 0 } { s₂ with unit := u, ip := 0 } := rfl
  rw [callFunction, hlookup]
  dsimp only
  rw [bind_of_ok hregs, bind_of_ok hargs, bind_of_ok hpush, bind_of_ok henter, bind_of_ok hget,
    bind_of_ok hrun]
  rfl

end Exec

end Arbor
