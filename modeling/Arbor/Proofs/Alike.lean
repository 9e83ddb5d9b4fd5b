import Mathlib.Tactic
import Arbor.Proofs.Inversion

/-!
One instruction on two machines. The machines have the same layout and limits, and their
states hold the same registers, compared words and memory, but may be at different places
of different code. Whatever the operands are, the instruction traps on both or on neither,
and if it does not, then the states still hold the same.
-/

namespace Arbor

/-- The images place data and stack alike. Their code may differ. -/
structure Image.SharesLayout (img img' : Image) : Prop where
  layout : img'.layout = img.layout
  limits : img'.limits = img.limits

namespace Image.SharesLayout

variable {img img' : Image}

theorem symbolAddress (h : img.SharesLayout img') (symbol : String) :
    img'.symbolAddress symbol = img.symbolAddress symbol := by
  rw [Image.symbolAddress, Image.symbolAddress, h.layout]

theorem stackLimit (h : img.SharesLayout img') : img'.stackLimit = img.stackLimit := by
  rw [Image.stackLimit, Image.stackLimit, h.limits]

theorem accessTrap? (h : img.SharesLayout img') (a : Address) :
    img'.accessTrap? a = img.accessTrap? a := by
  rw [Image.accessTrap?, Image.accessTrap?, Image.isData, Image.isData, Image.isStack,
    Image.isStack, h.layout, h.stackLimit]

end Image.SharesLayout

/-- The states hold the same, at places of one unit that the relation admits. -/
structure MachineState.Same (u : Nat) (places : Nat → Nat → Prop) (s t : MachineState) : Prop where
  regs : t.regs = s.regs
  lhs : t.lhs = s.lhs
  rhs : t.rhs = s.rhs
  memory : ∀ a, t.memory.read a = s.memory.read a
  unit : s.unit = u
  unit' : t.unit = u
  ip : places s.ip t.ip

namespace Exec

/-- From states that are related, both computations trap or both give the same answer and
states that are related again. -/
def Alike {α : Type} (R : MachineState → MachineState → Prop) (x y : Exec α) : Prop :=
  ∀ s t, R s t → (∃ a s' t', x s = .ok a s' ∧ y t = .ok a t' ∧ R s' t') ∨
    ∃ e s' e' t', x s = .error e s' ∧ y t = .error e' t'

theorem jump_of_no_target {img : Image} {label : String} {s : MachineState}
    (h : img.target? s.unit label = none) :
    jump img label s = .error (img.faultOf s (.unknownLabel label)) s := by
  rw [jump_eq, h]
  rfl

namespace Alike

variable {α β : Type} {R : MachineState → MachineState → Prop} {img img' : Image}
  {u : Nat} {places : Nat → Nat → Prop}

theorem pure (a : α) : Alike R (Pure.pure a) (Pure.pure a) :=
  fun s t h => .inl ⟨a, s, t, rfl, rfl, h⟩

theorem bind {x y : Exec α} {f g : α → Exec β} (hx : Alike R x y) (hf : ∀ a, Alike R (f a) (g a)) :
    Alike R (x >>= f) (y >>= g) := by
  intro s t h
  rcases hx s t h with ⟨a, s', t', hs, ht, h'⟩ | ⟨e, s', e', t', hs, ht⟩
  · rw [bind_of_ok hs, bind_of_ok ht]
    exact hf a s' t' h'
  · exact .inr ⟨e, s', e', t', bind_of_error hs, bind_of_error ht⟩

theorem trap (cause cause' : Trap) :
    Alike R (Exec.trap img cause : Exec α) (Exec.trap img' cause') :=
  fun s t _ => .inr ⟨_, s, _, t, rfl, rfl⟩

theorem ofExcept (x : Except Fault α) : Alike R (Exec.ofExcept x) (Exec.ofExcept x) := by
  cases x with
  | ok a => exact pure a
  | error e => exact fun s t _ => .inr ⟨e, s, e, t, rfl, rfl⟩

theorem modify {f g : MachineState → MachineState} (h : ∀ s t, R s t → R (f s) (g t)) :
    Alike R (modify f : Exec Unit) (modify g) :=
  fun s t hst => .inl ⟨(), f s, g t, rfl, rfl, h s t hst⟩

theorem ite {c : Prop} [Decidable c] {x x' y y' : Exec α} (hx : Alike R x x')
    (hy : Alike R y y') : Alike R (if c then x else y) (if c then x' else y') := by
  split
  · exact hx
  · exact hy

theorem reg (r : Reg) : Alike (MachineState.Same u places) (reg r) (reg r) :=
  fun s t h => .inl ⟨s.regs.get r, s, t, rfl, by rw [← h.regs]; rfl, h⟩

theorem setReg (r : Reg) (v : Word) : Alike (MachineState.Same u places) (setReg r v) (setReg r v) :=
  modify fun _ _ h => { h with regs := by rw [h.regs] }

theorem load (himg : img.SharesLayout img') (a : Address) :
    Alike (MachineState.Same u places) (load img a) (load img' a) := by
  intro s t h
  cases htrap : img.accessTrap? a with
  | none =>
      refine .inl ⟨_, s, t, load_of_accessible htrap, ?_, h⟩
      rw [load_of_accessible ((himg.accessTrap? a).trans htrap), h.memory]
  | some cause =>
      refine .inr ⟨img.faultOf s cause, s, img'.faultOf t cause, t, ?_, ?_⟩
      · simp only [Exec.load, Image.load?, htrap]
      · simp only [Exec.load, Image.load?, himg.accessTrap?, htrap]

theorem store (himg : img.SharesLayout img') (a : Address) (v : Word) :
    Alike (MachineState.Same u places) (store img a v) (store img' a v) := by
  unfold Exec.store
  rw [himg.accessTrap?]
  split
  · exact trap _ _
  · refine modify fun s t h => { h with memory := fun b => ?_ }
    rw [Memory.read_write, Memory.read_write, h.memory]

theorem push (himg : img.SharesLayout img') (v : Word) :
    Alike (MachineState.Same u places) (push img v) (push img' v) := by
  unfold Exec.push
  rw [himg.stackLimit]
  exact bind (reg _) fun _ => bind (setReg _ _) fun _ => ite (trap _ _) (store himg _ _)

theorem pop (himg : img.SharesLayout img') : Alike (MachineState.Same u places) (pop img) (pop img') :=
  bind (reg _) fun _ => bind (load himg _) fun _ => bind (setReg _ _) fun _ => pure _

theorem addressOf (himg : img.SharesLayout img') (o : Operand) :
    Alike (MachineState.Same u places) (addressOf img o) (addressOf img' o) := by
  unfold Exec.addressOf
  rw [himg.symbolAddress]
  cases o.kind with
  | memory =>
      refine ite (bind (reg _) fun _ => ?_) (bind (ofExcept _) fun _ => pure _)
      split
      · exact bind (pure _) fun _ => pure _
      · exact bind (reg _) fun _ => pure _
  | symbol => exact ofExcept _
  | register | immediate => exact trap _ _

theorem read (himg : img.SharesLayout img') (o : Operand) :
    Alike (MachineState.Same u places) (Exec.read img o) (Exec.read img' o) := by
  unfold Exec.read
  rw [himg.symbolAddress]
  cases o.kind with
  | register => exact reg _
  | immediate => exact pure _
  | memory => exact bind (addressOf himg _) fun _ => load himg _
  | symbol => exact bind (ofExcept _) fun _ => pure _

theorem write (himg : img.SharesLayout img') (o : Operand) (v : Word) :
    Alike (MachineState.Same u places) (Exec.write img o v) (Exec.write img' o v) := by
  unfold Exec.write
  cases o.kind with
  | register => exact setReg _ _
  | memory => exact bind (addressOf himg _) fun _ => store himg _ _
  | immediate | symbol => exact trap _ _

theorem unary {i : Instruction} {action action' : Operand → Exec Unit}
    (h : ∀ o, Alike R (action o) (action' o)) : Alike R (unary img i action) (unary img' i action') := by
  unfold Exec.unary
  split
  · exact h _
  · exact trap _ _

theorem binary {i : Instruction} {action action' : Operand → Operand → Exec Unit}
    (h : ∀ a b, Alike R (action a b) (action' a b)) :
    Alike R (binary img i action) (binary img' i action') := by
  unfold Exec.binary
  split
  · exact h _ _
  · exact trap _ _

theorem combine (himg : img.SharesLayout img') (f : Word → Word → Word) (a b : Operand) :
    Alike (MachineState.Same u places) (combine img f a b) (combine img' f a b) :=
  bind (read himg _) fun _ => bind (read himg _) fun _ => write himg _ _

theorem divide (himg : img.SharesLayout img') (o : Operand) :
    Alike (MachineState.Same u places) (divide img o) (divide img' o) :=
  bind (read himg _) fun _ => bind (reg _) fun _ => bind (reg _) fun _ =>
    ite (trap _ _) (ite (trap _ _) (ite (trap _ _) (bind (setReg _ _) fun _ => setReg _ _)))

theorem exchange (himg : img.SharesLayout img') (a b : Operand) :
    Alike (MachineState.Same u places) (exchange img a b) (exchange img' a b) :=
  bind (read himg _) fun _ => bind (read himg _) fun _ => bind (write himg _ _) fun _ =>
    write himg _ _

theorem compareWords (himg : img.SharesLayout img') (a b : Operand) :
    Alike (MachineState.Same u places) (compareWords img a b) (compareWords img' a b) :=
  bind (read himg _) fun _ => bind (modify fun _ _ h => { h with lhs := rfl }) fun _ =>
    bind (read himg _) fun _ => modify fun _ _ h => { h with rhs := rfl }

theorem testWords (himg : img.SharesLayout img') (a b : Operand) :
    Alike (MachineState.Same u places) (testWords img a b) (testWords img' a b) :=
  bind (read himg _) fun _ => bind (read himg _) fun _ =>
    modify fun _ _ h => { h with lhs := rfl, rhs := rfl }

/-- A jump goes to places that the relation admits, if the label is at such places. -/
theorem jump {label : String}
    (htarget : (∃ k k', img.target? u label = some k ∧ img'.target? u label = some k' ∧
        places k k') ∨ (img.target? u label = none ∧ img'.target? u label = none)) :
    Alike (MachineState.Same u places) (jump img label) (jump img' label) := by
  intro s t h
  rcases htarget with ⟨k, k', hk, hk', hplaces⟩ | ⟨hnone, hnone'⟩
  · rw [← h.unit] at hk
    rw [← h.unit'] at hk'
    exact .inl ⟨(), s.goto k, t.goto k', jump_of_target hk, jump_of_target hk', { h with ip := hplaces }⟩
  · rw [← h.unit] at hnone
    rw [← h.unit'] at hnone'
    exact .inr ⟨_, s, _, t, jump_of_no_target hnone, jump_of_no_target hnone'⟩

/-- A branch is taken on both machines or on neither. -/
theorem branch (m : Mnemonic) {label : String}
    (hjump : Alike (MachineState.Same u places) (Exec.jump img label) (Exec.jump img' label)) :
    Alike (MachineState.Same u places)
      (do let s ← get; if conditionHolds m s.lhs s.rhs then Exec.jump img label)
      (do let s ← get; if conditionHolds m s.lhs s.rhs then Exec.jump img' label) := by
  intro s t h
  have hget : ∀ s : MachineState, (get : Exec MachineState) s = .ok s s := fun _ => rfl
  rw [bind_of_ok (hget s), bind_of_ok (hget t), h.lhs, h.rhs]
  exact ite hjump (pure ()) s t h

end Alike

open Alike in
/-- An instruction that stays in its unit does the same on both machines. -/
theorem instruction_alike {img img' : Image} (himg : img.SharesLayout img') {u : Nat}
    {places : Nat → Nat → Prop}
    (htarget : ∀ label, (∃ k k', img.target? u label = some k ∧ img'.target? u label = some k' ∧
        places k k') ∨ (img.target? u label = none ∧ img'.target? u label = none))
    {i : Instruction} (hcall : i.mnemonic ≠ .call) (hret : i.mnemonic ≠ .ret) :
    Alike (MachineState.Same u places) (instruction img i) (instruction img' i) := by
  obtain ⟨m, operands, label, line⟩ := i
  have goOn : ∀ {x y : Exec Unit}, Alike (MachineState.Same u places) x y →
      Alike (MachineState.Same u places) (x >>= fun _ => Pure.pure false)
        (y >>= fun _ => Pure.pure false) := fun hx => bind hx fun _ => Alike.pure _
  cases m with
  | none => exact Alike.pure _
  | mov => exact goOn (.binary fun _ _ => .bind (.read himg _) fun _ => .write himg _ _)
  | lea => exact goOn (.binary fun _ _ => .bind (.addressOf himg _) fun _ => .write himg _ _)
  | xchg => exact goOn (.binary (.exchange himg))
  | push => exact goOn (.unary fun _ => .bind (.read himg _) fun _ => .push himg _)
  | pop => exact goOn (.unary fun _ => .bind (.pop himg) fun _ => .write himg _ _)
  | add | sub | imul => exact goOn (.binary (.combine himg _))
  | cqo => exact .bind (.reg _) fun _ => goOn (.setReg _ _)
  | idiv => exact goOn (.unary (.divide himg))
  | cmp => exact goOn (.binary (.compareWords himg))
  | test => exact goOn (.binary (.testWords himg))
  | jmp => exact goOn (.unary fun _ => .jump (htarget _))
  | jz | je | jne | jg | jl | jge | jle =>
      exact goOn (.unary fun _ => .branch _ (.jump (htarget _)))
  | call => exact absurd rfl hcall
  | ret => exact absurd rfl hret

end Exec

end Arbor
