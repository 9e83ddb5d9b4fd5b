import Mathlib.Tactic
import Arbor.Proofs.Parallel

/-!
Runs find their symbols. An action resolves if no start makes it stop because a label
or a data symbol is missing. Closed instructions resolve in the unit they belong to,
and so does every call on an image whose instructions are closed.
-/

namespace Arbor

/-- A fault that comes from a symbol nothing defines. -/
def Fault.isDangling : Fault → Bool
  | .unknownSymbol _ => true
  | .trap _ (.unknownLabel _) => true
  | _ => false

namespace Exec

/-- The action never stops because a symbol is missing. -/
def Resolves {α : Type} (x : Exec α) : Prop :=
  ∀ s e s', x s = .error e s' → e.isDangling = false

namespace Resolves

variable {img : Image}

theorem bind {α β : Type} {x : Exec α} {f : α → Exec β} (hx : Resolves x)
    (hf : ∀ a, Resolves (f a)) : Resolves (x >>= f) := by
  intro s e s' h
  cases hxs : x s with
  | ok a s₁ =>
      rw [bind_of_ok hxs] at h
      exact hf a s₁ e s' h
  | error e₁ s₁ =>
      rw [bind_of_error hxs] at h
      cases h
      exact hx s e s' hxs

theorem pure {α : Type} (a : α) : Resolves (pure a : Exec α) := by
  intro s e s' h
  cases h

theorem trap {α : Type} {t : Trap} (ht : ∀ label, t ≠ .unknownLabel label) :
    Resolves (trap img t : Exec α) := by
  intro s e s' h
  cases h
  cases t with
  | unknownLabel label => exact absurd rfl (ht label)
  | _ => rfl

theorem get : Resolves (get : Exec MachineState) := by
  intro s e s' h
  cases h

theorem modify (f : MachineState → MachineState) : Resolves (modify f : Exec Unit) := by
  intro s e s' h
  cases h

theorem ite {α : Type} {c : Prop} [Decidable c] {x y : Exec α} (hx : Resolves x)
    (hy : Resolves y) : Resolves (if c then x else y) := by
  split
  · exact hx
  · exact hy

theorem reg (r : Reg) : Resolves (reg r) := bind get fun _ => pure _

theorem setReg (r : Reg) (v : Word) : Resolves (setReg r v) := modify _

theorem accessTrap?_ne {a : Address} {t : Trap} (h : img.accessTrap? a = some t) (label : String) :
    t ≠ .unknownLabel label := by
  rintro rfl
  unfold Image.accessTrap? at h
  split_ifs at h
  · cases h
  · cases h

theorem load (a : Address) : Resolves (load img a) := by
  intro s e s' h
  unfold Exec.load Image.load? at h
  cases htrap : img.accessTrap? a with
  | none =>
      rw [htrap] at h
      cases h
  | some t =>
      rw [htrap] at h
      exact trap (accessTrap?_ne htrap) (α := Word) s e s' h

theorem store (a : Address) (v : Word) : Resolves (store img a v) := by
  unfold Exec.store
  split
  · rename_i t htrap
    exact trap (accessTrap?_ne htrap)
  · exact modify _

theorem push (v : Word) : Resolves (push img v) :=
  bind (reg _) fun _ => bind (setReg _ _) fun _ => ite (trap (by simp)) (store _ _)

theorem pop : Resolves (pop img) :=
  bind (reg _) fun _ => bind (load _) fun _ => bind (setReg _ _) fun _ => pure _

theorem symbolAddress {symbol : String} {placement : Placement}
    (h : img.layout.find? symbol = some placement) :
    Resolves (ofExcept (img.symbolAddress symbol)) := by
  rw [Image.symbolAddress, h]
  exact pure _

theorem addressOf_global {symbol : String} {placement : Placement}
    (h : img.layout.find? symbol = some placement) (d : Word) :
    Resolves (addressOf img (.global symbol d)) := by
  simp only [Exec.addressOf, Operand.global]
  apply ite
  · exact bind (reg _) fun _ => bind (pure _) fun _ => pure _
  · exact bind (symbolAddress h) fun _ => pure _

theorem addressOf_registers {o : Operand} (hkind : o.kind = .memory) (hempty : o.symbol.isEmpty) :
    Resolves (addressOf img o) := by
  simp only [Exec.addressOf, hkind, hempty, if_true]
  exact bind (reg _) fun _ => ite (bind (pure _) fun _ => pure _) (bind (reg _) fun _ => pure _)

section Placed

variable {σ : Surroundings} {u : Nat} {o a b : Operand}

theorem addressOf (hσ : σ.Defined img u) (ho : o.Placed σ) : Resolves (addressOf img o) := by
  cases ho with
  | reg r => exact trap (by simp)
  | imm v => exact trap (by simp)
  | slot d => exact addressOf_registers rfl rfl
  | element base index d => exact addressOf_registers rfl rfl
  | global hname =>
      obtain ⟨placement, hfind⟩ := hσ.globals _ hname
      exact addressOf_global hfind 0
  | word hregion hk =>
      obtain ⟨placement, hfind⟩ := hσ.data _ hregion
      exact addressOf_global hfind _

theorem placed_kind (ho : o.Placed σ) : o.kind ≠ .symbol := by
  cases ho <;> simp [Operand.ofReg, Operand.imm, Operand.frameSlot, Operand.element, Operand.global]

theorem read (hσ : σ.Defined img u) (ho : o.Placed σ) : Resolves (Exec.read img o) := by
  unfold Exec.read
  split
  · exact reg _
  · exact pure _
  · exact bind (addressOf hσ ho) fun _ => load _
  · rename_i hkind
    exact absurd hkind (placed_kind ho)

theorem write (hσ : σ.Defined img u) (ho : o.Placed σ) (v : Word) :
    Resolves (Exec.write img o v) := by
  unfold Exec.write
  split
  · exact setReg _ _
  · exact bind (addressOf hσ ho) fun _ => store _ _
  · exact trap (by simp)
  · exact trap (by simp)

theorem combine (hσ : σ.Defined img u) (ha : a.Placed σ) (hb : b.Placed σ)
    (f : Word → Word → Word) : Resolves (combine img f a b) :=
  bind (read hσ hb) fun _ => bind (read hσ ha) fun _ => write hσ ha _

theorem divide (hσ : σ.Defined img u) (ho : o.Placed σ) : Resolves (divide img o) := by
  apply bind (read hσ ho)
  intro divisor
  apply bind (reg _)
  intro dividend
  apply bind (reg _)
  intro high
  apply ite (trap (by simp))
  apply ite (trap (by simp))
  apply ite (trap (by simp))
  exact bind (setReg _ _) fun _ => setReg _ _

end Placed

theorem unary {i : Instruction} {action : Operand → Exec Unit}
    (h : ∀ o, i.operands = [o] → Resolves (action o)) : Resolves (unary img i action) := by
  unfold Exec.unary
  split
  · rename_i o hos
    exact h o hos
  · exact trap (by simp)

theorem binary {i : Instruction} {action : Operand → Operand → Exec Unit}
    (h : ∀ a b, i.operands = [a, b] → Resolves (action a b)) : Resolves (binary img i action) := by
  unfold Exec.binary
  split
  · rename_i a b hos
    exact h a b hos
  · exact trap (by simp)

theorem call (symbol : String) : Resolves (call img symbol) := by
  unfold Exec.call
  split
  · exact trap (by simp)
  · exact bind get fun _ => bind (push _) fun _ => modify _

theorem ret : Resolves (ret img) := by
  apply bind pop
  intro target
  apply ite (pure _)
  apply ite (trap (by simp))
  exact bind (modify _) fun _ => pure _

/-- Instructions on values and words of storage. -/
theorem instruction_plain {σ : Surroundings} {u : Nat} (hσ : σ.Defined img u) {m : Mnemonic}
    {os : List Operand} {line : UInt32} (hm : m.isPlain) (hos : ∀ o ∈ os, o.Placed σ) :
    Resolves (instruction img (.make m os line)) := by
  have goOn : ∀ {x : Exec Unit}, Resolves x → Resolves (x >>= fun _ => Pure.pure false) :=
    fun hx => bind hx fun _ => pure _
  have hunary : ∀ {action : Operand → Exec Unit}, (∀ o, o.Placed σ → Resolves (action o)) →
      Resolves (Exec.unary img (.make m os line) action >>= fun _ => Pure.pure false) := by
    intro action haction
    apply goOn
    apply unary
    rintro o ⟨⟩
    exact haction o (hos o (by simp))
  have hbinary : ∀ {action : Operand → Operand → Exec Unit},
      (∀ a b, a.Placed σ → b.Placed σ → Resolves (action a b)) →
      Resolves (Exec.binary img (.make m os line) action >>= fun _ => Pure.pure false) := by
    intro action haction
    apply goOn
    apply binary
    rintro a b ⟨⟩
    exact haction a b (hos a (by simp)) (hos b (by simp))
  cases m with
  | none => exact pure _
  | jmp | jz | je | jne | jg | jl | jge | jle | call | lea => cases hm
  | ret => exact ret
  | cqo => exact bind (reg _) fun _ => goOn (setReg _ _)
  | mov => exact hbinary fun a b ha hb => bind (read hσ hb) fun _ => write hσ ha _
  | xchg =>
      exact hbinary fun a b ha hb => bind (read hσ ha) fun _ => bind (read hσ hb) fun _ =>
        bind (write hσ ha _) fun _ => write hσ hb _
  | push => exact hunary fun o ho => bind (read hσ ho) fun _ => push _
  | pop => exact hunary fun o ho => bind pop fun _ => write hσ ho _
  | add | sub | imul => exact hbinary fun a b ha hb => combine hσ ha hb _
  | idiv => exact hunary fun o ho => divide hσ ho
  | cmp =>
      exact hbinary fun a b ha hb => bind (read hσ ha) fun _ => bind (modify _) fun _ =>
        bind (read hσ hb) fun _ => modify _
  | test =>
      exact hbinary fun a b ha hb => bind (read hσ ha) fun _ => bind (read hσ hb) fun _ => modify _

end Resolves

/-- Where the label of a jump is defined, the jump goes there or is not taken. -/
theorem instruction_jump_eq_ok {img : Image} {m : Mnemonic} (hm : m.isJump) {label : String}
    {line : UInt32} {s : MachineState} {k : Nat} (h : img.target? s.unit label = some k) :
    ∃ s', instruction img (.make m [.sym label] line) s = .ok false s' := by
  by_cases hjmp : m = .jmp
  · subst hjmp
    exact ⟨_, instruction_jmp h⟩
  · have hconditional : m.isConditionalJump = true := by
      simpa [Mnemonic.isJump, hjmp] using hm
    cases hholds : conditionHolds m s.lhs s.rhs with
    | true => exact ⟨_, instruction_branch_taken hconditional hholds h⟩
    | false => exact ⟨_, instruction_branch_passed hconditional hholds⟩

/-- A closed instruction finds its symbols in the unit it belongs to. -/
theorem instruction_resolves {img : Image} {σ : Surroundings} {i : Instruction} (hi : i.Closed σ)
    {s s' : MachineState} (hσ : σ.Defined img s.unit) {e : Fault}
    (h : instruction img i s = .error e s') : e.isDangling = false := by
  cases hi with
  | label name line => cases h
  | plain hm hos _ _ => exact Resolves.instruction_plain hσ hm hos s e s' h
  | call _ => exact Resolves.bind (.call _) (fun _ => .pure _) s e s' h
  | lea hregion =>
      obtain ⟨placement, hfind⟩ := hσ.data _ hregion
      have haddress : Resolves (addressOf img (.sym _)) := Resolves.symbolAddress hfind
      exact Resolves.bind (.bind haddress fun _ => .setReg _ _) (fun _ => .pure _) s e s' h
  | jump hm hlabel =>
      obtain ⟨k, hk⟩ := hσ.labels _ hlabel
      obtain ⟨next, hnext⟩ := instruction_jump_eq_ok hm hk
      rw [hnext] at h
      cases h

/-- Every instruction of the image is closed in surroundings that the image defines. -/
def ClosedIn (img : Image) : Prop :=
  ∀ u k i, img.fetch? u k = some i → ∃ σ : Surroundings, σ.Defined img u ∧ i.Closed σ

variable {img : Image}

theorem step_resolves (himg : ClosedIn img) : Resolves (step img) := by
  intro s e s' h
  rw [step_eq] at h
  cases hfetch : img.fetch? s.unit s.ip with
  | none =>
      rw [hfetch] at h
      cases h
      rfl
  | some i =>
      rw [hfetch] at h
      dsimp only at h
      split at h
      · cases h
        rfl
      · obtain ⟨σ, hσ, hi⟩ := himg s.unit s.ip i hfetch
        exact instruction_resolves (s := s.next) hi hσ h

theorem run_resolves (himg : ClosedIn img) (budget : Nat) : Resolves (run img budget) := by
  induction budget with
  | zero => exact .bind (step_resolves himg) fun _ => .pure _
  | succ budget ih => exact .bind (step_resolves himg) fun _ => .ite (.pure _) ih

theorem pushArgs_resolves (args : List Word) : Resolves (pushArgs img args) := by
  induction args with
  | nil => exact .pure _
  | cons v rest ih => exact .bind (.push v) fun _ => ih

/-- However memory and registers are when a call begins. -/
theorem callFunction_resolves (himg : ClosedIn img) (name : String) (args : List Word) :
    Resolves (callFunction img name args) := by
  unfold callFunction
  split
  · intro s e s' h
    cases h
    rfl
  · exact .bind (.modify _) fun _ => .bind (pushArgs_resolves args) fun _ => .bind (.push _)
      fun _ => .bind (.modify _) fun _ => .bind .get fun _ => .bind (run_resolves himg _)
      fun _ => .reg _

end Exec

end Arbor
