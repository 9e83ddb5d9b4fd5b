import Mathlib.Tactic
import Arbor.Proofs.CallFree.Desk

/-!
The fragments that the code of an expression is put together from. Code evaluates a reckoning
if from every poised machine it does what the outcome asks for and leaves the value in `rax`.
Operators find their operands in `rbx` and `rax`, and the elements of a literal wait on the
stack. One lemma for each way to put code together says what the whole evaluates.
-/

namespace Arbor

open Exec Emit

/-- A division without quotient traps. -/
theorem Exec.instruction_idiv_error {img : Image} {s : MachineState} {r : Reg} {line : UInt32}
    (h : s.regs.get r = 0 ∨ s.regs.rax = Int64.minValue ∧ s.regs.get r = -1) :
    ∃ e s', instruction img (.make .idiv [.ofReg r] line) s = .error e s' := by
  have hdivide : ∃ e s', divide img (.ofReg r) s = .error e s' := by
    change ∃ e s', (if s.regs.get r = 0 then trap img .divisionByZero
      else if s.regs.rdx ≠ signWord s.regs.rax then trap img .dividendTooWide
      else if s.regs.rax = Int64.minValue ∧ s.regs.get r = -1 then trap img .divisionOverflow
      else do
        setReg .rax (s.regs.rax / s.regs.get r)
        setReg .rdx (s.regs.rax % s.regs.get r) : Exec Unit) s = .error e s'
    split
    · exact ⟨_, _, rfl⟩
    · rename_i hzero
      split
      · exact ⟨_, _, rfl⟩
      · rw [if_pos (h.resolve_left hzero)]
        exact ⟨_, _, rfl⟩
  obtain ⟨e, s', hdivide⟩ := hdivide
  exact ⟨e, s', bind_of_error hdivide⟩

/-- A load from where there is no word traps. -/
theorem Exec.instruction_load_error {img : Image} {s : MachineState} {dst src : Operand}
    {line : UInt32} {a : Address} {cause : Trap} (hkind : src.kind = .memory)
    (haddress : addressOf img src s = .ok a s) (h : img.accessTrap? a = some cause) :
    ∃ e s', instruction img (mov line dst src) s = .error e s' := by
  have hread : Exec.read img src s = .error (img.faultOf s cause) s := by
    simp only [Exec.read, hkind]
    rw [bind_of_ok haddress]
    simp only [load, Image.load?, h]
  have hmov : (Exec.read img src >>= fun v => Exec.write img dst v) s =
      .error (img.faultOf s cause) s := bind_of_error hread
  exact ⟨_, _, bind_of_error hmov⟩

namespace Desk

variable {D : Desk} {pos height k k₁ k₂ : Nat} {w : Slate} {s s₁ s₂ s₃ : MachineState}
  {i : Instruction} {code rest : Code} {line : UInt32} {v : Word}

/-- A value has come to `rax`. The code of a leaf leaves `rbx` alone. -/
structure Valued (D : Desk) (pos height k : Nat) (leaf : Bool) (s : MachineState) (v : Word)
    (w : Slate) (s' : MachineState) : Prop where
  poised : D.Poised pos height w s'
  literals : w.literals = k
  value : s'.regs.rax = v
  spares : D.Spares height s s'
  rbx : leaf = true → s'.regs.rbx = s.regs.rbx

/-- Code that evaluates a reckoning. `k` and `k'` count the literals before and after it. -/
def Evaluates (D : Desk) (x : Reckoning Word) (depth : Nat) (leaf : Bool) (k k' : Nat)
    (code : Code) : Prop :=
  ∀ ⦃pos height : Nat⦄ ⦃w : Slate⦄ ⦃s : MachineState⦄, D.Bears pos code →
    D.Poised pos height w s → w.literals = k → height + depth ≤ D.setting.stackWords →
    (x w).Met D.image D.bound (D.Valued (pos + code.length) height k' leaf s) s

/-- Code that combines two operands. -/
def Applies (D : Desk) (f : Word → Word → Reckoning Word) (code : Code) : Prop :=
  ∀ ⦃pos height : Nat⦄ ⦃w : Slate⦄ ⦃s : MachineState⦄, D.Bears pos code →
    D.Poised pos height w s → (f s.regs.rbx s.regs.rax w).Met D.image D.bound
      (D.Valued (pos + code.length) height w.literals false s) s

/-- A load into `rax`. -/
theorem Poised.load {o : Operand} (h : D.Poised pos height w s)
    (hcode : D.Bears pos (mov line rax o :: rest))
    (hread : Exec.read D.image o s.next = .ok v s.next) :
    ∃ s₁, D.image.Advances D.bound s s₁ ∧ D.Poised (pos + 1) height w s₁ ∧ s₁.memory = s.memory ∧
      s₁.regs.rax = v ∧ s₁.regs.rbx = s.regs.rbx :=
  ⟨_, h.proceed hcode (instruction_mov_reg hread) rfl, h.of_same rfl h.next_ip rfl rfl rfl,
    rfl, rfl, rfl⟩

section Operators

/-- A division whose operands have been exchanged. -/
theorem divide_comes {post : MachineState → Prop} {fault : Prop} (h : D.Poised pos height w s)
    (hcode : D.Bears pos (.make .xchg [rax, rbx] line :: .make .cqo [] line ::
      .make .idiv [rbx] line :: rest))
    (hfault : (s.regs.rax = 0 ∨ s.regs.rbx = Int64.minValue ∧ s.regs.rax = -1) → fault)
    (hnext : ∀ s', ¬(s.regs.rax = 0 ∨ s.regs.rbx = Int64.minValue ∧ s.regs.rax = -1) →
      D.Poised (pos + 3) height w s' → s'.regs.rax = s.regs.rbx / s.regs.rax →
      s'.regs.rdx = s.regs.rbx % s.regs.rax → s'.memory = s.memory →
      D.image.Comes D.bound post fault s') :
    D.image.Comes D.bound post fault s := by
  obtain ⟨s₁, hstep₁, h₁, hmem₁, hregs₁⟩ := h.setRegs hcode (instruction_xchg .rax .rbx) rfl rfl
  obtain ⟨s₂, hstep₂, h₂, hmem₂, hregs₂⟩ := h₁.setRegs hcode.tail instruction_cqo rfl rfl
  have hrax : s₂.next.regs.rax = s.regs.rbx := by
    rw [MachineState.next_regs, hregs₂, MachineState.next_regs, hregs₁]
    rfl
  have hrbx : s₂.next.regs.get .rbx = s.regs.rax := by
    rw [MachineState.next_regs, hregs₂, MachineState.next_regs, hregs₁]
    rfl
  have hrdx : s₂.next.regs.rdx = signWord s₂.next.regs.rax := by
    rw [MachineState.next_regs, hregs₂]
    rfl
  refine .step hstep₁ (.step hstep₂ ?_)
  by_cases hdefined : s.regs.rax = 0 ∨ s.regs.rbx = Int64.minValue ∧ s.regs.rax = -1
  · obtain ⟨e, s', hi⟩ : ∃ e s',
        instruction D.image (.make .idiv [rbx] line) s₂.next = .error e s' :=
      instruction_idiv_error (by rw [hrax, hrbx]; exact hdefined)
    exact h₂.trap hcode.tail.tail (hfault hdefined) hi
  · obtain ⟨hzero, hfits⟩ := not_or.mp hdefined
    obtain ⟨s₃, hstep₃, h₃, hmem₃, hregs₃⟩ := h₂.setRegs hcode.tail.tail
      (instruction_idiv (by rw [hrbx]; exact hzero) hrdx (by rw [hrax, hrbx]; exact hfits)) rfl rfl
    refine .step hstep₃ (hnext s₃ hdefined h₃ ?_ ?_ ?_)
    · rw [hregs₃, ← hrax, ← hrbx]
      rfl
    · rw [hregs₃, ← hrax, ← hrbx]
      rfl
    · rw [hmem₃, hmem₂, hmem₁]

/-- A result in `rax` that was computed without touching memory. -/
theorem Valued.of_memory (h : D.Poised pos height w s₁) (hv : s₁.regs.rax = v)
    (hmem : s₁.memory = s.memory) : D.Valued pos height w.literals false s v w s₁ where
  poised := h
  literals := rfl
  value := hv
  spares := .of_memory hmem
  rbx := by
    intro h
    cases h

/-- The code of an operator. -/
theorem applies_operator (op : BinaryOperator) :
    D.Applies (fun a b => .ofOption (op.result? a b)) (applyOperator line op) := by
  intro pos height w s hcode h
  cases op with
  | add =>
      obtain ⟨s₁, hstep, h₁, hmem, hregs⟩ := h.setRegs hcode (instruction_add rfl) rfl rfl
      refine .step hstep (.done (.of_memory h₁ ?_ hmem))
      rw [hregs]
      exact Int64.add_comm _ _
  | mult =>
      obtain ⟨s₁, hstep, h₁, hmem, hregs⟩ := h.setRegs hcode (instruction_imul rfl) rfl rfl
      refine .step hstep (.done (.of_memory h₁ ?_ hmem))
      rw [hregs]
      exact Int64.mul_comm _ _
  | sub =>
      obtain ⟨s₁, hstep₁, h₁, hmem₁, hregs₁⟩ := h.setRegs hcode (instruction_xchg .rax .rbx) rfl rfl
      obtain ⟨s₂, hstep₂, h₂, hmem₂, hregs₂⟩ := h₁.setRegs hcode.tail (instruction_sub rfl) rfl rfl
      refine .step hstep₁ (.step hstep₂ (.done (.of_memory h₂ ?_ (hmem₂.trans hmem₁))))
      rw [hregs₂]
      change s₁.regs.rax - s₁.regs.rbx = _
      rw [hregs₁]
      rfl
  | div =>
      simp only [BinaryOperator.result?]
      split
      · rename_i hundefined
        exact divide_comes h hcode (fun _ => trivial) fun s' hdefined => absurd hundefined hdefined
      · rename_i hdefined
        refine divide_comes h hcode hdefined fun s' _ h' hrax _ hmem => ?_
        exact .done (.of_memory h' hrax hmem)
  | mod =>
      simp only [BinaryOperator.result?]
      split
      · rename_i hundefined
        exact divide_comes h hcode (fun _ => trivial) fun s' hdefined => absurd hundefined hdefined
      · rename_i hdefined
        refine divide_comes h hcode hdefined fun s₁ _ h₁ _ hrdx hmem₁ => ?_
        obtain ⟨s₂, hstep, h₂, hmem₂, hregs⟩ :=
          h₁.setRegs hcode.tail.tail.tail (instruction_mov_reg rfl) rfl rfl
        refine .step hstep (.done (.of_memory h₂ ?_ (hmem₂.trans hmem₁)))
        rw [hregs]
        exact hrdx

/-- A constant is loaded after a label of a comparison. -/
theorem loadConstant_comes {name : String} (h : D.Poised pos height w s)
    (hcode : D.Bears pos (.labelled name line :: mov line rax (.imm v) :: rest)) :
    D.image.Comes D.bound (fun s' => D.Poised (pos + 2) height w s' ∧ s'.regs.rax = v ∧
      s'.memory = s.memory) False s := by
  obtain ⟨s₁, hstep₁, h₁, hmem₁, -⟩ := h.label hcode
  obtain ⟨s₂, hstep₂, h₂, hmem₂, hregs₂⟩ :=
    h₁.setRegs hcode.tail (instruction_mov_reg rfl) rfl rfl
  refine .step hstep₁ (.step hstep₂ (.done ⟨h₂, ?_, hmem₂.trans hmem₁⟩))
  rw [hregs₂]
  rfl

/-- The code of a comparison. -/
theorem applies_compare (hD : D.Sound) (op : CompareOperator) (id : Nat) :
    D.Applies (fun a b => pure (if op.holds a b then 1 else 0)) (applyCompare line op id) := by
  intro pos height w s hcode h
  have hcode₂ := hcode.tail.tail
  have hcode₃ := hcode₂.tail
  have hcode₅ := hcode₃.tail.tail
  have hcode₆ := hcode₅.tail
  have hcode₈ := hcode₆.tail.tail
  have hlt₃ := hcode₃.lt
  have hlt₆ := hcode₆.lt
  have hlt₈ := hcode₈.lt
  obtain ⟨s₁, hstep₁, h₁, hmem₁, -, hlhs, hrhs⟩ := h.compare hcode (instruction_cmp .rbx .rax)
  obtain ⟨s₂, hstep₂, h₂, hmem₂, -⟩ := h₁.branch hcode.tail (jumpFor_isConditionalJump op)
    (hD.target hcode₃.stands) (by omega) (by omega)
  have hholds : conditionHolds (jumpFor op) s₁.lhs s₁.rhs = op.holds s.regs.rbx s.regs.rax := by
    rw [hlhs, hrhs, conditionHolds_jumpFor]
    rfl
  rw [hholds] at h₂
  refine .step hstep₁ (.step hstep₂ ?_)
  cases hop : op.holds s.regs.rbx s.regs.rax with
  | true =>
      rw [hop, if_pos rfl] at h₂
      refine (loadConstant_comes h₂ hcode₃).bind fun s₃ ⟨h₃, hrax₃, hmem₃⟩ => ?_
      obtain ⟨s₄, hstep₄, h₄, hmem₄, hregs₄⟩ :=
        h₃.jump hcode₅ (hD.target hcode₈.stands) (by omega) (by omega)
      obtain ⟨s₅, hstep₅, h₅, hmem₅, hregs₅⟩ := h₄.label hcode₈
      refine .step hstep₄ (.step hstep₅ (.done (.of_memory h₅ ?_ ?_)))
      · rw [hregs₅, hregs₄, hrax₃]
        rfl
      · rw [hmem₅, hmem₄, hmem₃, hmem₂, hmem₁]
  | false =>
      rw [hop, if_neg Bool.false_ne_true] at h₂
      obtain ⟨s₃, hstep₃, h₃, hmem₃, -⟩ :=
        h₂.jump hcode₂ (hD.target hcode₆.stands) (by omega) (by omega)
      refine .step hstep₃ ?_
      refine (loadConstant_comes h₃ hcode₆).bind fun s₄ ⟨h₄, hrax₄, hmem₄⟩ => ?_
      obtain ⟨s₅, hstep₅, h₅, hmem₅, hregs₅⟩ := h₄.label hcode₈
      refine .step hstep₅ (.done (.of_memory h₅ ?_ ?_))
      · rw [hregs₅, hrax₄]
        rfl
      · rw [hmem₅, hmem₄, hmem₃, hmem₂, hmem₁]

/-- The code of a subscript. -/
theorem applies_element :
    D.Applies (fun a j => D.vantage.read (elementAddress a j)) (loadElement line) := by
  intro pos height w s hcode h
  have haddress : addressOf D.image (.element .rbx .rax 8) s.next =
      .ok (elementAddress s.regs.rbx s.regs.rax) s.next := addressOf_element .rbx (by decide) 8
  dsimp only
  generalize elementAddress s.regs.rbx s.regs.rax = a at haddress ⊢
  cases haccess : D.image.accessTrap? a with
  | some cause =>
      rw [Vantage.read_of_trap (V := D.vantage) haccess]
      obtain ⟨e, s', hi⟩ : ∃ e s',
          instruction D.image (mov line rax (.element .rbx .rax 8)) s.next = .error e s' :=
        instruction_load_error rfl haddress haccess
      exact h.trap hcode trivial hi
  | none =>
      obtain ⟨s₁, hstep, h₁, hmem, hrax, -⟩ := h.load hcode (read_of_address rfl haddress haccess)
      cases hfree : D.vantage.isFree a with
      | true =>
          -- whatever the machine finds in a free word, it goes on with
          rw [Vantage.read_of_free (V := D.vantage) haccess hfree]
          exact .step hstep (.done ⟨_, w, .of_memory h₁ rfl hmem⟩)
      | false =>
          rw [Vantage.read_of_kept (V := D.vantage) haccess hfree]
          exact .step hstep (.done (.of_memory h₁ (hrax.trans (h.words a hfree)) hmem))

end Operators

section Leaves

/-- A value that was loaded. -/
theorem Valued.of_load (h : D.Poised pos height w s₁) (hk : w.literals = k)
    (hmem : s₁.memory = s.memory) (hv : s₁.regs.rax = v) (hrbx : s₁.regs.rbx = s.regs.rbx) :
    D.Valued pos height k true s v w s₁ where
  poised := h
  literals := hk
  value := hv
  spares := .of_memory hmem
  rbx := fun _ => hrbx

theorem evaluates_immediate (v : Word) :
    D.Evaluates (pure v) 0 true k k [mov line rax (.imm v)] := by
  intro pos height w s hcode h hk _
  obtain ⟨s₁, hstep, h₁, hmem, hrax, hrbx⟩ := h.load hcode rfl
  exact .step hstep (.done (.of_load h₁ hk hmem hrax hrbx))

/-- A word that is never free. -/
theorem evaluates_word {o : Operand} {a : Address} (hkind : o.kind = .memory)
    (haddress : ∀ s : MachineState, s.regs.rbp = D.base → addressOf D.image o s = .ok a s)
    (haccess : D.image.accessTrap? a = none) (hfree : D.vantage.isFree a = false) :
    D.Evaluates (.word a) 0 true k k [mov line rax o] := by
  intro pos height w s hcode h hk _
  obtain ⟨s₁, hstep, h₁, hmem, hrax, hrbx⟩ :=
    h.load hcode (read_of_address hkind (haddress s.next h.rbp_eq) haccess)
  exact .step hstep (.done (.of_load h₁ hk hmem (hrax.trans (h.words a hfree)) hrbx))

theorem evaluates_slot (hD : D.Sound) {id : String} {d : Word}
    (hslot : D.scope.displacement? id = some d) :
    D.Evaluates (.word (D.vantage.base + d.toUInt64)) 0 true k k [mov line rax (.frameSlot d)] := by
  obtain ⟨haccess, hfree⟩ := hD.slot hslot
  refine evaluates_word rfl (fun s hrbp => ?_) haccess hfree
  rw [addressOf_frameSlot, hrbp]
  rfl

/-- The address of a placed symbol. -/
theorem symbol_eq {name : String} {placement : Placement}
    (hfind : D.image.layout.find? name = some placement) :
    D.vantage.symbol name = placement.address := by
  have hfind' : D.vantage.image.layout.find? name = some placement := hfind
  rw [Vantage.symbol, hfind']

theorem literal_eq {region : DataRegion} {placement : Placement}
    (hregion : D.regions[k]? = some region)
    (hfind : D.image.layout.find? region.symbol = some placement) :
    D.vantage.literal k = placement.address := by
  have hregion' : D.vantage.regions[k]? = some region := hregion
  rw [Vantage.literal, hregion']
  exact symbol_eq hfind

theorem evaluates_global (hD : D.Sound) {id : String} (hid : id ∈ D.promoted) :
    D.Evaluates (.word (D.vantage.symbol (globalSymbol id))) 0 true k k
      [mov line rax (.global (globalSymbol id) 0)] := by
  obtain ⟨placement, hfind⟩ := hD.global hid
  have hdata : D.setting.world.isData placement.address = true := by
    have hzero : placement.address + 8 * UInt64.ofNat 0 = placement.address := UInt64.add_zero _
    rw [← hzero]
    exact Setting.isData_placement hD.fits hfind (Layout.extent_pos _)
  rw [symbol_eq hfind]
  have haccess : D.image.accessTrap? placement.address = none :=
    Setting.accessible_data hdata D.maxSteps
  refine evaluates_word rfl (fun s _ => ?_) haccess (isFree_data hD hdata)
  have haddress := Setting.symbolAddress_image hfind D.maxSteps
  refine (addressOf_global (globalSymbol_isEmpty id) haddress 0).trans ?_
  exact congrArg (fun a => EStateM.Result.ok a s) (UInt64.add_zero _)

/-- The address of a string. -/
theorem evaluates_string (hD : D.Sound) {symbol : String} {bytes : List UInt8}
    (hfirst : D.first ≤ k) (hregion : D.regions[k]? = some (.string symbol bytes)) :
    D.Evaluates (do return (D.vantage.literal (← Reckoning.nextLiteral)).toInt64) 0 true k (k + 1)
      [lea line rax symbol] := by
  intro pos height w s hcode h hk _
  obtain ⟨placement, hfind, -⟩ := hD.region hfirst hregion
  obtain ⟨s₁, hstep, h₁, hmem, hregs⟩ := h.setRegs hcode
    (instruction_lea (Setting.symbolAddress_image hfind D.maxSteps)) rfl rfl
  refine .step hstep (.done (.of_load (h₁.withLiterals _) (congrArg (· + 1) hk) hmem ?_ ?_))
  · rw [hregs, hk, literal_eq hregion hfind]
    rfl
  · rw [hregs]
    rfl

end Leaves

section Operands

variable {x y : Reckoning Word} {f : Word → Word → Reckoning Word} {depth depth' : Nat}
  {leaf leaf' : Bool} {code₁ code₂ tail : Code}

/-- The left operand waits in `rbx`, and on the stack while the code of the right one needs
`rbx`. -/
theorem Evaluates.right (hD : D.Sound) (hy : D.Evaluates y depth leaf k k₁ code₁)
    (hcode : D.Bears pos (rightOperand line leaf code₁)) (h : D.Poised pos height w s)
    (hk : w.literals = k)
    (hroom : height + (depth + if leaf then 0 else 1) ≤ D.setting.stackWords) :
    (y w).Met D.image D.bound (fun b w' s' =>
      D.Valued (pos + (rightOperand line leaf code₁).length) height k₁ false s b w' s' ∧
        s'.regs.rbx = s.regs.rax) s := by
  obtain ⟨s₁, hstep₁, h₁, hmem₁, hregs₁⟩ := h.setRegs hcode (instruction_mov_reg rfl) rfl rfl
  have hrbx₁ : s₁.regs.rbx = s.regs.rax := by
    rw [hregs₁]
    rfl
  have hspares₁ : D.Spares height s s₁ := .of_memory hmem₁
  refine .advance hstep₁ ?_
  cases leaf with
  | true =>
      refine (hy hcode.tail h₁ hk hroom).mono fun b w' s₂ h₂ => ⟨?_, (h₂.rbx rfl).trans hrbx₁⟩
      refine { literals := h₂.literals, value := h₂.value, spares := hspares₁.trans h₂.spares,
               poised := ?_, rbx := Bool.noConfusion }
      convert h₂.poised using 1
      simp only [rightOperand, if_true, List.length_cons]
      omega
  | false =>
      have hbody : D.Bears (pos + 1) (push line rbx :: (code₁ ++ [pop line rbx])) := hcode.tail
      simp only [Bool.false_eq_true, if_false] at hroom
      obtain ⟨s₂, hstep₂, h₂, hspares₂, hword₂, -⟩ := h₁.push hD hbody (by omega)
      refine .advance hstep₂ ((hy hbody.tail.left h₂ hk (by omega)).follow fun b w' s₃ h₃ => ?_)
      obtain ⟨s₄, hstep₄, h₄, hmem₄, hrbx₄, hregs₄⟩ :=
        h₃.poised.pop hD hbody.tail.right h.top_le (by decide) (by decide)
      have hspares₃ : D.Spares height s₂ s₃ := h₃.spares.mono (Nat.le_succ _)
      refine .step hstep₄ (.done ⟨?_, ?_⟩)
      · refine { literals := h₃.literals, poised := ?_, rbx := Bool.noConfusion,
                 value := (hregs₄ .rax (by decide) (by decide)).trans h₃.value,
                 spares := ((hspares₁.trans hspares₂).trans hspares₃).trans (.of_memory hmem₄) }
        · convert h₄ using 1
          simp only [rightOperand, Bool.false_eq_true, if_false, List.length_cons,
            List.length_append, List.length_nil]
          omega
      · calc s₄.regs.rbx = s₃.stackWord (height + 1) := hrbx₄
          _ = s₂.stackWord (height + 1) := h₃.spares.stackWord hD (le_refl _) h₂.room
          _ = s₁.regs.rbx := hword₂
          _ = s.regs.rax := hrbx₁

/-- Two operands, then the code that combines them. -/
theorem Evaluates.operands (hD : D.Sound) (hx : D.Evaluates x depth leaf k k₁ code₁)
    (hy : D.Evaluates y depth' leaf' k₁ k₂ code₂) (hf : D.Applies f tail) :
    D.Evaluates (x >>= fun a => y >>= fun b => f a b)
      (max depth (depth' + if leaf' then 0 else 1)) false k k₂
      (code₁ ++ rightOperand line leaf' code₂ ++ tail) := by
  intro pos height w s hcode h hk hroom
  have hdepth := le_max_left depth (depth' + if leaf' then 0 else 1)
  have hdepth' := le_max_right depth (depth' + if leaf' then 0 else 1)
  refine .bind (hx hcode.left.left h hk (by omega)) fun a w₁ s₁ h₁ => ?_
  refine .bind (hy.right hD hcode.left.right h₁.poised h₁.literals (by omega))
    fun b w₂ s₂ ⟨h₂, hrbx⟩ => ?_
  have happly := hf hcode.third h₂.poised
  rw [hrbx, h₁.value, h₂.value] at happly
  refine happly.mono fun v w₃ s₃ h₃ => ?_
  refine { literals := h₃.literals.trans h₂.literals, value := h₃.value, poised := ?_,
           spares := (h₁.spares.trans h₂.spares).trans h₃.spares, rbx := Bool.noConfusion }
  convert h₃.poised using 1
  simp only [List.length_append]
  omega

end Operands

section Staging

variable {x : Reckoning Word} {xs : List (Reckoning Word)} {depth depth' n : Nat} {leaf : Bool}
  {code' : Code} {region : String} {placement : Placement} {values : List Word}

/-- So many values wait on the stack. -/
structure Lined (D : Desk) (pos height n k : Nat) (s : MachineState) (values : List Word)
    (w : Slate) (s' : MachineState) : Prop where
  poised : D.Poised pos (height + n) w s'
  literals : w.literals = k
  length_eq : values.length = n
  holds : StackHolds s' height values
  spares : D.Spares height s s'

/-- Code that pushes values one after another. -/
def Stages (D : Desk) (xs : List (Reckoning Word)) (depth k k' : Nat) (code : Code) : Prop :=
  ∀ ⦃pos height : Nat⦄ ⦃w : Slate⦄ ⦃s : MachineState⦄, D.Bears pos code →
    D.Poised pos height w s → w.literals = k → height + depth ≤ D.setting.stackWords →
    (Reckoning.stage xs w).Met D.image D.bound (D.Lined (pos + code.length) height xs.length k' s) s

theorem stages_nil : D.Stages [] 0 k k [] := by
  intro pos height w s _ h hk _
  refine .done { poised := h, literals := hk, length_eq := rfl, holds := ?_, spares := .refl s }
  intro j v hj
  cases hj

theorem Stages.cons (hD : D.Sound) (hx : D.Evaluates x depth leaf k k₁ code)
    (hxs : D.Stages xs depth' k₁ k₂ code') :
    D.Stages (x :: xs) (max depth (depth' + 1)) k k₂ (code ++ push line rax :: code') := by
  intro pos height w s hcode h hk hroom
  have hdepth := le_max_left depth (depth' + 1)
  have hdepth' := le_max_right depth (depth' + 1)
  refine .bind (hx hcode.left h hk (by omega)) fun v w₁ s₁ h₁ => ?_
  obtain ⟨s₂, hstep₂, h₂, hspares₂, hword₂, -⟩ := h₁.poised.push hD hcode.right (by omega)
  refine .advance hstep₂ ?_
  refine .bind (hxs hcode.right.tail h₂ h₁.literals (by omega)) fun values w₃ s₃ h₃ => ?_
  have hword₃ : s₃.stackWord (height + 1) = v := by
    rw [h₃.spares.stackWord hD (le_refl _) h₂.room, hword₂]
    exact h₁.value
  refine .done { poised := ?_, literals := h₃.literals, length_eq := ?_, holds := ?_, spares := ?_ }
  · convert h₃.poised using 1
    · simp only [List.length_append, List.length_cons]
      omega
    · rw [List.length_cons]
      omega
  · rw [List.length_cons, h₃.length_eq, List.length_cons]
  · exact .cons hword₃ h₃.holds
  · exact (h₁.spares.trans hspares₂).trans (h₃.spares.mono (Nat.le_succ _))

/-- A write of `rax` to an own word. -/
theorem Poised.storeWord (hD : D.Sound) (hempty : region.isEmpty = false)
    (hfind : D.image.layout.find? region = some placement) {d : Word}
    (hd : placement.address + d.toUInt64 = placement.address + 8 * UInt64.ofNat n)
    (howns : D.Owns (placement.address + 8 * UInt64.ofNat n)) (h : D.Poised pos height w s)
    (hcode : D.Bears pos (mov line (.global region d) rax :: rest)) :
    ∃ s₁, D.image.Advances D.bound s s₁ ∧
      D.Poised (pos + 1) height { w with
        words := Function.update w.words (placement.address + 8 * UInt64.ofNat n) s.regs.rax } s₁ ∧
      D.Spares height s s₁ ∧ s₁.regs = s.regs := by
  have haccess := Setting.accessible_data (isData_of_owns hD howns) D.maxSteps
  refine h.store hcode howns (instruction_mov rfl (write_of_address rfl ?_ haccess))
  rw [← hd]
  exact addressOf_global hempty (Setting.symbolAddress_image hfind D.maxSteps) d

/-- What waits on the stack still does, if memory only changed elsewhere. -/
theorem Spares.stackHolds (hD : D.Sound) (h : D.Spares (height + values.length) s s₁)
    (hroom : height + values.length ≤ D.setting.stackWords) (hholds : StackHolds s height values) :
    StackHolds s₁ height values := by
  intro j v hj
  have hlt : j < values.length := (List.getElem?_eq_some_iff.mp hj).1
  rw [h.stackWord hD (by omega) hroom]
  exact hholds j v hj

/-- The staged words move to their region, the last one first. -/
theorem popWords_comes (hD : D.Sound) (hempty : region.isEmpty = false)
    (hfind : D.image.layout.find? region = some placement)
    (howns : ∀ j ≤ values.length, D.Owns (placement.address + 8 * UInt64.ofNat j))
    (htop : D.top ≤ height) (hcode : D.Bears pos (popWords line region values.length))
    (h : D.Poised pos (height + values.length) w s) (hholds : StackHolds s height values) :
    D.image.Comes D.bound (fun s' => D.Poised (pos + 2 * values.length) height { w with
        words := fillWords w.words (placement.address + 8) values } s' ∧ D.Spares height s s')
      False s := by
  induction values using List.reverseRecOn generalizing pos w s with
  | nil => exact .done ⟨h, .refl s⟩
  | append_singleton values v ih =>
      rw [List.length_append, List.length_singleton] at howns hcode h ⊢
      rw [popWords] at hcode
      rw [← Nat.add_assoc] at h
      obtain ⟨s₁, hstep₁, h₁, hmem₁, hrax₁, -⟩ :=
        h.pop hD hcode (htop.trans (Nat.le_add_right _ _)) (by decide) (by decide)
      have hv : s₁.regs.rax = v := by
        refine hrax₁.trans ?_
        rw [show height + values.length + 1 = height + 1 + values.length by omega]
        exact hholds values.length v (by simp)
      obtain ⟨s₂, hstep₂, h₂, hspares₂, -⟩ :=
        h₁.storeWord hD hempty hfind (region_address _) (howns _ (le_refl _)) hcode.tail
      have hholds₁ : StackHolds s₁ height values := by
        intro j u hj
        have hlt : j < values.length := (List.getElem?_eq_some_iff.mp hj).1
        rw [MachineState.stackWord, hmem₁]
        exact hholds j u (by rw [List.getElem?_append_left hlt, hj])
      refine .step hstep₁ (.step hstep₂ ?_)
      refine (ih (fun j hj => howns j (by omega)) hcode.tail.tail h₂
        (hspares₂.stackHolds hD h₁.room hholds₁)).mono ?_ id
      rintro s₃ ⟨h₃, hspares₃⟩
      have hspares₁ : D.Spares height s s₁ := .of_memory hmem₁
      refine ⟨?_, (hspares₁.trans (hspares₂.mono (Nat.le_add_right _ _))).trans hspares₃⟩
      have hlast : placement.address + 8 + 8 * UInt64.ofNat values.length =
          placement.address + 8 * UInt64.ofNat (values.length + 1) := by
        rw [UInt64.ofNat_add]
        grind
      rw [fillWords_append, hlast, ← hv]
      convert h₃ using 1
      omega

/-- The code that fills the region of a literal. -/
theorem fillRegion_comes {count : Nat} (hD : D.Sound) (hempty : region.isEmpty = false)
    (hfind : D.image.layout.find? region = some placement)
    (howns : ∀ j ≤ values.length, D.Owns (placement.address + 8 * UInt64.ofNat j))
    (htop : D.top ≤ height) (hcode : D.Bears pos (fillRegion line region count values.length))
    (h : D.Poised pos (height + values.length) w s) (hholds : StackHolds s height values) :
    D.image.Comes D.bound (fun s' =>
      D.Poised (pos + (fillRegion line region count values.length).length) height { w with
        words := fillWords (Function.update w.words placement.address (Int64.ofNat count))
          (placement.address + 8) values } s' ∧
      s'.regs.rax = placement.address.toInt64 ∧ D.Spares height s s') False s := by
  have hzero : placement.address + 8 * UInt64.ofNat 0 = placement.address := UInt64.add_zero _
  obtain ⟨s₁, hstep₁, h₁, hmem₁, hregs₁⟩ := h.setRegs hcode (instruction_mov_reg rfl) rfl rfl
  have hrax₁ : s₁.regs.rax = Int64.ofNat count := by
    rw [hregs₁]
    rfl
  obtain ⟨s₂, hstep₂, h₂, hspares₂, -⟩ :=
    h₁.storeWord hD hempty hfind rfl (howns 0 (Nat.zero_le _)) hcode.tail
  rw [hzero, hrax₁] at h₂
  have hspares : D.Spares (height + values.length) s s₂ := .trans (.of_memory hmem₁) hspares₂
  refine .step hstep₁ (.step hstep₂ ?_)
  refine (popWords_comes hD hempty hfind howns htop hcode.tail.tail.left h₂
    (hspares.stackHolds hD h.room hholds)).bind fun s₃ ⟨h₃, hspares₃⟩ => ?_
  have hlea := hcode.tail.tail.right
  rw [length_popWords] at hlea
  obtain ⟨s₄, hstep₄, h₄, hmem₄, hregs₄⟩ := h₃.setRegs hlea
    (instruction_lea (Setting.symbolAddress_image hfind D.maxSteps)) rfl rfl
  refine .step hstep₄ (.done ⟨?_, by rw [hregs₄]; rfl,
    ((hspares.mono (Nat.le_add_right _ _)).trans hspares₃).trans (.of_memory hmem₄)⟩)
  convert h₄ using 1
  simp only [fillRegion, List.length_cons, List.length_append, length_popWords, List.length_nil]
  omega

/-- A literal: its elements are staged, and then written to its region. -/
theorem Stages.literal {count staged words : Nat} (hD : D.Sound) (hempty : region.isEmpty = false)
    (hfirst : D.first ≤ k) (hregion : D.regions[k]? = some (.reserve region words))
    (hstaged : xs.length = staged) (hwords : staged < words)
    (hxs : D.Stages xs depth (k + 1) k₁ code) :
    D.Evaluates (D.vantage.fillLiteral count (Reckoning.stage xs)) depth false k k₁
      (code ++ fillRegion line region count staged) := by
  intro pos height w s hcode h hk hroom
  obtain ⟨placement, hfind, -⟩ := hD.region hfirst hregion
  refine .bind (x := Reckoning.stage xs) (w := { w with literals := w.literals + 1 })
    (hxs hcode.left (h.withLiterals _) (congrArg (· + 1) hk) hroom) fun values w₁ s₁ h₁ => ?_
  have hlength : values.length = staged := h₁.length_eq.trans hstaged
  have hpoised := h₁.poised
  rw [hstaged, ← hlength] at hpoised
  rw [← hlength] at hcode
  have howns : ∀ j ≤ values.length, D.Owns (placement.address + 8 * UInt64.ofNat j) := by
    intro j hj
    exact ⟨k, region, words, placement, j, hfirst, hregion, hfind, by omega, rfl⟩
  refine (fillRegion_comes hD hempty hfind howns h.top_le hcode.right hpoised h₁.holds).mono
    (fun s₂ ⟨h₂, hrax, hspares⟩ => ?_) id
  rw [hk, literal_eq hregion hfind]
  refine { poised := ?_, literals := h₁.literals, value := hrax, rbx := Bool.noConfusion,
           spares := h₁.spares.trans hspares }
  convert h₂ using 1
  rw [hlength, List.length_append, Nat.add_assoc]

end Staging

end Desk

end Arbor
