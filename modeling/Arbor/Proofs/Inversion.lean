import Mathlib.Tactic
import Arbor.Proofs.Execution

/-!
What an instruction has done when it did not trap. The lemmas are the converses of those
that run an instruction: from the result they give the words that were read, the address
that was written, and that it may be accessed. Addresses depend on registers and layout
only, so another machine with the same registers finds the same ones.
-/

namespace Arbor

namespace Exec

variable {img : Image} {o dst src : Operand} {s s' t : MachineState} {v : Word} {a : Address}
  {b : Bool} {line : UInt32}

/-- An address depends on the registers that its operand uses. -/
theorem addressOf_congr {img' : Image}
    (hsymbol : ∀ symbol, img'.symbolAddress symbol = img.symbolAddress symbol)
    (hregs : ∀ r, o.usesReg r = true → t.regs.get r = s.regs.get r)
    (h : addressOf img o s = .ok a s') : s' = s ∧ addressOf img' o t = .ok a t := by
  have hreg : ∀ r, o.usesReg r = true → reg r t = .ok (s.regs.get r) t := by
    intro r hr
    rw [← hregs r hr]
    rfl
  unfold addressOf at h ⊢
  cases hkind : o.kind with
  | register | immediate =>
      simp only [hkind] at h
      cases h
  | symbol =>
      simp only [hkind, hsymbol] at h ⊢
      cases hfind : img.symbolAddress o.symbol with
      | error e =>
          rw [hfind] at h
          cases h
      | ok x =>
          rw [hfind] at h
          cases h
          exact ⟨rfl, rfl⟩
  | memory =>
      simp only [hkind, hsymbol] at h ⊢
      split at h
      · rename_i hempty
        rw [if_pos hempty, bind_of_ok (hreg _ (by simp [Operand.usesReg, hkind]))]
        split at h
        · rename_i hindex
          cases h
          rw [if_pos hindex]
          exact ⟨rfl, rfl⟩
        · rename_i hindex
          cases h
          rw [if_neg hindex, bind_of_ok (hreg _ (by simp [Operand.usesReg, hkind]))]
          exact ⟨rfl, rfl⟩
      · rename_i hempty
        rw [if_neg hempty]
        cases hfind : img.symbolAddress o.symbol with
        | error e =>
            rw [hfind] at h
            cases h
        | ok x =>
            rw [hfind] at h
            cases h
            exact ⟨rfl, rfl⟩

theorem addressOf_state (h : addressOf img o s = .ok a s') : s' = s :=
  (addressOf_congr (fun _ => rfl) (fun _ _ => rfl) h).1

theorem load_eq_ok (h : load img a s = .ok v s') :
    s' = s ∧ img.accessTrap? a = none ∧ v = s.memory.read a := by
  unfold load Image.load? at h
  cases htrap : img.accessTrap? a with
  | some trap =>
      rw [htrap] at h
      cases h
  | none =>
      rw [htrap] at h
      cases h
      exact ⟨rfl, rfl, rfl⟩

theorem store_eq_ok (h : store img a v s = .ok () s') :
    img.accessTrap? a = none ∧ s' = s.setWord a v := by
  unfold store at h
  cases htrap : img.accessTrap? a with
  | some trap =>
      rw [htrap] at h
      cases h
  | none =>
      rw [htrap] at h
      cases h
      exact ⟨rfl, rfl⟩

/-- A word that was read from memory. -/
theorem read_memory_eq_ok (hkind : o.kind = .memory) (h : Exec.read img o s = .ok v s') :
    s' = s ∧ ∃ a, addressOf img o s = .ok a s ∧ img.accessTrap? a = none ∧
      v = s.memory.read a := by
  simp only [Exec.read, hkind] at h
  obtain ⟨a, s₁, haddress, hload⟩ := bind_eq_ok h
  obtain rfl := addressOf_state haddress
  obtain ⟨rfl, haccess, hv⟩ := load_eq_ok hload
  exact ⟨rfl, a, haddress, haccess, hv⟩

theorem read_state (h : Exec.read img o s = .ok v s') : s' = s := by
  cases hkind : o.kind with
  | memory => exact (read_memory_eq_ok hkind h).1
  | register | immediate =>
      simp only [Exec.read, hkind] at h
      cases h
      rfl
  | symbol =>
      simp only [Exec.read, hkind] at h
      obtain ⟨x, s₁, hfind, h⟩ := bind_eq_ok h
      cases h
      cases hsymbol : img.symbolAddress o.symbol with
      | error e =>
          rw [hsymbol] at hfind
          cases hfind
      | ok y =>
          rw [hsymbol] at hfind
          cases hfind
          rfl

/-- What an operand stands for depends on the registers that it uses and on the word at its
address. -/
theorem read_congr {img' : Image}
    (hsymbol : ∀ symbol, img'.symbolAddress symbol = img.symbolAddress symbol)
    (haccess : ∀ a, img.accessTrap? a = none → img'.accessTrap? a = none)
    (hregs : ∀ r, o.usesReg r = true → t.regs.get r = s.regs.get r)
    (hwords : ∀ a, o.kind = .memory → addressOf img o s = .ok a s → img.accessTrap? a = none →
      t.memory.read a = s.memory.read a)
    (h : Exec.read img o s = .ok v s') : Exec.read img' o t = .ok v t := by
  cases hkind : o.kind with
  | memory =>
      obtain ⟨-, a, haddress, ha, rfl⟩ := read_memory_eq_ok hkind h
      rw [← hwords a hkind haddress ha]
      exact read_of_address hkind (addressOf_congr hsymbol hregs haddress).2 (haccess a ha)
  | register =>
      simp only [Exec.read, hkind] at h ⊢
      cases h
      rw [← hregs o.reg (by simp [Operand.usesReg, hkind])]
      rfl
  | immediate =>
      simp only [Exec.read, hkind] at h ⊢
      cases h
      rfl
  | symbol =>
      simp only [Exec.read, hkind, hsymbol] at h ⊢
      cases hfind : img.symbolAddress o.symbol with
      | error e =>
          rw [hfind] at h
          cases h
      | ok x =>
          rw [hfind] at h
          cases h
          rfl

/-- A write goes to a register or to a word that may be accessed. -/
theorem write_eq_ok (h : Exec.write img o v s = .ok () s') :
    (o.kind = .register ∧ s' = s.setReg o.reg v) ∨
      (o.kind = .memory ∧ ∃ a, addressOf img o s = .ok a s ∧ img.accessTrap? a = none ∧
        s' = s.setWord a v) := by
  cases hkind : o.kind with
  | register =>
      simp only [Exec.write, hkind] at h
      cases h
      exact .inl ⟨rfl, rfl⟩
  | memory =>
      simp only [Exec.write, hkind] at h
      obtain ⟨a, s₁, haddress, hstore⟩ := bind_eq_ok h
      obtain rfl := addressOf_state haddress
      obtain ⟨haccess, hs'⟩ := store_eq_ok hstore
      exact .inr ⟨rfl, a, haddress, haccess, hs'⟩
  | immediate | symbol =>
      simp only [Exec.write, hkind] at h
      cases h

theorem continue_eq_ok {x : Exec Unit}
    (h : (x >>= fun _ => pure false : Exec Bool) s = .ok b s') : b = false ∧ x s = .ok () s' := by
  obtain ⟨⟨⟩, s₁, hx, h⟩ := bind_eq_ok h
  cases h
  exact ⟨rfl, hx⟩

theorem instruction_mov_eq_ok
    (h : instruction img (.make .mov [dst, src] line) s = .ok b s') :
    b = false ∧ ∃ v, Exec.read img src s = .ok v s ∧ Exec.write img dst v s = .ok () s' := by
  obtain ⟨hb, h⟩ := continue_eq_ok h
  obtain ⟨v, s₁, hread, hwrite⟩ := bind_eq_ok h
  obtain rfl := read_state hread
  exact ⟨hb, v, hread, hwrite⟩

/-- After a move both operands stand for the same word, unless the move changes what its
source uses. -/
theorem reads_of_mov (huses : dst.kind = .register → src.usesReg dst.reg = false)
    (hread : Exec.read img src s = .ok v s) (hwrite : Exec.write img dst v s = .ok () s') :
    Exec.read img dst s' = .ok v s' ∧ Exec.read img src s' = .ok v s' := by
  rcases write_eq_ok hwrite with ⟨hkind, rfl⟩ | ⟨hkind, a, haddress, haccess, rfl⟩
  · constructor
    · simp only [Exec.read, hkind]
      change EStateM.Result.ok ((s.regs.set dst.reg v).get dst.reg) _ = _
      rw [Registers.get_set, if_pos rfl]
    · refine read_congr (s := s) (fun _ => rfl) (fun _ h => h) ?_ (fun _ _ _ _ => rfl) hread
      intro r hr
      rw [MachineState.setReg_regs, Registers.get_set, if_neg]
      rintro rfl
      rw [huses hkind] at hr
      cases hr
  · have hread_of : ∀ {o a'}, o.kind = .memory → addressOf img o s = .ok a' s →
        img.accessTrap? a' = none → (s.setWord a v).memory.read a' = v →
        Exec.read img o (s.setWord a v) = .ok v (s.setWord a v) := by
      intro o a' hmemory haddress' haccess' hword
      have haddress₁ : addressOf img o (s.setWord a v) = .ok a' (s.setWord a v) :=
        (addressOf_congr (s := s) (t := s.setWord a v) (fun _ => rfl) (fun _ _ => rfl) haddress').2
      rw [read_of_address hmemory haddress₁ haccess', hword]
    constructor
    · exact hread_of hkind haddress haccess (by simp)
    · cases hsrc : src.kind with
      | memory =>
          obtain ⟨-, a', haddress', haccess', hv⟩ := read_memory_eq_ok hsrc hread
          refine hread_of hsrc haddress' haccess' ?_
          rw [MachineState.setWord_memory, Memory.read_write]
          split
          · rfl
          · exact hv.symm
      | register | immediate | symbol =>
          refine read_congr (s := s) (fun _ => rfl) (fun _ h => h) (fun _ _ => rfl) ?_ hread
          intro a' hmemory
          rw [hsrc] at hmemory
          cases hmemory

theorem push_eq_ok (h : Exec.push img v s = .ok () s') :
    ¬(s.regs.rsp - 8).toUInt64 < img.stackLimit ∧
      img.accessTrap? (s.regs.rsp - 8).toUInt64 = none ∧
      s' = (s.setReg .rsp (s.regs.rsp - 8)).setWord (s.regs.rsp - 8).toUInt64 v := by
  have hreg : reg .rsp s = .ok s.regs.rsp s := rfl
  have hset : setReg .rsp (s.regs.rsp - 8) s = .ok () (s.setReg .rsp (s.regs.rsp - 8)) := rfl
  rw [Exec.push, bind_of_ok hreg, bind_of_ok hset] at h
  split at h
  · cases h
  · rename_i hroom
    obtain ⟨haccess, hs'⟩ := store_eq_ok h
    exact ⟨hroom, haccess, hs'⟩

theorem pop_eq_ok (h : Exec.pop img s = .ok v s') :
    img.accessTrap? s.regs.rsp.toUInt64 = none ∧ v = s.memory.read s.regs.rsp.toUInt64 ∧
      s' = s.setReg .rsp (s.regs.rsp + 8) := by
  change (load img s.regs.rsp.toUInt64 >>= fun v =>
    setReg .rsp (s.regs.rsp + 8) >>= fun _ => pure v : Exec Word) s = _ at h
  obtain ⟨w, s₁, hload, h⟩ := bind_eq_ok h
  obtain ⟨rfl, haccess, rfl⟩ := load_eq_ok hload
  cases h
  exact ⟨haccess, rfl, rfl⟩

theorem instruction_push_eq_ok {r : Reg}
    (h : instruction img (.make .push [.ofReg r] line) s = .ok b s') :
    b = false ∧ Exec.push img (s.regs.get r) s = .ok () s' := by
  obtain ⟨hb, h⟩ := continue_eq_ok h
  obtain ⟨v, s₁, hread, hpush⟩ := bind_eq_ok h
  cases hread
  exact ⟨hb, hpush⟩

theorem instruction_pop_eq_ok {r : Reg}
    (h : instruction img (.make .pop [.ofReg r] line) s = .ok b s') :
    b = false ∧ img.accessTrap? s.regs.rsp.toUInt64 = none ∧
      s' = (s.setReg .rsp (s.regs.rsp + 8)).setReg r (s.memory.read s.regs.rsp.toUInt64) := by
  obtain ⟨hb, h⟩ := continue_eq_ok h
  obtain ⟨v, s₁, hpop, hwrite⟩ := bind_eq_ok h
  obtain ⟨haccess, rfl, rfl⟩ := pop_eq_ok hpop
  cases hwrite
  exact ⟨hb, haccess, rfl⟩

theorem jump_eq_ok {label : String} (h : Exec.jump img label s = .ok () s') :
    ∃ k, img.target? s.unit label = some k ∧ s' = s.goto k := by
  rw [jump_eq] at h
  cases htarget : img.target? s.unit label with
  | none =>
      rw [htarget] at h
      cases h
  | some k =>
      rw [htarget] at h
      cases h
      exact ⟨k, rfl, rfl⟩

theorem instruction_jmp_eq_ok {label : String}
    (h : instruction img (.make .jmp [.sym label] line) s = .ok b s') :
    b = false ∧ ∃ k, img.target? s.unit label = some k ∧ s' = s.goto k := by
  obtain ⟨hb, h⟩ := continue_eq_ok h
  exact ⟨hb, jump_eq_ok h⟩

/-- A branch goes to its label or does nothing. -/
theorem instruction_branch_eq_ok {m : Mnemonic} {label : String} (hm : m.isConditionalJump = true)
    (h : instruction img (.make m [.sym label] line) s = .ok b s') :
    b = false ∧
      ((conditionHolds m s.lhs s.rhs = true ∧
          ∃ k, img.target? s.unit label = some k ∧ s' = s.goto k) ∨
        (conditionHolds m s.lhs s.rhs = false ∧ s' = s)) := by
  change instruction img (Emit.jump line m label) s = _ at h
  rw [instruction_conditional hm] at h
  obtain ⟨hb, h⟩ := continue_eq_ok h
  refine ⟨hb, ?_⟩
  split at h
  · rename_i hholds
    exact .inl ⟨hholds, jump_eq_ok h⟩
  · rename_i hholds
    cases h
    exact .inr ⟨by simpa using hholds, rfl⟩

theorem instruction_call_eq_ok {callee : String}
    (h : instruction img (.make .call [.sym callee] line) s = .ok b s') :
    b = false ∧ ∃ unit, img.functions.lookup callee = some unit ∧
      ¬(s.regs.rsp - 8).toUInt64 < img.stackLimit ∧
      img.accessTrap? (s.regs.rsp - 8).toUInt64 = none ∧
      s' = ((s.setReg .rsp (s.regs.rsp - 8)).setWord (s.regs.rsp - 8).toUInt64
        (returnAddress s.unit s.ip)).enter unit 0 := by
  obtain ⟨hb, h⟩ := continue_eq_ok h
  have hget : (get : Exec MachineState) s = .ok s s := rfl
  change Exec.call img callee s = _ at h
  rw [Exec.call] at h
  cases hlookup : img.functions.lookup callee with
  | none =>
      rw [hlookup] at h
      cases h
  | some unit =>
      rw [hlookup] at h
      dsimp only at h
      rw [bind_of_ok hget] at h
      obtain ⟨⟨⟩, s₁, hpush, h⟩ := bind_eq_ok h
      obtain ⟨hroom, haccess, rfl⟩ := push_eq_ok hpush
      cases h
      exact ⟨hb, unit, rfl, hroom, haccess, rfl⟩

theorem instruction_idiv_eq_ok {r : Reg}
    (h : instruction img (.make .idiv [.ofReg r] line) s = .ok b s') :
    s.regs.get r ≠ 0 ∧ s.regs.rdx = signWord s.regs.rax ∧
      ¬(s.regs.rax = Int64.minValue ∧ s.regs.get r = -1) := by
  obtain ⟨-, h⟩ := continue_eq_ok h
  change (if s.regs.get r = 0 then trap img .divisionByZero
    else if s.regs.rdx ≠ signWord s.regs.rax then trap img .dividendTooWide
    else if s.regs.rax = Int64.minValue ∧ s.regs.get r = -1 then trap img .divisionOverflow
    else do
      setReg .rax (s.regs.rax / s.regs.get r)
      setReg .rdx (s.regs.rax % s.regs.get r) : Exec Unit) s = _ at h
  split at h
  · cases h
  · rename_i hzero
    split at h
    · cases h
    · rename_i hwide
      split at h
      · cases h
      · rename_i hfits
        exact ⟨hzero, not_not.mp hwide, hfits⟩

theorem instruction_lea_eq_ok {r : Reg} {symbol : String}
    (h : instruction img (.make .lea [.ofReg r, .sym symbol] line) s = .ok b s') :
    ∃ a, img.symbolAddress symbol = .ok a := by
  obtain ⟨-, h⟩ := continue_eq_ok h
  obtain ⟨a, s₁, haddress, -⟩ := bind_eq_ok h
  change ofExcept (img.symbolAddress symbol) s = _ at haddress
  cases hfind : img.symbolAddress symbol with
  | error e =>
      rw [hfind] at haddress
      cases haddress
  | ok x => exact ⟨x, rfl⟩

/-- A return takes its address from the stack. -/
theorem instruction_ret_eq_ok (h : instruction img (.make .ret [] line) s = .ok b s') :
    img.accessTrap? s.regs.rsp.toUInt64 = none := by
  change Exec.ret img s = _ at h
  obtain ⟨v, s₁, hpop, -⟩ := bind_eq_ok h
  exact (pop_eq_ok hpop).1

end Exec

end Arbor
