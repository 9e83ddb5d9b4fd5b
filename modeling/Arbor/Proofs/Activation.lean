import Mathlib.Tactic
import Arbor.Proofs.Frames

/-!
The machine inside an activation. `Running` ties a machine state to a place of the
interpreter: where in the code it is, how high its stack stands, and that memory holds
the store. Each instruction that lowering emits moves a running state to a running
state, and the lemmas here say which one, so that simulation never looks at addresses.
-/

namespace Arbor

open Exec Relation

/-- A word of the stack, by its height. -/
def MachineState.stackWord (s : MachineState) (h : Nat) : Word := s.memory.read (stackAddress h)

/-- The stack words up to a height are the same. -/
def Kept (height : Nat) (s s' : MachineState) : Prop :=
  ∀ h, 0 < h → h ≤ height → s'.stackWord h = s.stackWord h

theorem Kept.refl (height : Nat) (s : MachineState) : Kept height s s := fun _ _ _ => rfl

theorem Kept.trans {height : Nat} {s₁ s₂ s₃ : MachineState} (h₁ : Kept height s₁ s₂)
    (h₂ : Kept height s₂ s₃) : Kept height s₁ s₃ :=
  fun h hpos hle => (h₂ h hpos hle).trans (h₁ h hpos hle)

theorem Kept.mono {height lower : Nat} {s s' : MachineState} (h : Kept height s s')
    (hle : lower ≤ height) : Kept lower s s' :=
  fun k hpos hk => h k hpos (hk.trans hle)

theorem Kept.of_memory {height : Nat} {s s' : MachineState} (h : s'.memory = s.memory) :
    Kept height s s' := by
  intro k _ _
  rw [MachineState.stackWord, MachineState.stackWord, h]

namespace Setting

variable {E : Setting} {s s₁ : MachineState} {P Q : MachineState → Prop}

def fetch? (E : Setting) (u k : Nat) : Option Instruction :=
  E.world.program.units[u]?.bind (·.code[k]?)

/-- One step, under every step limit. -/
def Steps (E : Setting) (s s' : MachineState) : Prop := ∀ maxSteps, (E.image maxSteps).Steps s s'

/-- Some number of steps leads to a state as described. -/
def Leads (E : Setting) (s : MachineState) (P : MachineState → Prop) : Prop :=
  ∃ s', ReflTransGen E.Steps s s' ∧ P s'

theorem Leads.done (h : P s) : E.Leads s P := ⟨s, .refl, h⟩

theorem Leads.step (hstep : E.Steps s s₁) (h : E.Leads s₁ P) : E.Leads s P := by
  obtain ⟨s', hreach, hP⟩ := h
  exact ⟨s', .head hstep hreach, hP⟩

theorem Leads.bind (h : E.Leads s P) (hnext : ∀ s', P s' → E.Leads s' Q) : E.Leads s Q := by
  obtain ⟨s', hreach, hP⟩ := h
  obtain ⟨s'', hreach', hQ⟩ := hnext s' hP
  exact ⟨s'', hreach.trans hreach', hQ⟩

theorem Leads.mono (h : E.Leads s P) (himp : ∀ s', P s' → Q s') : E.Leads s Q :=
  h.bind fun s' hP => .done (himp s' hP)

/-- A piece of code stands at a position of a unit. -/
def CodeAt (E : Setting) (u pos : Nat) (code : Code) : Prop :=
  ∀ k i, code[k]? = some i → E.fetch? u (pos + k) = some i

variable {u pos : Nat} {i : Instruction} {code code' : Code}

theorem CodeAt.head (h : E.CodeAt u pos (i :: code)) : E.fetch? u pos = some i := h 0 i rfl

theorem CodeAt.tail (h : E.CodeAt u pos (i :: code)) : E.CodeAt u (pos + 1) code := by
  intro k j hj
  rw [Nat.add_assoc, Nat.add_comm 1 k]
  exact h (k + 1) j hj

theorem CodeAt.left (h : E.CodeAt u pos (code ++ code')) : E.CodeAt u pos code := by
  intro k j hj
  have hlt : k < code.length := (List.getElem?_eq_some_iff.mp hj).1
  exact h k j (by rw [List.getElem?_append_left hlt, hj])

theorem CodeAt.right (h : E.CodeAt u pos (code ++ code')) :
    E.CodeAt u (pos + code.length) code' := by
  intro k j hj
  rw [Nat.add_assoc]
  refine h (code.length + k) j ?_
  rw [List.getElem?_append_right (Nat.le_add_right _ _), Nat.add_sub_cancel_left, hj]

theorem CodeAt.third {code'' : Code} (h : E.CodeAt u pos (code ++ code' ++ code'')) :
    E.CodeAt u (pos + code.length + code'.length) code'' := by
  rw [Nat.add_assoc, ← List.length_append]
  exact h.right

/-- The instruction at a place is the one that runs there. -/
theorem CodeAt.steps (hcode : E.CodeAt u pos (i :: code)) (hunit : s.unit = u) (hip : s.ip = pos)
    (h : ∀ maxSteps, instruction (E.image maxSteps) i s.next = .ok false s₁) : E.Steps s s₁ := by
  intro maxSteps
  refine ⟨i, (Image.fetch?_ofProgram _ _ _ _).trans ?_, h maxSteps⟩
  rw [hunit, hip]
  exact hcode.head

end Setting

/-- The machine is in an activation, at a position of its code and with the stack at a
height, and memory holds the store. -/
structure Running (E : Setting) (F : Frame) (pos height : Nat) (σ : Store) (s : MachineState) :
    Prop where
  unit_eq : s.unit = F.owner
  ip_eq : s.ip = pos
  rsp_eq : s.regs.rsp = stackPointer height
  rbp_eq : s.regs.rbp = stackPointer F.base
  room : height ≤ E.stackWords
  top_le : F.top ≤ height
  data : ∀ a, E.world.isData a = true → s.memory.read a = σ.data a
  locals : ∀ (j : Nat) name v, F.names[j]? = some name → σ.locals name = some v →
    s.stackWord (F.slot j) = v

theorem MachineState.stackWord_setWord_data {E : Setting} (hfits : E.Fits) (s : MachineState)
    {a : Address} (ha : E.world.isData a = true) (v : Word) {h : Nat} (hle : h ≤ E.stackWords) :
    (s.setWord a v).stackWord h = s.stackWord h := by
  rw [stackWord, setWord_memory, Memory.read_write,
    if_neg (Setting.stackAddress_ne_data hfits hle ha).symm, stackWord]

theorem MachineState.stackWord_setWord_stack {E : Setting} (hfits : E.Fits) (s : MachineState)
    {h k : Nat} (hh : h ≤ E.stackWords) (hk : k ≤ E.stackWords) (v : Word) :
    (s.setWord (stackAddress k) v).stackWord h = if k = h then v else s.stackWord h := by
  rw [stackWord, setWord_memory, Memory.read_write]
  by_cases hkh : k = h
  · rw [if_pos (by rw [hkh]), if_pos hkh]
  · rw [if_neg (fun heq => hkh (Setting.stackAddress_inj hfits hk hh heq)), if_neg hkh, stackWord]

/-- The words outside an activation are the same. -/
def KeptOutside (F : Frame) (s s' : MachineState) : Prop :=
  ∀ h, 0 < h → F.IsOutside h → s'.stackWord h = s.stackWord h

theorem KeptOutside.refl (F : Frame) (s : MachineState) : KeptOutside F s s := fun _ _ _ => rfl

theorem KeptOutside.trans {F : Frame} {s₁ s₂ s₃ : MachineState} (h₁ : KeptOutside F s₁ s₂)
    (h₂ : KeptOutside F s₂ s₃) : KeptOutside F s₁ s₃ :=
  fun h hpos hout => (h₂ h hpos hout).trans (h₁ h hpos hout)

theorem Frame.le_top_of_isOutside {F : Frame} {h : Nat} (hout : F.IsOutside h) : h ≤ F.top := by
  unfold IsOutside at hout
  unfold top
  omega

theorem Kept.outside {F : Frame} {height : Nat} {s s' : MachineState} (h : Kept height s s')
    (htop : F.top ≤ height) : KeptOutside F s s' :=
  fun k hpos hout => h k hpos ((Frame.le_top_of_isOutside hout).trans htop)

def Setting.target? (E : Setting) (u : Nat) (label : String) : Option Nat :=
  E.world.program.units[u]?.bind fun unit => (Image.loadUnit unit).labels.lookup label

namespace Running

variable {E : Setting} {F : Frame} {pos height : Nat} {σ : Store} {s s₁ : MachineState}
  {i : Instruction} {rest : Code} {line : UInt32} {r : Reg}

/-- Registers other than stack pointer and frame base, and the words compared, may change. -/
theorem of_same (h : Running E F pos height σ s) {pos' : Nat} (hunit : s₁.unit = s.unit)
    (hip : s₁.ip = pos') (hrsp : s₁.regs.rsp = s.regs.rsp) (hrbp : s₁.regs.rbp = s.regs.rbp)
    (hmemory : s₁.memory = s.memory) : Running E F pos' height σ s₁ where
  unit_eq := hunit.trans h.unit_eq
  ip_eq := hip
  rsp_eq := hrsp.trans h.rsp_eq
  rbp_eq := hrbp.trans h.rbp_eq
  room := h.room
  top_le := h.top_le
  data := fun a ha => by rw [hmemory, h.data a ha]
  locals := fun j name v hname hv => by
    rw [MachineState.stackWord, hmemory]
    exact h.locals j name v hname hv

theorem next_ip (h : Running E F pos height σ s) : s.next.ip = pos + 1 := by
  rw [MachineState.next_ip, h.ip_eq]

theorem slot_le (h : Running E F pos height σ s) {j : Nat} (hj : j < F.names.length) :
    F.slot j ≤ height := (Frame.slot_le_top hj).trans h.top_le

theorem step (h : Running E F pos height σ s) (hcode : E.CodeAt F.owner pos (i :: rest))
    (hi : ∀ maxSteps, instruction (E.image maxSteps) i s.next = .ok false s₁) : E.Steps s s₁ :=
  hcode.steps h.unit_eq h.ip_eq hi

/-- An instruction that sets a scratch register. -/
theorem set {v : Word} (h : Running E F pos height σ s)
    (hcode : E.CodeAt F.owner pos (i :: rest)) (hrsp : r ≠ .rsp) (hrbp : r ≠ .rbp)
    (hi : ∀ maxSteps, instruction (E.image maxSteps) i s.next = .ok false (s.next.setReg r v)) :
    ∃ s₁, E.Steps s s₁ ∧ Running E F (pos + 1) height σ s₁ ∧ s₁.memory = s.memory ∧
      s₁.regs.get r = v ∧ ∀ r', r' ≠ r → s₁.regs.get r' = s.regs.get r' := by
  have hget : ∀ r', (s.next.setReg r v).regs.get r' = if r = r' then v else s.regs.get r' :=
    fun r' => Registers.get_set s.regs r r' v
  refine ⟨_, h.step hcode hi, ?_, rfl, (hget r).trans (if_pos rfl),
    fun r' hr' => (hget r').trans (if_neg hr'.symm)⟩
  refine h.of_same rfl h.next_ip ?_ ?_ rfl
  · exact (hget .rsp).trans (if_neg hrsp)
  · exact (hget .rbp).trans (if_neg hrbp)

/-- An instruction that changes scratch registers only. -/
theorem setRegs {rs : Registers} (h : Running E F pos height σ s)
    (hcode : E.CodeAt F.owner pos (i :: rest))
    (hi : ∀ maxSteps, instruction (E.image maxSteps) i s.next =
      .ok false { s.next with regs := rs })
    (hrsp : rs.rsp = s.regs.rsp) (hrbp : rs.rbp = s.regs.rbp) :
    ∃ s₁, E.Steps s s₁ ∧ Running E F (pos + 1) height σ s₁ ∧ s₁.memory = s.memory ∧
      s₁.regs = rs :=
  ⟨_, h.step hcode hi, h.of_same rfl h.next_ip hrsp hrbp rfl, rfl, rfl⟩

/-- An instruction that sets the words compared. -/
theorem compare {x y : Word} (h : Running E F pos height σ s)
    (hcode : E.CodeAt F.owner pos (i :: rest))
    (hi : ∀ maxSteps, instruction (E.image maxSteps) i s.next = .ok false (s.next.compared x y)) :
    ∃ s₁, E.Steps s s₁ ∧ Running E F (pos + 1) height σ s₁ ∧ s₁.memory = s.memory ∧
      s₁.regs = s.regs ∧ s₁.lhs = x ∧ s₁.rhs = y :=
  ⟨_, h.step hcode hi, h.of_same rfl h.next_ip rfl rfl rfl, rfl, rfl, rfl, rfl⟩

/-- A write to the data area. -/
theorem storeData {a : Address} {v : Word} (hfits : E.Fits) (h : Running E F pos height σ s)
    (hcode : E.CodeAt F.owner pos (i :: rest)) (ha : E.world.isData a = true)
    (hi : ∀ maxSteps, instruction (E.image maxSteps) i s.next = .ok false (s.next.setWord a v)) :
    ∃ s₁, E.Steps s s₁ ∧ Running E F (pos + 1) height (σ.setData a v) s₁ ∧
      Kept height s s₁ ∧ s₁.regs = s.regs := by
  have hword : ∀ k, k ≤ E.stackWords → (s.next.setWord a v).stackWord k = s.stackWord k :=
    fun k hk => s.next.stackWord_setWord_data hfits ha v hk
  refine ⟨_, h.step hcode hi, ?_, fun k _ hk => hword k (hk.trans h.room), rfl⟩
  refine { unit_eq := h.unit_eq, ip_eq := h.next_ip, rsp_eq := h.rsp_eq, rbp_eq := h.rbp_eq,
           room := h.room, top_le := h.top_le, data := ?_, locals := ?_ }
  · intro b hb
    rw [MachineState.setWord_memory, Memory.read_write, Store.setData_data]
    exact if_congr Iff.rfl rfl (h.data b hb)
  · intro j name w hname hw
    have hj : j < F.names.length := (List.getElem?_eq_some_iff.mp hname).1
    rw [hword _ ((h.slot_le hj).trans h.room)]
    exact h.locals j name w hname hw

/-- A write to the slot of a local. -/
theorem storeSlot {j : Nat} {id : String} {v : Word} (hfits : E.Fits)
    (h : Running E F pos height σ s) (hcode : E.CodeAt F.owner pos (i :: rest))
    (hid : F.names[j]? = some id)
    (hi : ∀ maxSteps, instruction (E.image maxSteps) i s.next =
      .ok false (s.next.setWord (stackAddress (F.slot j)) v)) :
    ∃ s₁, E.Steps s s₁ ∧ Running E F (pos + 1) height (σ.setLocal id v) s₁ ∧
      KeptOutside F s s₁ ∧ s₁.regs = s.regs := by
  have hj : j < F.names.length := (List.getElem?_eq_some_iff.mp hid).1
  have hslot : F.slot j ≤ E.stackWords := (h.slot_le hj).trans h.room
  have hword : ∀ k, k ≤ E.stackWords → (s.next.setWord (stackAddress (F.slot j)) v).stackWord k =
      if F.slot j = k then v else s.stackWord k :=
    fun k hk => s.next.stackWord_setWord_stack hfits hk hslot v
  refine ⟨_, h.step hcode hi, ?_, ?_, rfl⟩
  · refine { unit_eq := h.unit_eq, ip_eq := h.next_ip, rsp_eq := h.rsp_eq, rbp_eq := h.rbp_eq,
             room := h.room, top_le := h.top_le, data := ?_, locals := ?_ }
    · intro b hb
      rw [MachineState.setWord_memory, Memory.read_write,
        if_neg (Setting.stackAddress_ne_data hfits hslot hb)]
      exact h.data b hb
    · intro k name w hname hw
      have hk : k < F.names.length := (List.getElem?_eq_some_iff.mp hname).1
      rw [hword _ ((h.slot_le hk).trans h.room)]
      by_cases hjk : j = k
      · subst hjk
        obtain rfl : id = name := Option.some.inj (hid.symm.trans hname)
        rw [Store.setLocal_locals, if_pos rfl] at hw
        rw [if_pos rfl]
        exact Option.some.inj hw
      · have hne : name ≠ id := by
          rintro rfl
          exact hjk ((List.getElem?_inj hj F.distinct).mp (hid.trans hname.symm))
        rw [Store.setLocal_locals, if_neg hne] at hw
        rw [if_neg (fun heq => hjk (Frame.slot_inj heq))]
        exact h.locals k name w hname hw
  · intro k hpos hout
    have hk : k ≤ E.stackWords := (Frame.le_top_of_isOutside hout).trans (h.top_le.trans h.room)
    rw [hword k hk, if_neg]
    rintro rfl
    exact Frame.not_isOutside_slot j hout

theorem push (hfits : E.Fits) (h : Running E F pos height σ s)
    (hcode : E.CodeAt F.owner pos (Emit.push line (.ofReg r) :: rest))
    (hroom : height + 1 ≤ E.stackWords) :
    ∃ s₁, E.Steps s s₁ ∧ Running E F (pos + 1) (height + 1) σ s₁ ∧ Kept height s s₁ ∧
      s₁.stackWord (height + 1) = s.regs.get r ∧
      ∀ r', r' ≠ .rsp → s₁.regs.get r' = s.regs.get r' := by
  have hrsp : s.next.regs.rsp - 8 = stackPointer (height + 1) := by
    rw [MachineState.next_regs, h.rsp_eq, stackPointer_sub]
  have hword : ∀ k, k ≤ E.stackWords →
      ((s.next.setReg .rsp (s.next.regs.rsp - 8)).setWord (stackAddress (height + 1))
        (s.regs.get r)).stackWord k =
      if height + 1 = k then s.regs.get r else s.stackWord k :=
    fun k hk => (s.next.setReg .rsp _).stackWord_setWord_stack hfits hk hroom _
  have hread : ∀ maxSteps, Exec.read (E.image maxSteps) (.ofReg r) s.next =
      .ok (s.regs.get r) s.next := fun _ => rfl
  refine ⟨_, h.step hcode fun maxSteps => instruction_push (hread maxSteps)
    (by rw [hrsp, toUInt64_stackPointer]) (Setting.not_lt_stackLimit hfits hroom maxSteps)
    (Setting.accessible_stack hfits (Nat.succ_pos _) hroom maxSteps), ?_, ?_, ?_, ?_⟩
  · refine { unit_eq := h.unit_eq, ip_eq := h.next_ip, rsp_eq := hrsp, rbp_eq := h.rbp_eq,
             room := hroom, top_le := h.top_le.trans (Nat.le_succ _), data := ?_, locals := ?_ }
    · intro b hb
      rw [MachineState.setWord_memory, Memory.read_write,
        if_neg (Setting.stackAddress_ne_data hfits hroom hb)]
      exact h.data b hb
    · intro k name w hname hw
      have hk := h.slot_le (List.getElem?_eq_some_iff.mp hname).1
      rw [hword _ (hk.trans h.room), if_neg (by omega)]
      exact h.locals k name w hname hw
  · intro k _ hk
    rw [hword k (hk.trans h.room), if_neg (by omega)]
  · rw [hword _ hroom, if_pos rfl]
  · intro r' hr'
    exact (Registers.get_set s.regs .rsp r' _).trans (if_neg hr'.symm)

theorem pop (hfits : E.Fits) (h : Running E F pos (height + 1) σ s)
    (hcode : E.CodeAt F.owner pos (Emit.pop line (.ofReg r) :: rest)) (htop : F.top ≤ height)
    (hrsp : r ≠ .rsp) (hrbp : r ≠ .rbp) :
    ∃ s₁, E.Steps s s₁ ∧ Running E F (pos + 1) height σ s₁ ∧ s₁.memory = s.memory ∧
      s₁.regs.get r = s.stackWord (height + 1) ∧
      ∀ r', r' ≠ .rsp → r' ≠ r → s₁.regs.get r' = s.regs.get r' := by
  have haddress : s.next.regs.rsp.toUInt64 = stackAddress (height + 1) := by
    rw [MachineState.next_regs, h.rsp_eq, toUInt64_stackPointer]
  have hup : s.next.regs.rsp + 8 = stackPointer height := by
    rw [MachineState.next_regs, h.rsp_eq, stackPointer_add]
  have hget : ∀ r', (((s.next.setReg .rsp (s.next.regs.rsp + 8)).setReg r
      (s.next.memory.read s.next.regs.rsp.toUInt64)).regs.get r') =
      if r = r' then s.stackWord (height + 1)
      else if .rsp = r' then stackPointer height else s.regs.get r' := by
    intro r'
    rw [MachineState.setReg_regs, Registers.get_set, MachineState.setReg_regs, Registers.get_set,
      haddress, hup]
    rfl
  refine ⟨_, h.step hcode fun maxSteps => instruction_pop
    (by rw [haddress]; exact Setting.accessible_stack hfits (Nat.succ_pos _) h.room maxSteps),
    ?_, rfl, (hget r).trans (if_pos rfl), ?_⟩
  · refine { unit_eq := h.unit_eq, ip_eq := h.next_ip, rsp_eq := ?_, rbp_eq := ?_,
             room := (Nat.le_succ _).trans h.room, top_le := htop, data := h.data,
             locals := h.locals }
    · exact (hget .rsp).trans ((if_neg hrsp).trans (if_pos rfl))
    · exact ((hget .rbp).trans (if_neg hrbp)).trans ((if_neg (by decide)).trans h.rbp_eq)
  · intro r' hr hr'
    rw [hget, if_neg hr'.symm, if_neg hr.symm]

/-- A label is only passed. -/
theorem label {name : String} (h : Running E F pos height σ s)
    (hcode : E.CodeAt F.owner pos (.labelled name line :: rest)) :
    ∃ s₁, E.Steps s s₁ ∧ Running E F (pos + 1) height σ s₁ ∧ s₁.memory = s.memory ∧
      s₁.regs = s.regs :=
  ⟨_, h.step hcode fun _ => instruction_labelled name, h.of_same rfl h.next_ip rfl rfl rfl, rfl, rfl⟩

theorem jump {name : String} {k : Nat} (h : Running E F pos height σ s)
    (hcode : E.CodeAt F.owner pos (Emit.jump line .jmp name :: rest))
    (htarget : E.target? F.owner name = some k) :
    ∃ s₁, E.Steps s s₁ ∧ Running E F k height σ s₁ ∧ s₁.memory = s.memory ∧ s₁.regs = s.regs := by
  refine ⟨_, h.step hcode fun maxSteps => instruction_jmp ?_, h.of_same rfl rfl rfl rfl rfl,
    rfl, rfl⟩
  rw [MachineState.next_unit, h.unit_eq]
  exact (Image.target?_ofProgram _ _ _ _).trans htarget

/-- A conditional jump looks at the words compared last. -/
theorem branch {m : Mnemonic} {name : String} {k : Nat} (h : Running E F pos height σ s)
    (hcode : E.CodeAt F.owner pos (Emit.jump line m name :: rest))
    (hm : m.isConditionalJump = true) (htarget : E.target? F.owner name = some k) :
    ∃ s₁, E.Steps s s₁ ∧
      Running E F (if conditionHolds m s.lhs s.rhs then k else pos + 1) height σ s₁ ∧
      s₁.memory = s.memory ∧ s₁.regs = s.regs := by
  cases hholds : conditionHolds m s.lhs s.rhs with
  | true =>
      refine ⟨_, h.step hcode fun maxSteps => instruction_branch_taken hm hholds ?_,
        h.of_same rfl rfl rfl rfl rfl, rfl, rfl⟩
      rw [MachineState.next_unit, h.unit_eq]
      exact (Image.target?_ofProgram _ _ _ _).trans htarget
  | false =>
      exact ⟨_, h.step hcode fun maxSteps => instruction_branch_passed hm hholds,
        h.of_same rfl h.next_ip rfl rfl rfl, rfl, rfl⟩

end Running

end Arbor
