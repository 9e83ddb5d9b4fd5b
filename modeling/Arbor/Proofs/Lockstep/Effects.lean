import Mathlib.Tactic
import Arbor.Proofs.Lockstep.Step

/-!
The instructions that go on to the next position, one by one. Each has the same effect in
both runs, and the effect leads from the shape before it to the shape after it.
-/

namespace Arbor

open Exec

theorem Reg.ne_rsp_of_isScratch {r : Reg} (h : r.isScratch) : r ≠ .rsp := by
  rintro rfl
  cases h

theorem Reg.ne_rbp_of_isScratch {r : Reg} (h : r.isScratch) : r ≠ .rbp := by
  rintro rfl
  cases h

/-- The shape does not look at the other registers. -/
theorem Shape.Stands.congr {base : Nat} {callers : List Activation} {rs rs' : Registers}
    {σ : Shape} (h : σ.Stands base callers rs) (hrsp : rs'.rsp = rs.rsp) (hrbp : rs'.rbp = rs.rbp) :
    σ.Stands base callers rs' := by
  cases σ with
  | outside | saved | based | inside | compared =>
      simp only [Stands, hrsp, hrbp]
      exact h

namespace Lockstep

variable {L : Lockstep} {f : Activation} {callers : List Activation} {σ σ' : Shape}
  {i : Instruction} {s s' t : MachineState} {b : Bool}

/-- An instruction sets the registers in the same way in both runs. -/
def Sets (L : Lockstep) (i : Instruction) (s : MachineState) (regs : Registers) : Prop :=
  instruction L.source i s = .ok false (s.after { regs := regs }) ∧
    ∀ t, t.regs = s.regs → instruction L.target i t = .ok false (t.after { regs := regs })

theorem sets_mov (r r' : Reg) (line : UInt32) :
    L.Sets (.make .mov [.ofReg r, .ofReg r'] line) s (s.regs.set r (s.regs.get r')) := by
  refine ⟨instruction_mov_reg rfl, fun t ht => ?_⟩
  rw [← ht]
  exact instruction_mov_reg rfl

theorem sets_add (r : Reg) (v : Word) (line : UInt32) :
    L.Sets (.make .add [.ofReg r, .imm v] line) s (s.regs.set r (s.regs.get r + v)) := by
  refine ⟨instruction_add rfl, fun t ht => ?_⟩
  rw [← ht]
  exact instruction_add rfl

theorem sets_sub (r : Reg) (v : Word) (line : UInt32) :
    L.Sets (.make .sub [.ofReg r, .imm v] line) s (s.regs.set r (s.regs.get r - v)) := by
  refine ⟨instruction_sub rfl, fun t ht => ?_⟩
  rw [← ht]
  exact instruction_sub rfl

/-- Computing sets registers that are free for values. -/
theorem sets_of_computes (hi : i.Computes) (h : instruction L.source i s = .ok b s') :
    ∃ regs, regs.rsp = s.regs.rsp ∧ regs.rbp = s.regs.rbp ∧ L.Sets i s regs := by
  cases hi with
  | @lea r symbol line hr =>
      obtain ⟨a, ha⟩ := instruction_lea_eq_ok h
      refine ⟨s.regs.set r a.toInt64, Registers.rsp_set (Reg.ne_rsp_of_isScratch hr),
        Registers.rbp_set (Reg.ne_rbp_of_isScratch hr), instruction_lea ha, fun t ht => ?_⟩
      rw [← ht]
      exact instruction_lea ((symbolAddress_target symbol).trans ha)
  | @combine m x y line hm hx hy =>
      have hrsp : ∀ {rs v}, (Registers.set rs x v).rsp = rs.rsp :=
        Registers.rsp_set (Reg.ne_rsp_of_isScratch hx)
      have hrbp : ∀ {rs v}, (Registers.set rs x v).rbp = rs.rbp :=
        Registers.rbp_set (Reg.ne_rbp_of_isScratch hx)
      simp only [List.mem_cons, List.not_mem_nil, or_false] at hm
      rcases hm with rfl | rfl | rfl | rfl
      · refine ⟨s.regs.set x (s.regs.get x + s.regs.get y), hrsp, hrbp, instruction_add rfl,
          fun t ht => ?_⟩
        rw [← ht]
        exact instruction_add rfl
      · refine ⟨s.regs.set x (s.regs.get x - s.regs.get y), hrsp, hrbp, instruction_sub rfl,
          fun t ht => ?_⟩
        rw [← ht]
        exact instruction_sub rfl
      · refine ⟨s.regs.set x (s.regs.get x * s.regs.get y), hrsp, hrbp, instruction_imul rfl,
          fun t ht => ?_⟩
        rw [← ht]
        exact instruction_imul rfl
      · refine ⟨(s.regs.set x (s.regs.get y)).set y (s.regs.get x),
          (Registers.rsp_set (Reg.ne_rsp_of_isScratch hy)).trans hrsp,
          (Registers.rbp_set (Reg.ne_rbp_of_isScratch hy)).trans hrbp, instruction_xchg x y,
          fun t ht => ?_⟩
        rw [← ht]
        exact instruction_xchg x y
  | extend =>
      refine ⟨s.regs.set .rdx (signWord s.regs.rax), rfl, rfl, instruction_cqo, fun t ht => ?_⟩
      rw [← ht]
      exact instruction_cqo
  | @divide r line hr =>
      obtain ⟨hzero, hwide, hfits⟩ := instruction_idiv_eq_ok h
      refine ⟨(s.regs.set .rax (s.regs.rax / s.regs.get r)).set .rdx (s.regs.rax % s.regs.get r),
        rfl, rfl, instruction_idiv hzero hwide hfits, fun t ht => ?_⟩
      rw [← ht] at hzero hwide hfits ⊢
      exact instruction_idiv hzero hwide hfits

theorem slotWritten?_of_computes (hi : i.Computes) : i.slotWritten? = none := by
  cases hi with
  | lea | extend | divide => rfl
  | combine hm =>
      simp only [List.mem_cons, List.not_mem_nil, or_false] at hm
      rcases hm with rfl | rfl | rfl | rfl <;> rfl

/-- A change of registers alone. -/
theorem Paired.suits_quiet (hp : L.Paired f callers σ s t) {c : Change} (hword : c.word = none)
    (hstands : σ'.Stands f.base callers c.regs)
    (hwithin : σ'.Within L.limits.maxStackWords f.unit.slots f.base)
    (hflags : ∀ height, σ' = .compared height → c.flags.isSome ∨ σ = .compared height)
    (houtside : σ' ≠ .outside → σ ≠ .outside) (hslot : i.slotWritten? = none)
    (hdepth : σ'.depth ≤ σ.depth ∨ σ'.depth ≤ f.unit.slots) : L.Suits f callers σ σ' i c where
  stands := hstands
  within := hwithin
  flags := hflags
  anchored := by
    intro place m hanchored
    rw [hword]
    exact Anchored.mono hanchored houtside
  slot := by
    intro d hd
    rw [hslot] at hd
    cases hd
  pushed := by
    intro x hlow hhigh
    have htop := hp.top_eq
    omega

/-- Both runs execute the instruction with the same change. -/
def Matches (L : Lockstep) (f : Activation) (callers : List Activation) (σ σ' : Shape)
    (i : Instruction) (s t s' : MachineState) : Prop :=
  ∃ c, s' = s.next.after c ∧ instruction L.target i t.next = .ok false (t.next.after c) ∧
    L.Suits f callers σ σ' i c

/-- An instruction that sets registers leads to a shape that stands on them. -/
theorem Paired.matches_sets (hp : L.Paired f callers σ s t) {regs : Registers}
    (hsets : L.Sets i s.next regs) (h : instruction L.source i s.next = .ok b s')
    (hstands : σ'.Stands f.base callers regs)
    (hwithin : σ'.Within L.limits.maxStackWords f.unit.slots f.base)
    (hflags : ∀ height, σ' ≠ .compared height) (houtside : σ' ≠ .outside → σ ≠ .outside)
    (hslot : i.slotWritten? = none) (hdepth : σ'.depth ≤ σ.depth ∨ σ'.depth ≤ f.unit.slots) :
    b = false ∧ L.Matches f callers σ σ' i s t s' := by
  rw [hsets.1] at h
  cases h
  refine ⟨rfl, { regs := regs }, rfl, hsets.2 t.next hp.regs_eq, ?_⟩
  exact hp.suits_quiet rfl hstands hwithin (fun height heq => absurd heq (hflags height)) houtside
    hslot hdepth

/-- A push writes the word above the stack. -/
theorem Paired.matches_push (hL : L.Sound) (hp : L.Paired f callers σ s t) {r : Reg} {x : Nat}
    {line : UInt32} (hi : i = .make .push [.ofReg r] line) (hrsp : s.regs.rsp = stackPointer x)
    (hx : x ≤ L.limits.maxStackWords + f.unit.slots)
    (h : instruction L.source i s.next = .ok b s')
    (hsuits : x + 1 ≤ L.limits.maxStackWords → L.Suits f callers σ σ' i
      { regs := s.regs.set .rsp (stackPointer (x + 1)),
        word := some (stackAddress (x + 1), s.regs.get r) }) :
    b = false ∧ L.Matches f callers σ σ' i s t s' := by
  subst hi
  obtain ⟨rfl, hpush⟩ := instruction_push_eq_ok h
  obtain ⟨hlimit, haccess, rfl⟩ := push_eq_ok hpush
  have hsub : s.regs.rsp - 8 = stackPointer (x + 1) := by rw [hrsp, stackPointer_sub]
  rw [MachineState.next_regs] at hlimit haccess ⊢
  rw [hsub, toUInt64_stackPointer] at hlimit haccess ⊢
  have hframe := hL.frame_lt hp.owner
  refine ⟨rfl, _, rfl, ?_, hsuits (le_of_pushed hL.fits (by omega) haccess hlimit)⟩
  have hsub' : t.next.regs.rsp - 8 = stackPointer (x + 1) := by
    rw [MachineState.next_regs, hp.regs_eq, hsub]
  have hread : Exec.read L.target (.ofReg r) t.next = .ok (t.regs.get r) t.next := rfl
  have hpush' : instruction L.target (.make .push [.ofReg r] line) t.next =
      .ok false ((t.next.setReg .rsp (t.next.regs.rsp - 8)).setWord (stackAddress (x + 1))
        (t.regs.get r)) :=
    instruction_push hread (by rw [hsub', toUInt64_stackPointer])
      (by rw [hL.stackLimit_target]; exact hlimit) (by rw [hL.accessTrap?_target]; exact haccess)
  rw [hpush', hsub', ← hp.regs_eq]
  rfl

/-- A pop reads the word on top of the stack, which is the same in both runs. -/
theorem Paired.matches_pop (hL : L.Sound) (hp : L.Paired f callers σ s t) {r : Reg} {x : Nat}
    {v : Word} {line : UInt32} (hi : i = .make .pop [.ofReg r] line)
    (hrsp : s.regs.rsp = stackPointer (x + 1)) (hv : s.memory.read (stackAddress (x + 1)) = v)
    (hv' : t.memory.read (stackAddress (x + 1)) = v)
    (h : instruction L.source i s.next = .ok b s')
    (hsuits : L.Suits f callers σ σ' i
      { regs := (s.regs.set .rsp (stackPointer x)).set r v }) :
    b = false ∧ L.Matches f callers σ σ' i s t s' := by
  subst hi
  obtain ⟨rfl, haccess, rfl⟩ := instruction_pop_eq_ok h
  rw [MachineState.next_regs, hrsp, toUInt64_stackPointer] at haccess
  have haccess' : L.target.accessTrap? t.next.regs.rsp.toUInt64 = none := by
    rw [MachineState.next_regs, hp.regs_eq, hrsp, toUInt64_stackPointer, hL.accessTrap?_target]
    exact haccess
  refine ⟨rfl, _, ?_, ?_, hsuits⟩
  · rw [MachineState.next_regs, MachineState.next_memory, hrsp, stackPointer_add,
      toUInt64_stackPointer, hv]
    rfl
  · rw [← Emit.pop, instruction_pop haccess', MachineState.next_regs, MachineState.next_memory,
      hp.regs_eq, hrsp, stackPointer_add, toUInt64_stackPointer, hv', ← hp.regs_eq]
    rfl

/-- The words of the callers are above the parameters. -/
theorem Stacked.floor_cases {params base : Nat} (h : L.Stacked params base callers) :
    floorOf callers = 0 ∨ floorOf callers + params + 2 = base := by
  cases callers with
  | nil => exact .inl rfl
  | cons g rest => exact .inr h.1.symm

/-- The address of a memory operand of a move: in the data area, or a slot of the frame. -/
theorem Paired.address_cases (hL : L.Sound) {height : Nat} {o : Operand} {a : Address}
    (hp : L.Paired f callers (.inside height 0) s t) (hi : i ∈ f.unit.code)
    (hoff : L.source.elementsOffStack s i = true) (ho : o ∈ i.operands)
    (hmovable : o.Movable f.unit.frameSize) (hkind : o.kind = .memory)
    (haddress : addressOf L.source o s.next = .ok a s.next) (haccess : L.Accessible a) :
    (L.IsData a ∧ o.isFrame = false) ∨
      ∃ d, o = .frameSlot d ∧ f.unit.frameSize.HasSlot d ∧ a = slotAddress f.base d := by
  cases hmovable with
  | reg => cases hkind
  | imm => cases hkind
  | @slot d hd =>
      right
      refine ⟨d, rfl, hd, ?_⟩
      rw [addressOf_frameSlot, MachineState.next_regs, hp.stands.2, toUInt64_stackPointer] at haddress
      cases haddress
      rfl
  | @element base index hbase hindex d =>
      left
      have hindex' : index ≠ .none := by
        rintro rfl
        cases hindex
      rw [addressOf_element base hindex' d] at haddress
      cases haddress
      have hstack := List.all_eq_true.mp hoff _ ho
      have helement : (Operand.element base index d).isElement = true := by
        simp [Operand.isElement, Operand.element, hindex']
      rw [helement, Bool.not_true, Bool.false_or, Bool.not_eq_true'] at hstack
      refine ⟨isData_of_accessible haccess hstack, ?_⟩
      have hrbp := Reg.ne_rbp_of_isScratch hbase
      simp [Operand.isFrame, Operand.element, hrbp]
  | global symbol d =>
      left
      obtain ⟨hempty, placement, hfind, hdata⟩ :=
        hL.globals f.unit (List.mem_of_getElem? hp.owner) i hi symbol d ho
      have hsymbol : L.source.symbolAddress symbol = .ok placement.address := by
        unfold Image.symbolAddress
        rw [show L.source.layout.find? symbol = some placement from hfind]
      rw [addressOf_global hempty hsymbol d] at haddress
      cases haddress
      refine ⟨hdata, ?_⟩
      simp [Operand.isFrame, Operand.global]

/-- A function may write to the data area. -/
theorem Paired.free_data (hL : L.Sound) {a : Address} (hp : L.Paired f callers σ s t)
    (hbase : f.base ≤ L.limits.maxStackWords) (ha : L.IsData a) : Free f.base callers a := by
  intro x hx heq
  have hfloor := hp.stacked.floor_le
  have hheight := height_stackAddress (x := x) hL.fits (by omega)
  rw [heq] at hheight
  exact not_isData_of_height hheight hL.fits (by omega) ha

/-- The slots of a function lie between the words of its callers and those it has pushed, and
are none of the words that lead back. -/
theorem Paired.height_of_slot (hL : L.Sound) {d : Word} (hp : L.Paired f callers σ s t)
    (hbase : f.base ≤ L.limits.maxStackWords) (hd : f.unit.frameSize.HasSlot d)
    (haccess : L.Accessible (slotAddress f.base d)) :
    ∃ z, Height (slotAddress f.base d) z ∧ floorOf callers < z ∧ z ≠ f.base ∧ z + 1 ≠ f.base ∧
      z ≤ f.base + f.unit.slots := by
  obtain ⟨z, hz, hpos, hcases⟩ :=
    height_slot hL.fits (hL.frame_lt hp.owner) (Nat.le_succ_of_le hbase) hd haccess
  have hfloor := hp.stacked.floor_le
  have hfloors := hp.stacked.floor_cases
  exact ⟨z, hz, by omega, by omega, by omega, by omega⟩

/-- A function may write to its slots. -/
theorem Paired.free_slot (hL : L.Sound) {d : Word} (hp : L.Paired f callers σ s t)
    (hbase : f.base ≤ L.limits.maxStackWords) (hd : f.unit.frameSize.HasSlot d)
    (haccess : L.Accessible (slotAddress f.base d)) : Free f.base callers (slotAddress f.base d) := by
  intro x hx heq
  have hfloor := hp.stacked.floor_le
  have hheight := height_stackAddress (x := x) hL.fits (by omega)
  obtain ⟨z, hz, hbounds⟩ := hp.height_of_slot hL hbase hd haccess
  rw [heq] at hheight
  have heq := hheight.unique hz
  omega

/-- A source operand stands for the same word in both runs. -/
theorem Paired.read_target (hL : L.Sound) {height : Nat} {dst src : Operand} {line : UInt32}
    {v : Word} (hp : L.Paired f callers (.inside height 0) s t)
    (hi : f.unit.code[f.ip]? = some (.make .mov [dst, src] line))
    (hloads : (Instruction.make .mov [dst, src] line).loadsStored f.stored = true)
    (hoff : L.source.elementsOffStack s (.make .mov [dst, src] line) = true)
    (hsrc : src.Movable f.unit.frameSize)
    (h : Exec.read L.source src s.next = .ok v s.next) :
    Exec.read L.target src t.next = .ok v t.next := by
  refine read_congr symbolAddress_target (fun a ha => ?_) (fun r _ => ?_) ?_ h
  · rw [hL.accessTrap?_target]
    exact ha
  · rw [MachineState.next_regs, MachineState.next_regs, hp.regs_eq]
  · intro a hkind haddress haccess
    symm
    rcases hp.address_cases hL (List.mem_of_getElem? hi) hoff (by simp [Instruction.make]) hsrc
      hkind haddress haccess with ⟨hdata, -⟩ | ⟨d, rfl, hd, rfl⟩
    · exact hp.data a hdata
    · have hread : d ∈ (Instruction.make .mov [dst, .frameSlot d] line).slotsRead := by
        simp only [Instruction.slotsRead, Instruction.slotReaders, List.mem_map, List.mem_filter]
        refine ⟨.frameSlot d, ⟨?_, rfl⟩, rfl⟩
        cases (Instruction.make .mov [dst, .frameSlot d] line).slotWritten? <;>
          simp [Instruction.make]
      have hplan := hL.plans f.unit (List.mem_of_getElem? hp.owner)
      have hstored := List.all_eq_true.mp hloads d hread
      simp only [Bool.or_eq_true, decide_eq_true_eq, List.contains_iff_mem] at hstored
      exact hp.words f List.mem_cons_self _
        (.slot hd ⟨hplan.reads f.ip _ d hi hread, hstored⟩ haccess)

/-- A move inside the frame. -/
theorem Paired.matches_move (hL : L.Sound) {height : Nat} {dst src : Operand} {line : UInt32}
    (hp : L.Paired f callers (.inside height 0) s t)
    (hi : f.unit.code[f.ip]? = some (.make .mov [dst, src] line))
    (hloads : (Instruction.make .mov [dst, src] line).loadsStored f.stored = true)
    (hoff : L.source.elementsOffStack s (.make .mov [dst, src] line) = true)
    (hdst : dst.Movable f.unit.frameSize) (hsrc : src.Movable f.unit.frameSize)
    (h : instruction L.source (.make .mov [dst, src] line) s.next = .ok b s') :
    b = false ∧ L.Matches f callers (.inside height 0) (.inside height 0)
      (.make .mov [dst, src] line) s t s' := by
  obtain ⟨rfl, v, hread, hwrite⟩ := instruction_mov_eq_ok h
  have hread' := hp.read_target hL hi hloads hoff hsrc hread
  have hwithin : f.base ≤ L.limits.maxStackWords ∧ _ := hp.within
  refine ⟨rfl, ?_⟩
  rcases write_eq_ok hwrite with ⟨hkind, rfl⟩ | ⟨hkind, a, haddress, haccess, rfl⟩
  · cases hdst with
    | imm | slot | element | global => cases hkind
    | @reg r hr =>
        refine ⟨{ regs := s.regs.set r v }, rfl, ?_, ?_⟩
        · rw [← Emit.mov, instruction_mov_reg hread', ← hp.regs_eq]
          rfl
        · apply hp.suits_quiet rfl _ hp.within _ id rfl (.inl (Nat.le_refl _))
          · exact hp.stands.congr (Registers.rsp_set (Reg.ne_rsp_of_isScratch hr))
              (Registers.rbp_set (Reg.ne_rbp_of_isScratch hr))
          · intro _ heq
            cases heq
  · have hcases := hp.address_cases hL (List.mem_of_getElem? hi) hoff (by simp [Instruction.make])
      hdst hkind haddress haccess
    have hfree : Free f.base callers a := by
      rcases hcases with ⟨hdata, -⟩ | ⟨d, -, hd, rfl⟩
      · exact hp.free_data hL hwithin.1 hdata
      · exact hp.free_slot hL hwithin.1 hd haccess
    have haddress' : addressOf L.target dst t.next = .ok a t.next := by
      refine (addressOf_congr symbolAddress_target (fun r _ => ?_) haddress).2
      rw [MachineState.next_regs, MachineState.next_regs, hp.regs_eq]
    have hwrite' := write_of_address (v := v) hkind haddress'
      ((hL.accessTrap?_target a).trans haccess)
    refine ⟨{ regs := s.regs, word := some (a, v) }, rfl, ?_, ?_⟩
    · rw [← Emit.mov, instruction_mov hread' hwrite', ← hp.regs_eq]
      rfl
    · exact {
        stands := hp.stands
        within := hp.within
        flags := by
          intro _ heq
          cases heq
        anchored := fun place m hanchored => hp.stacked.anchored_write hanchored hfree
        slot := by
          intro d hd
          rcases hcases with ⟨-, hframe⟩ | ⟨d', rfl, -, rfl⟩
          · simp [Instruction.slotWritten?, Instruction.make, hframe] at hd
          · cases hd
            exact ⟨v, rfl⟩
        pushed := fun x _ hhigh => .inl (hhigh.trans (Nat.le_of_eq hp.top_eq.symm)) }

/-- The first instruction of a function saves the frame base of the caller. -/
theorem Paired.suits_pushBase (hL : L.Sound) (hp : L.Paired f callers .outside s t)
    (hroom : f.base ≤ L.limits.maxStackWords) (hslot : i.slotWritten? = none) :
    L.Suits f callers .outside .saved i
      { regs := s.regs.set .rsp (stackPointer f.base),
        word := some (stackAddress f.base, s.regs.rbp) } where
  stands := by
    refine ⟨Registers.rsp_set_rsp, ?_⟩
    rw [Registers.rbp_set (by simp)]
    exact hp.stands.2
  within := hroom
  flags := by
    intro _ heq
    cases heq
  anchored := by
    intro place m hanchored
    have hfloor := hp.stacked.floor_le
    have hfits := hL.fits
    have hother : ∀ x < f.base, stackAddress x ≠ stackAddress f.base := by
      intro x hx heq
      have hheight := height_stackAddress (x := x) hfits (by omega)
      rw [heq] at hheight
      have := hheight.unique (height_stackAddress (x := f.base) hfits (by omega))
      omega
    refine ⟨?_, fun _ => ?_, ?_⟩
    · rw [Memory.after, Memory.read_write, if_neg (hother _ (by omega)).symm]
      exact hanchored.returns
    · rw [Memory.after, Memory.read_write_self]
      exact hp.stands.2
    · exact hp.stacked.linked_write hanchored.linked fun x hx => hother x (by omega)
  slot := by
    intro d hd
    rw [hslot] at hd
    cases hd
  pushed := by
    intro x hlow hhigh
    simp only [Shape.depth] at hhigh
    omega

/-- A function pushes a word of its own. -/
theorem Paired.suits_push (hL : L.Sound) {height : Nat} {v : Word}
    (hp : L.Paired f callers (.inside height 0) s t)
    (hroom : f.base + height + 1 ≤ L.limits.maxStackWords) (hslot : i.slotWritten? = none) :
    L.Suits f callers (.inside height 0) (.inside (height + 1) 0) i
      { regs := s.regs.set .rsp (stackPointer (f.base + height + 1)),
        word := some (stackAddress (f.base + height + 1), v) } where
  stands := by
    refine ⟨Registers.rsp_set_rsp, ?_⟩
    rw [Registers.rbp_set (by simp)]
    exact hp.stands.2
  within := ⟨by omega, by omega⟩
  flags := by
    intro _ heq
    cases heq
  anchored := by
    intro place m hanchored
    have hfloor := hp.stacked.floor_le
    have hfits := hL.fits
    refine (hp.stacked.anchored_write hanchored fun x hx heq => ?_).mono (by simp)
    have hheight := height_stackAddress (x := x) hfits (by omega)
    rw [heq] at hheight
    have := hheight.unique (height_stackAddress (x := f.base + height + 1) hfits (by omega))
    omega
  slot := by
    intro d hd
    rw [hslot] at hd
    cases hd
  pushed := by
    intro x hlow hhigh
    have htop : f.top = f.base + height := hp.top_eq
    have hhigh : x ≤ f.base + (height + 1) := hhigh
    by_cases hx : x = f.base + height + 1
    · subst hx
      exact .inr ⟨v, rfl⟩
    · left
      omega

/-- A comparison leaves two words for the branch after it. -/
theorem Paired.matches_compare {height : Nat} {m : Mnemonic} {x y : Reg} {line : UInt32}
    (hp : L.Paired f callers (.inside height 0) s t) (hm : m ∈ [.cmp, .test])
    (h : instruction L.source (.make m [.ofReg x, .ofReg y] line) s.next = .ok b s') :
    b = false ∧ L.Matches f callers (.inside height 0) (.compared height)
      (.make m [.ofReg x, .ofReg y] line) s t s' := by
  have hsuits : ∀ {i : Instruction} flags, i.slotWritten? = none →
      L.Suits f callers (.inside height 0) (.compared height) i
        { regs := s.regs, flags := some flags } :=
    fun flags hslot => hp.suits_quiet rfl hp.stands hp.within (fun _ _ => .inl rfl) (by simp) hslot
      (.inl (Nat.le_refl _))
  simp only [List.mem_cons, List.not_mem_nil, or_false] at hm
  rcases hm with rfl | rfl
  · rw [instruction_cmp] at h
    cases h
    refine ⟨rfl, _, rfl, ?_, hsuits (s.regs.get x, s.regs.get y) rfl⟩
    rw [instruction_cmp, MachineState.next_regs, ← hp.regs_eq]
    rfl
  · rw [instruction_test] at h
    cases h
    refine ⟨rfl, _, rfl, ?_, hsuits (s.regs.get x &&& s.regs.get y, 0) rfl⟩
    rw [instruction_test, MachineState.next_regs, ← hp.regs_eq]
    rfl

/-- Every instruction of a frame that goes on to the next position does the same in both runs. -/
theorem Paired.matches_moves (hL : L.Sound) (hp : L.Paired f callers σ s t)
    (hi : f.unit.code[f.ip]? = some i)
    (hmoves : i.Moves L.program.arity? f.unit.frameSize σ (some σ'))
    (hjump : i.mnemonic.isJump = false) (hcall : i.mnemonic ≠ .call)
    (hloads : i.loadsStored f.stored = true) (hoff : L.source.elementsOffStack s i = true)
    (h : instruction L.source i s.next = .ok b s') :
    b = false ∧ L.Matches f callers σ σ' i s t s' := by
  have hfloor := hp.stacked.floor_le
  generalize hnext : some σ' = next at hmoves
  cases hmoves with
  | jump | external | ret => cases hnext
  | branch hm => simp [Mnemonic.isJump, Instruction.make, hm] at hjump
  | call => exact absurd rfl hcall
  | @pushBase line =>
      cases hnext
      have hwithin : f.base ≤ L.limits.maxStackWords + 1 := hp.within
      have hsucc : f.base - 1 + 1 = f.base := by omega
      refine hp.matches_push hL rfl hp.stands.1 (by omega) h fun hroom => ?_
      rw [hsucc] at hroom ⊢
      exact hp.suits_pushBase hL hroom rfl
  | @setBase line =>
      cases hnext
      have hwithin : f.base ≤ L.limits.maxStackWords := hp.within
      refine hp.matches_sets (sets_mov .rbp .rsp line) h ⟨?_, ?_⟩ ⟨hwithin, by omega⟩ (by simp)
        (by simp) rfl (.inl (Nat.le_refl _))
      · rw [Registers.rsp_set (by simp), Nat.add_zero]
        exact hp.stands.1
      · rw [Registers.rbp_set_rbp]
        exact hp.stands.1
  | @reserve line =>
      cases hnext
      have hwithin := hp.within
      refine hp.matches_sets (sets_sub .rsp _ line) h ⟨?_, ?_⟩ ⟨hwithin.1, ?_⟩ (by simp) (by simp)
        rfl (.inr (Nat.le_refl _))
      · have hrsp : s.regs.rsp = stackPointer (f.base + 0) := hp.stands.1
        have hget : s.next.regs.get .rsp = s.regs.rsp := rfl
        rw [Registers.rsp_set_rsp, hget, hrsp, stackPointer_sub_words, Nat.add_zero]
      · rw [Registers.rbp_set (by simp)]
        exact hp.stands.2
      · have hbase := hwithin.1
        simp only [CompiledUnit.frameSize]
        omega
  | @move height dst src line hh hdst hsrc =>
      cases hnext
      exact hp.matches_move hL hi hloads hoff hdst hsrc h
  | @compute height i hcompute =>
      cases hnext
      obtain ⟨regs, hrsp, hrbp, hsets⟩ := sets_of_computes hcompute h
      exact hp.matches_sets hsets h (hp.stands.congr hrsp hrbp) hp.within (by simp) (by simp)
        (slotWritten?_of_computes hcompute) (.inl (Nat.le_refl _))
  | @compare height m x y line hm =>
      cases hnext
      exact hp.matches_compare hm h
  | @push height r line hh hr =>
      cases hnext
      refine hp.matches_push hL rfl hp.stands.1 ?_ h fun hroom => hp.suits_push hL hroom rfl
      have hwithin := hp.within.2
      omega
  | @pop height r line hh hr =>
      cases hnext
      have hwithin := hp.within
      have hrsp : s.regs.rsp = stackPointer (f.base + height + 1) := hp.stands.1
      have hword := hp.words f List.mem_cons_self _ (.word (x := f.base + height + 1)
        (Nat.lt_succ_of_le (Nat.add_le_add_left hh _)) (Nat.le_of_eq hp.top_eq.symm))
      refine hp.matches_pop hL rfl hrsp rfl hword.symm h (hp.suits_quiet rfl ⟨?_, ?_⟩
        ⟨hwithin.1, Nat.le_of_succ_le hwithin.2⟩ (by simp) (by simp) rfl (.inl (Nat.le_succ _)))
      · rw [Registers.rsp_set (Reg.ne_rsp_of_isScratch hr), Registers.rsp_set_rsp]
      · rw [Registers.rbp_set (Reg.ne_rbp_of_isScratch hr), Registers.rbp_set (by simp)]
        exact hp.stands.2
  | @drop height n line hh =>
      cases hnext
      have hwithin := hp.within
      refine hp.matches_sets (sets_add .rsp _ line) h ⟨?_, ?_⟩ ⟨hwithin.1, ?_⟩ (by simp) (by simp)
        rfl (.inl ?_)
      · have hwords : Int64.ofNat (8 * n) = 8 * Int64.ofNat n := by
          rw [Int64.ofNat_mul]
          rfl
        have hrsp : s.next.regs.get .rsp = stackPointer (f.base + height + n) := by
          rw [Nat.add_assoc]
          exact hp.stands.1
        rw [Registers.rsp_set_rsp, hrsp, ← stackPointer_sub_words, hwords, Int64.sub_add_cancel]
      · rw [Registers.rbp_set (by simp)]
        exact hp.stands.2
      · have hle := hwithin.2
        omega
      · simp only [Shape.depth]
        omega
  | @leave height line =>
      cases hnext
      refine hp.matches_sets (sets_mov .rsp .rbp line) h ⟨?_, ?_⟩ hp.within.1 (by simp) (by simp) rfl
        (.inl (Nat.zero_le _))
      · rw [Registers.rsp_set_rsp]
        exact hp.stands.2
      · rw [Registers.rbp_set (by simp)]
        exact hp.stands.2
  | @popBase line =>
      cases hnext
      have hwithin : f.base ≤ L.limits.maxStackWords := hp.within
      have hsucc : f.base - 1 + 1 = f.base := by omega
      have hrsp : s.regs.rsp = stackPointer (f.base - 1 + 1) := by
        rw [hsucc]
        exact hp.stands.1
      have hsaved : s.memory.read (stackAddress (f.base - 1 + 1)) = baseWord callers := by
        rw [hsucc]
        exact hp.source_anchored.saved (by simp)
      have hsaved' : t.memory.read (stackAddress (f.base - 1 + 1)) = baseWord callers := by
        rw [hsucc]
        exact hp.target_anchored.saved (by simp)
      refine hp.matches_pop hL rfl hrsp hsaved hsaved' h (hp.suits_quiet rfl ⟨?_, ?_⟩
        (Nat.le_succ_of_le hwithin) (by simp) (by simp) rfl (.inl (Nat.zero_le _)))
      · rw [Registers.rsp_set (by simp), Registers.rsp_set_rsp]
      · rw [Registers.rbp_set_rbp]

end Lockstep

end Arbor
