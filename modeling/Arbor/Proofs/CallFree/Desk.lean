import Mathlib.Tactic
import Arbor.Proofs.Simulation.Expression
import Arbor.Proofs.CallFree.Forward

/-!
The place where an expression is evaluated: a unit of a loaded program, with a frame base, a
stack height and the regions of its literals. A poised machine is at a position of the code,
and its memory is what is on the slate, except for the stack words that are free. Each
instruction and each fragment of the code of an expression moves a poised machine to a
poised machine or traps.
-/

namespace Arbor

open Exec Emit

/-- `first` is the number of regions that belong to other text, `top` the height of the stack when
the expression starts, and `bound` the position where its code ends. -/
structure Desk where
  setting : Setting
  maxSteps : Nat
  owner : Nat
  scope : Scope
  regions : List DataRegion
  first : Nat
  promoted : Names
  base : Word
  top : Nat
  bound : Nat

namespace Desk

def image (D : Desk) : Image := D.setting.image D.maxSteps

def vantage (D : Desk) : Vantage where
  image := D.image
  scope := D.scope
  regions := D.regions
  base := D.base.toUInt64
  top := stackAddress D.top

/-- The words of the lists and dicts that are literals of the expression. -/
def Owns (D : Desk) (a : Address) : Prop :=
  ∃ (k : Nat) (symbol : String) (words : Nat) (placement : Placement) (j : Nat),
    D.first ≤ k ∧ D.regions[k]? = some (.reserve symbol words) ∧
    D.image.layout.find? symbol = some placement ∧ j < words ∧
    a = placement.address + 8 * UInt64.ofNat j

structure Sound (D : Desk) : Prop where
  fits : D.setting.Fits
  target : ∀ {pos : Nat} {name : String} {line : UInt32} {rest : Code},
    D.setting.CodeAt D.owner pos (.labelled name line :: rest) →
    D.image.target? D.owner name = some pos
  slot : ∀ {id : String} {d : Word}, D.scope.displacement? id = some d →
    D.image.accessTrap? (D.base.toUInt64 + d.toUInt64) = none ∧
      D.vantage.isFree (D.base.toUInt64 + d.toUInt64) = false
  global : ∀ {id : String}, id ∈ D.promoted →
    ∃ placement, D.image.layout.find? (globalSymbol id) = some placement
  region : ∀ {k : Nat} {region : DataRegion}, D.first ≤ k → D.regions[k]? = some region →
    ∃ placement, D.image.layout.find? region.symbol = some placement ∧
      placement.words = region.words

variable {D : Desk} {pos height : Nat} {w : Slate} {s s₁ s₂ s₃ : MachineState} {i : Instruction}
  {code rest : Code} {line : UInt32} {r : Reg}

/-- A piece of the code of the expression. -/
structure Bears (D : Desk) (pos : Nat) (code : Code) : Prop where
  stands : D.setting.CodeAt D.owner pos code
  le : pos + code.length ≤ D.bound

namespace Bears

variable {code' code'' : Code}

theorem lt (h : D.Bears pos (i :: code)) : pos < D.bound := by
  have hle := h.le
  rw [List.length_cons] at hle
  omega

theorem fetch (h : D.Bears pos (i :: code)) : D.image.fetch? D.owner pos = some i :=
  (Image.fetch?_ofProgram _ _ _ _).trans h.stands.head

theorem tail (h : D.Bears pos (i :: code)) : D.Bears (pos + 1) code where
  stands := h.stands.tail
  le := by
    have hle := h.le
    rw [List.length_cons] at hle
    omega

theorem left (h : D.Bears pos (code ++ code')) : D.Bears pos code where
  stands := h.stands.left
  le := by
    have hle := h.le
    rw [List.length_append] at hle
    omega

theorem right (h : D.Bears pos (code ++ code')) : D.Bears (pos + code.length) code' where
  stands := h.stands.right
  le := by
    have hle := h.le
    rw [List.length_append] at hle
    omega

theorem third (h : D.Bears pos (code ++ code' ++ code'')) :
    D.Bears (pos + code.length + code'.length) code'' := by
  rw [Nat.add_assoc, ← List.length_append]
  exact h.right

end Bears

section Space

theorem stackLimit_image (D : Desk) : D.image.stackLimit = stackAddress D.setting.stackWords := rfl

/-- The stack words beyond the top are free. -/
theorem isFree_stackAddress (hD : D.Sound) {h : Nat} (hlt : D.top < h)
    (hle : h ≤ D.setting.stackWords) : D.vantage.isFree (stackAddress h) = true := by
  have hnat := Setting.toNat_stack hD.fits hle
  have htop := Setting.toNat_stack hD.fits (hlt.le.trans hle)
  have hfits := hD.fits
  unfold Setting.Fits Program.Fits at hfits
  have hlow : D.image.stackLimit ≤ stackAddress h :=
    UInt64.not_lt.mp (Setting.not_lt_stackLimit hD.fits hle D.maxSteps)
  have hhigh : stackAddress h < Image.stackTop := by
    rw [UInt64.lt_iff_toNat_lt, hnat]
    omega
  have hbelow : stackAddress h < stackAddress D.top := by
    rw [UInt64.lt_iff_toNat_lt, hnat, htop]
    omega
  simp [Vantage.isFree, vantage, Image.isStack, hlow, hhigh, hbelow]

/-- The data area is not free. -/
theorem isFree_data (hD : D.Sound) {a : Address} (ha : D.setting.world.isData a = true) :
    D.vantage.isFree a = false := by
  have hlt := UInt64.lt_iff_toNat_lt.mp (Setting.isData_iff.mp ha).2.2
  rw [Setting.toNat_dataEnd hD.fits] at hlt
  have hlimit := Setting.toNat_stack hD.fits (le_refl D.setting.stackWords)
  have hfits := hD.fits
  unfold Setting.Fits Program.Fits at hfits
  have hlow : ¬D.image.stackLimit ≤ a := by
    rw [stackLimit_image, UInt64.le_iff_toNat_le, hlimit]
    omega
  simp [Vantage.isFree, vantage, Image.isStack, hlow]

/-- The words of own literals are in the data area. -/
theorem isData_of_owns (hD : D.Sound) {a : Address} (ha : D.Owns a) :
    D.setting.world.isData a = true := by
  obtain ⟨k, symbol, words, placement, j, hk, hregion, hfind, hj, rfl⟩ := ha
  obtain ⟨placement', hfind', hwords⟩ := hD.region hk hregion
  obtain rfl := Option.some.inj (hfind.symm.trans hfind')
  refine Setting.isData_placement hD.fits hfind (hj.trans_le ?_)
  rw [hwords]
  exact Layout.le_extent words

end Space

/-- Only free stack words above the height and own words have changed. -/
def Spares (D : Desk) (height : Nat) (s s' : MachineState) : Prop :=
  ∀ a, ¬D.Owns a → (∀ h, height < h → h ≤ D.setting.stackWords → a ≠ stackAddress h) →
    s'.memory.read a = s.memory.read a

namespace Spares

theorem of_memory (h : s₁.memory = s.memory) : D.Spares height s s₁ := fun _ _ _ => by rw [h]

theorem refl (s : MachineState) : D.Spares height s s := of_memory rfl

theorem trans (h₁ : D.Spares height s s₁) (h₂ : D.Spares height s₁ s₂) : D.Spares height s s₂ :=
  fun a hown hstack => (h₂ a hown hstack).trans (h₁ a hown hstack)

theorem mono {higher : Nat} (h : D.Spares higher s s₁) (hle : height ≤ higher) :
    D.Spares height s s₁ :=
  fun a hown hstack => h a hown fun k hk => hstack k (hle.trans_lt hk)

/-- The stack words up to the height are kept. -/
theorem stackWord (hD : D.Sound) (h : D.Spares height s s₁) {k : Nat}
    (hle : k ≤ height) (hheight : height ≤ D.setting.stackWords) :
    s₁.stackWord k = s.stackWord k := by
  refine h _ (fun hown => ?_) fun j hj hroom heq => ?_
  · exact Setting.stackAddress_ne_data hD.fits (hle.trans hheight) (isData_of_owns hD hown) rfl
  · have := Setting.stackAddress_inj hD.fits (hle.trans hheight) hroom heq
    omega

end Spares

/-- The machine is at a position of the code with the stack at a height, and memory is what is on
the slate. -/
structure Poised (D : Desk) (pos height : Nat) (w : Slate) (s : MachineState) : Prop where
  unit_eq : s.unit = D.owner
  ip_eq : s.ip = pos
  rsp_eq : s.regs.rsp = stackPointer height
  rbp_eq : s.regs.rbp = D.base
  top_le : D.top ≤ height
  room : height ≤ D.setting.stackWords
  words : ∀ a, D.vantage.isFree a = false → s.memory.read a = w.words a

namespace Poised

theorem of_same (h : D.Poised pos height w s) {pos' : Nat} (hunit : s₁.unit = s.unit)
    (hip : s₁.ip = pos') (hrsp : s₁.regs.rsp = s.regs.rsp) (hrbp : s₁.regs.rbp = s.regs.rbp)
    (hmemory : s₁.memory = s.memory) : D.Poised pos' height w s₁ where
  unit_eq := hunit.trans h.unit_eq
  ip_eq := hip
  rsp_eq := hrsp.trans h.rsp_eq
  rbp_eq := hrbp.trans h.rbp_eq
  top_le := h.top_le
  room := h.room
  words := fun a ha => by rw [hmemory, h.words a ha]

/-- Memory has no part in the count of literals. -/
theorem withLiterals (h : D.Poised pos height w s) (n : Nat) :
    D.Poised pos height { w with literals := n } s :=
  { h with words := h.words }

theorem next_ip (h : D.Poised pos height w s) : s.next.ip = pos + 1 := by
  rw [MachineState.next_ip, h.ip_eq]

theorem fetch (h : D.Poised pos height w s) (hcode : D.Bears pos (i :: rest)) :
    D.image.fetch? s.unit s.ip = some i := by
  rw [h.unit_eq, h.ip_eq]
  exact hcode.fetch

theorem advance (h : D.Poised pos height w s) (hcode : D.Bears pos (i :: rest))
    (hi : instruction D.image i s.next = .ok false s₁) (hlt : pos < s₁.ip) (hle : s₁.ip ≤ D.bound) :
    D.image.Advances D.bound s s₁ where
  steps := ⟨i, h.fetch hcode, hi⟩
  lt := by
    rw [h.ip_eq]
    exact hlt
  le := hle

/-- An instruction that goes on to the next position. -/
theorem proceed (h : D.Poised pos height w s) (hcode : D.Bears pos (i :: rest))
    (hi : instruction D.image i s.next = .ok false s₁) (hip : s₁.ip = s.next.ip) :
    D.image.Advances D.bound s s₁ := by
  have hlt := hcode.lt
  rw [h.next_ip] at hip
  exact h.advance hcode hi (by omega) (by omega)

theorem trap {post : MachineState → Prop} {fault : Prop} {e : Fault}
    (h : D.Poised pos height w s) (hcode : D.Bears pos (i :: rest)) (hfault : fault)
    (hi : instruction D.image i s.next = .error e s₁) : D.image.Comes D.bound post fault s := by
  refine .trap hfault ?_ (h.fetch hcode) hi
  rw [h.ip_eq]
  exact hcode.lt

/-- An instruction that changes scratch registers only. -/
theorem setRegs {rs : Registers} (h : D.Poised pos height w s) (hcode : D.Bears pos (i :: rest))
    (hi : instruction D.image i s.next = .ok false { s.next with regs := rs })
    (hrsp : rs.rsp = s.regs.rsp) (hrbp : rs.rbp = s.regs.rbp) :
    ∃ s₁, D.image.Advances D.bound s s₁ ∧ D.Poised (pos + 1) height w s₁ ∧ s₁.memory = s.memory ∧
      s₁.regs = rs :=
  ⟨_, h.proceed hcode hi rfl, h.of_same rfl h.next_ip hrsp hrbp rfl, rfl, rfl⟩

/-- An instruction that sets the words compared. -/
theorem compare {x y : Word} (h : D.Poised pos height w s) (hcode : D.Bears pos (i :: rest))
    (hi : instruction D.image i s.next = .ok false (s.next.compared x y)) :
    ∃ s₁, D.image.Advances D.bound s s₁ ∧ D.Poised (pos + 1) height w s₁ ∧ s₁.memory = s.memory ∧
      s₁.regs = s.regs ∧ s₁.lhs = x ∧ s₁.rhs = y :=
  ⟨_, h.proceed hcode hi rfl, h.of_same rfl h.next_ip rfl rfl rfl, rfl, rfl, rfl, rfl⟩

/-- A label is only passed. -/
theorem label {name : String} (h : D.Poised pos height w s)
    (hcode : D.Bears pos (.labelled name line :: rest)) :
    ∃ s₁, D.image.Advances D.bound s s₁ ∧ D.Poised (pos + 1) height w s₁ ∧ s₁.memory = s.memory ∧
      s₁.regs = s.regs :=
  ⟨_, h.proceed hcode (instruction_labelled name) rfl, h.of_same rfl h.next_ip rfl rfl rfl,
    rfl, rfl⟩

/-- A jump to a label further on. -/
theorem jump {name : String} {k : Nat} (h : D.Poised pos height w s)
    (hcode : D.Bears pos (Emit.jump line .jmp name :: rest))
    (htarget : D.image.target? D.owner name = some k) (hlt : pos < k) (hle : k ≤ D.bound) :
    ∃ s₁, D.image.Advances D.bound s s₁ ∧ D.Poised k height w s₁ ∧ s₁.memory = s.memory ∧
      s₁.regs = s.regs := by
  rw [← h.unit_eq, ← MachineState.next_unit] at htarget
  exact ⟨_, h.advance hcode (instruction_jmp htarget) hlt hle, h.of_same rfl rfl rfl rfl rfl,
    rfl, rfl⟩

/-- A conditional jump to a label further on. -/
theorem branch {m : Mnemonic} {name : String} {k : Nat} (h : D.Poised pos height w s)
    (hcode : D.Bears pos (Emit.jump line m name :: rest)) (hm : m.isConditionalJump = true)
    (htarget : D.image.target? D.owner name = some k) (hlt : pos < k) (hle : k ≤ D.bound) :
    ∃ s₁, D.image.Advances D.bound s s₁ ∧
      D.Poised (if conditionHolds m s.lhs s.rhs then k else pos + 1) height w s₁ ∧
      s₁.memory = s.memory ∧ s₁.regs = s.regs := by
  cases hholds : conditionHolds m s.lhs s.rhs with
  | true =>
      rw [← h.unit_eq, ← MachineState.next_unit] at htarget
      exact ⟨_, h.advance hcode (instruction_branch_taken hm hholds htarget) hlt hle,
        h.of_same rfl rfl rfl rfl rfl, rfl, rfl⟩
  | false =>
      exact ⟨_, h.proceed hcode (instruction_branch_passed hm hholds) rfl,
        h.of_same rfl h.next_ip rfl rfl rfl, rfl, rfl⟩

/-- A write to an own word. -/
theorem store {a : Address} {v : Word} (h : D.Poised pos height w s)
    (hcode : D.Bears pos (i :: rest)) (ha : D.Owns a)
    (hi : instruction D.image i s.next = .ok false (s.next.setWord a v)) :
    ∃ s₁, D.image.Advances D.bound s s₁ ∧
      D.Poised (pos + 1) height { w with words := Function.update w.words a v } s₁ ∧
      D.Spares height s s₁ ∧ s₁.regs = s.regs := by
  refine ⟨_, h.proceed hcode hi rfl, ?_, ?_, rfl⟩
  · refine { unit_eq := h.unit_eq, ip_eq := h.next_ip, rsp_eq := h.rsp_eq, rbp_eq := h.rbp_eq,
             top_le := h.top_le, room := h.room, words := ?_ }
    intro b hb
    rw [MachineState.setWord_memory, Memory.read_write]
    refine Eq.trans ?_ (Function.update_apply w.words a v b).symm
    exact if_congr eq_comm rfl (h.words b hb)
  · intro b hown _
    rw [MachineState.setWord_memory, Memory.read_write, if_neg]
    · rfl
    · rintro rfl
      exact hown ha

theorem push (hD : D.Sound) (h : D.Poised pos height w s)
    (hcode : D.Bears pos (Emit.push line (.ofReg r) :: rest))
    (hroom : height + 1 ≤ D.setting.stackWords) :
    ∃ s₁, D.image.Advances D.bound s s₁ ∧ D.Poised (pos + 1) (height + 1) w s₁ ∧
      D.Spares height s s₁ ∧ s₁.stackWord (height + 1) = s.regs.get r ∧
      ∀ r', r' ≠ .rsp → s₁.regs.get r' = s.regs.get r' := by
  have hrsp : s.next.regs.rsp - 8 = stackPointer (height + 1) := by
    rw [MachineState.next_regs, h.rsp_eq, stackPointer_sub]
  have hread : Exec.read D.image (.ofReg r) s.next = .ok (s.regs.get r) s.next := rfl
  have hlimit := Setting.not_lt_stackLimit hD.fits hroom D.maxSteps
  have haccess := Setting.accessible_stack hD.fits (Nat.succ_pos height) hroom D.maxSteps
  refine ⟨_, h.proceed hcode (instruction_push hread (by rw [hrsp, toUInt64_stackPointer]) hlimit
    haccess) rfl, ?_, ?_, ?_, ?_⟩
  · refine { unit_eq := h.unit_eq, ip_eq := h.next_ip, rsp_eq := hrsp, rbp_eq := h.rbp_eq,
             top_le := h.top_le.trans (Nat.le_succ _), room := hroom, words := ?_ }
    intro b hb
    rw [MachineState.setWord_memory, Memory.read_write, if_neg]
    · exact h.words b hb
    · rintro rfl
      rw [isFree_stackAddress hD (Nat.lt_succ_of_le h.top_le) hroom] at hb
      cases hb
  · intro b _ hstack
    rw [MachineState.setWord_memory, Memory.read_write,
      if_neg (hstack _ (Nat.lt_succ_self _) hroom).symm]
    rfl
  · rw [MachineState.stackWord, MachineState.setWord_memory, Memory.read_write_self]
  · intro r' hr'
    exact (Registers.get_set s.regs .rsp r' _).trans (if_neg hr'.symm)

theorem pop (hD : D.Sound) (h : D.Poised pos (height + 1) w s)
    (hcode : D.Bears pos (Emit.pop line (.ofReg r) :: rest)) (htop : D.top ≤ height)
    (hrsp : r ≠ .rsp) (hrbp : r ≠ .rbp) :
    ∃ s₁, D.image.Advances D.bound s s₁ ∧ D.Poised (pos + 1) height w s₁ ∧
      s₁.memory = s.memory ∧ s₁.regs.get r = s.stackWord (height + 1) ∧
      ∀ r', r' ≠ .rsp → r' ≠ r → s₁.regs.get r' = s.regs.get r' := by
  have haddress : s.next.regs.rsp.toUInt64 = stackAddress (height + 1) := by
    rw [MachineState.next_regs, h.rsp_eq, toUInt64_stackPointer]
  have hup : s.next.regs.rsp + 8 = stackPointer height := by
    rw [MachineState.next_regs, h.rsp_eq, stackPointer_add]
  have hget : ∀ r', (((s.next.setReg .rsp (s.next.regs.rsp + 8)).setReg r
      (s.next.memory.read s.next.regs.rsp.toUInt64)).regs.get r') =
      if r = r' then s.stackWord (height + 1)
      else if .rsp = r' then stackPointer height else s.regs.get r' := by
    intro r'
    rw [MachineState.setReg_regs, Registers.get_set, MachineState.setReg_regs, Registers.get_set,
      haddress, hup]
    rfl
  have haccess : D.image.accessTrap? s.next.regs.rsp.toUInt64 = none := by
    rw [haddress]
    exact Setting.accessible_stack hD.fits (Nat.succ_pos _) h.room D.maxSteps
  refine ⟨_, h.proceed hcode (instruction_pop haccess) rfl, ?_, rfl,
    (hget r).trans (if_pos rfl), ?_⟩
  · refine { unit_eq := h.unit_eq, ip_eq := h.next_ip, rsp_eq := ?_, rbp_eq := ?_, top_le := htop,
             room := (Nat.le_succ _).trans h.room, words := h.words }
    · exact (hget .rsp).trans ((if_neg hrsp).trans (if_pos rfl))
    · exact ((hget .rbp).trans (if_neg hrbp)).trans ((if_neg (by decide)).trans h.rbp_eq)
  · intro r' hr hr'
    rw [hget, if_neg hr'.symm, if_neg hr.symm]

end Poised

end Desk

end Arbor
