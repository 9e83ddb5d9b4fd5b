import Mathlib.Tactic
import Arbor.Proofs.Landing
import Arbor.Proofs.Liveness
import Arbor.Proofs.Watched

/-!
Two runs side by side: one of a program, one of the program that a pass makes of it. The
runs are at corresponding positions of the same activations. Registers agree, and so do
the data area, the words that an activation has pushed, and the slots that may still be
read and have been stored to. Return addresses differ, and of all other words nothing is
known.
-/

namespace Arbor

namespace Code

/-- What a pass does with code: which positions it keeps, and which slots it takes to be
read later on from a position. -/
structure Plan where
  keep : Nat → Bool
  live : Nat → Word → Prop

/-- Why a plan lets an instruction go. Stores go only where it is known that slots are apart
from the data area. -/
inductive Plan.Drops (apart : Prop) (plan : Plan) (code : Code) (k : Nat) (i : Instruction) :
    Prop where
  | redundant (h : Redundant code k i) (hlive : ∀ d, plan.live (k + 1) d → plan.live k d)
  | deadStore {d : Word} (hapart : apart) (hlabel : i.label = none) (hd : i.slotWritten? = some d)
      (hreads : i.slotsRead = []) (hdead : ¬plan.live (k + 1) d)

structure Plan.Sound (apart : Prop) (plan : Plan) (code : Code) : Prop
    extends LiveClosed code plan.live where
  drops : ∀ k i, code[k]? = some i → plan.keep k = false → plan.Drops apart code k i

end Code

namespace Program

/-- The words of the largest frame. -/
def widestFrame (p : Program) : Nat :=
  (p.units.map fun unit => unit.params + unit.slots).foldr max 0

theorem le_widestFrame {p : Program} {unit : CompiledUnit} (hunit : unit ∈ p.units) :
    unit.params + unit.slots ≤ p.widestFrame :=
  List.le_max_of_le (List.mem_map_of_mem hunit) le_rfl

/-- A word of the data area. -/
def IsData (p : Program) (a : Address) : Prop :=
  ({ functions := [], program := p } : World).isData a = true

/-- The operand names a word of the data area. -/
def Stores (p : Program) (symbol : String) (d : Word) : Prop :=
  symbol.isEmpty = false ∧
    ∃ placement, (Layout.ofRequests (Layout.requests p)).find? symbol = some placement ∧
      p.IsData (placement.address + d.toUInt64)

/-- A frame may hang over the end of the stack. Frames are apart from the data area if that
leaves room for the stack and one frame. -/
def FramesApart (p : Program) (stackWords : Nat) : Prop := p.Fits (stackWords + p.widestFrame)

instance (p : Program) (stackWords : Nat) : Decidable (p.FramesApart stackWords) :=
  inferInstanceAs (Decidable (p.Fits _))

/-- What compiled programs keep to, and what passes make of them. -/
structure Disciplined (p : Program) (stackWords : Nat) : Prop where
  shaped : p.Shaped
  landing : p.Landing
  labels : ∀ unit ∈ p.units, (Code.labels unit.code).Nodup
  names : (p.units.map (·.name)).Nodup
  globals : ∀ unit ∈ p.units, ∀ i ∈ unit.code, ∀ symbol d,
    .global symbol d ∈ i.operands → p.Stores symbol d
  addressable : p.Addressable
  fits : p.Fits stackWords
  frames : p.widestFrame < 2 ^ 60

end Program

/-- A program, what a pass does with the code of each unit, and the limits of the two machines
that run the program and what the pass makes of it. -/
structure Lockstep where
  program : Program
  plan : Code → Code.Plan
  limits : Limits
  limits' : Limits

namespace Lockstep

variable (L : Lockstep)

def thinned : Program := L.program.mapCode fun code => Code.thin (L.plan code).keep code

def source : Image := Image.ofProgram L.program L.limits

def target : Image := Image.ofProgram L.thinned L.limits'

abbrev IsData (a : Address) : Prop := L.program.IsData a

/-- A word that may be accessed. -/
abbrev Accessible (a : Address) : Prop := L.source.accessTrap? a = none

/-- What the proofs need of program and plan. -/
structure Sound : Prop extends L.program.Disciplined L.limits.maxStackWords where
  plans : ∀ unit ∈ L.program.units,
    (L.plan unit.code).Sound (L.program.FramesApart L.limits.maxStackWords) unit.code
  stackWords : L.limits'.maxStackWords = L.limits.maxStackWords

end Lockstep

/-- The address of a slot, from the height of the saved frame base. -/
def slotAddress (base : Nat) (d : Word) : Address := stackAddress base + d.toUInt64

theorem slotAddress_param {params j base : Nat} (hj : j < params) :
    slotAddress base (Scope.paramDisplacement j params) =
      stackAddress base + 8 * UInt64.ofNat (params + 1 - j) := by
  obtain ⟨n, rfl⟩ := Nat.exists_eq_add_of_lt hj
  have h1 : (1 : Word).toUInt64 = 1 := rfl
  have h8 : (8 : Word).toUInt64 = 8 := rfl
  have h16 : (16 : Word).toUInt64 = 16 := rfl
  have hn : j + n + 1 + 1 - j = n + 2 := by omega
  rw [hn]
  simp only [slotAddress, Scope.paramDisplacement, Int64.toUInt64_add, Int64.toUInt64_mul,
    Int64.toUInt64_sub, Int64.toUInt64_ofNat', UInt64.ofNat_add, h1, h8, h16]
  grind

theorem Scope.localDisplacement_neg {k : Nat} (hpos : 0 < k) (hk : k ≤ 2 ^ 60) :
    Scope.localDisplacement k < 0 := by
  rw [Int64.lt_iff_toInt_lt, Scope.localDisplacement, Int64.toInt_mul,
    Int64.toInt_ofNat_of_lt (by omega)]
  have h8 : (-8 : Word).toInt = -8 := rfl
  have h0 : (0 : Word).toInt = 0 := rfl
  rw [h8, h0, Int.bmod_eq_of_le (by omega) (by omega)]
  omega

theorem slotAddress_inj {base : Nat} {d d' : Word} (h : slotAddress base d = slotAddress base d') :
    d = d' := by
  have hwords : d.toUInt64 = d'.toUInt64 := by
    unfold slotAddress at h
    grind
  exact congrArg UInt64.toInt64 hwords

/-- An address lies so many words below the top of the stack. Above the top the count is
not positive. -/
def Height (a : Address) (z : Int) : Prop := (a.toNat : Int) = 0x7fff0000 - 8 * z

theorem Height.unique {a : Address} {y z : Int} (hy : Height a y) (hz : Height a z) : y = z := by
  unfold Height at hy hz
  omega

namespace Lockstep

section Geometry

variable {L : Lockstep} {unit : CompiledUnit} {words base x : Nat} {d : Word} {a : Address} {z : Int}

theorem height_stackAddress (hfits : L.program.Fits words) (hx : x ≤ words + 1) :
    Height (stackAddress x) x := by
  have hbase : Layout.base.toNat = 0x1000 := rfl
  have htop : Image.stackTop.toNat = 0x7fff0000 := rfl
  unfold Program.Fits at hfits
  have hnat := toNat_stackAddress (h := x) (by omega)
  unfold Height
  omega

theorem isData_iff :
    L.IsData a ↔ a % 8 = 0 ∧ Layout.base ≤ a ∧
      a < (Layout.ofRequests (Layout.requests L.program)).dataEnd := Setting.isData_iff

/-- Words that fit beside the data area do not reach it. -/
theorem not_isData_of_height (hz : Height a z) (hfits : L.program.Fits words) (hle : z ≤ words) :
    ¬L.IsData a := by
  intro ha
  have hlt := UInt64.lt_iff_toNat_lt.mp (isData_iff.mp ha).2.2
  have hend := Setting.toNat_dataEnd (E := ⟨⟨[], L.program⟩, words⟩) hfits
  have htop : Image.stackTop.toNat = 0x7fff0000 := rfl
  unfold Program.Fits at hfits
  unfold Height at hz
  simp only [World.layout] at hend
  omega

/-- What may be accessed outside the stack is in the data area. -/
theorem isData_of_accessible (ha : L.Accessible a) (hstack : L.source.isStack a = false) :
    L.IsData a := by
  unfold Accessible Image.accessTrap? at ha
  split_ifs at ha with haligned hmapped
  rw [hstack, Bool.or_false] at hmapped
  simp only [Image.isData, Bool.and_eq_true, decide_eq_true_eq] at hmapped
  rw [isData_iff]
  exact ⟨by simpa using haligned, hmapped⟩

/-- Nothing may be accessed from the top of the stack on. -/
theorem toNat_lt_of_accessible (hfits : L.program.Fits words) (ha : L.Accessible a) :
    a.toNat < 0x7fff0000 := by
  cases hstack : L.source.isStack a with
  | true =>
      simp only [Image.isStack, Bool.and_eq_true, decide_eq_true_eq] at hstack
      exact UInt64.lt_iff_toNat_lt.mp hstack.2
  | false =>
      have hlt := UInt64.lt_iff_toNat_lt.mp (isData_iff.mp (isData_of_accessible ha hstack)).2.2
      have hend := Setting.toNat_dataEnd (E := ⟨⟨[], L.program⟩, words⟩) hfits
      have htop : Image.stackTop.toNat = 0x7fff0000 := rfl
      unfold Program.Fits at hfits
      simp only [World.layout] at hend
      omega

/-- An address that is counted from the top of the stack and wraps around may not be accessed. -/
theorem height_of_accessible (hfits : L.program.Fits words) (ha : L.Accessible (stackAddress x))
    (hx : x ≤ 2 ^ 61) : Height (stackAddress x) x := by
  have htop : Image.stackTop.toNat = 0x7fff0000 := rfl
  have hlt := toNat_lt_of_accessible hfits ha
  have hnat : (stackAddress x).toNat = (0x7fff0000 + (2 ^ 64 - 8 * x % 2 ^ 64)) % 2 ^ 64 := by
    simp only [stackAddress, UInt64.toNat_sub, UInt64.toNat_mul, UInt64.toNat_ofNat,
      UInt64.toNat_ofNat', htop]
    omega
  unfold Height
  omega

/-- A local lies below the saved frame base, a parameter above the return address. -/
theorem height_slot (hfits : L.program.Fits L.limits.maxStackWords)
    (hframe : unit.params + unit.slots < 2 ^ 60) (hbase : base ≤ L.limits.maxStackWords + 1)
    (hd : unit.frameSize.HasSlot d) (ha : L.Accessible (slotAddress base d)) :
    ∃ z, Height (slotAddress base d) z ∧ 1 ≤ z ∧
      ((base < z ∧ z ≤ base + unit.slots ∧ d < 0) ∨
        ((base : Int) - unit.params - 1 ≤ z ∧ z ≤ (base : Int) - 2)) := by
  have hheight := height_stackAddress hfits hbase
  have hlt := toNat_lt_of_accessible hfits ha
  obtain ⟨j, hj, rfl⟩ := hd
  simp only [CompiledUnit.frameSize] at hj ha hlt ⊢
  unfold slotDisplacement at ha hlt ⊢
  split at ha
  · rename_i hparam
    rw [if_pos hparam] at hlt ⊢
    unfold Height at hheight
    have hwords := Layout.toNat_add_words (a := stackAddress base) (n := unit.params + 1 - j)
      (by omega)
    rw [slotAddress_param hparam, hwords] at hlt
    refine ⟨(base : Int) - (unit.params + 1 - j), ?_, by omega, .inr ⟨by omega, by omega⟩⟩
    rw [Height, slotAddress_param hparam, hwords]
    omega
  · rename_i hlocal
    rw [if_neg hlocal] at hlt ⊢
    have haddress : slotAddress base (Scope.localDisplacement (j - unit.params + 1)) =
        stackAddress (base + (j - unit.params + 1)) := Frame.local_address _ _
    have hneg := Scope.localDisplacement_neg (Nat.succ_pos (j - unit.params)) (by omega)
    rw [haddress] at ha ⊢
    unfold Height at hheight
    exact ⟨(base + (j - unit.params + 1) : Nat), height_of_accessible hfits ha (by omega), by omega,
      .inl ⟨by omega, by omega, hneg⟩⟩

/-- A word that is pushed is no deeper than the stack, even past a frame that hangs over. -/
theorem le_of_pushed (hfits : L.program.Fits L.limits.maxStackWords)
    (hx : x ≤ L.limits.maxStackWords + 2 ^ 60) (ha : L.Accessible (stackAddress x))
    (hlimit : ¬stackAddress x < L.source.stackLimit) : x ≤ L.limits.maxStackWords := by
  have hend : Height L.source.stackLimit L.limits.maxStackWords :=
    height_stackAddress hfits (Nat.le_succ _)
  unfold Height at hend
  have hheight := height_of_accessible hfits ha (by omega)
  rw [UInt64.lt_iff_toNat_lt] at hlimit
  unfold Height at hheight
  omega

end Geometry

end Lockstep

/-- A function that has been entered and not yet left: its code and the position reached
there, the heights of the saved frame base and of the last word that is its own, and the
slots that the one run and the other have stored to. -/
structure Activation where
  owner : Nat
  unit : CompiledUnit
  ip : Nat
  base : Nat
  top : Nat
  stored : List Word
  kept : List Word

/-- How far the words of a function itself reach below its frame base. -/
def Shape.depth : Shape → Nat
  | .outside | .saved | .based => 0
  | .inside height pending => height - pending
  | .compared height => height

/-- The frame base that a function has saved for its caller. -/
def baseWord : List Activation → Word
  | [] => 0
  | g :: _ => stackPointer g.base

/-- The return address of a function, when `place` says where the others go on. -/
def returnWord (place : Activation → Nat) : List Activation → Word
  | [] => Exec.returnSentinel
  | g :: _ => Exec.returnAddress g.owner (place g)

/-- The words up to this height belong to the callers. -/
def floorOf : List Activation → Nat
  | [] => 0
  | g :: _ => g.top

/-- What the two registers of the stack hold. -/
def Shape.Stands (base : Nat) (callers : List Activation) (rs : Registers) : Shape → Prop
  | .outside => rs.rsp = stackPointer (base - 1) ∧ rs.rbp = baseWord callers
  | .saved => rs.rsp = stackPointer base ∧ rs.rbp = baseWord callers
  | .based => rs.rsp = stackPointer base ∧ rs.rbp = stackPointer base
  | .inside height _ | .compared height =>
    rs.rsp = stackPointer (base + height) ∧ rs.rbp = stackPointer base

/-- How far a frame may reach. The words that a function reserves need not be there. -/
def Shape.Within (stackWords slots base : Nat) : Shape → Prop
  | .outside => base ≤ stackWords + 1
  | .saved | .based => base ≤ stackWords
  | .inside height _ | .compared height => base ≤ stackWords ∧ base + height ≤ stackWords + slots

namespace Registers

variable {rs : Registers} {r : Reg} {v : Word}

@[simp] theorem rsp_set_rsp : (rs.set .rsp v).rsp = v := rfl

@[simp] theorem rbp_set_rbp : (rs.set .rbp v).rbp = v := rfl

theorem rsp_set (h : r ≠ .rsp) : (rs.set r v).rsp = rs.rsp := by
  cases r with
  | rsp => exact absurd rfl h
  | none | rax | rbx | rcx | rdx | rbp => rfl

theorem rbp_set (h : r ≠ .rbp) : (rs.set r v).rbp = rs.rbp := by
  cases r with
  | rbp => exact absurd rfl h
  | none | rax | rbx | rcx | rdx | rsp => rfl

end Registers

/-- Each caller has its frame base and its return address where it put them. -/
def Linked (place : Activation → Nat) : List Activation → Memory → Prop
  | [], _ => True
  | g :: rest, m =>
    m.read (stackAddress (g.base - 1)) = returnWord place rest ∧
      m.read (stackAddress g.base) = baseWord rest ∧ Linked place rest m

/-- The words that lead back to the callers. -/
structure Anchored (place : Activation → Nat) (base : Nat) (callers : List Activation) (σ : Shape)
    (m : Memory) : Prop where
  returns : m.read (stackAddress (base - 1)) = returnWord place callers
  saved : σ ≠ .outside → m.read (stackAddress base) = baseWord callers
  linked : Linked place callers m

theorem Linked.congr {place : Activation → Nat} {callers : List Activation} {m m' : Memory}
    (h : Linked place callers m) (hread : ∀ a, m'.read a = m.read a) :
    Linked place callers m' := by
  induction callers with
  | nil => trivial
  | cons g rest ih =>
      obtain ⟨hreturns, hsaved, hrest⟩ := h
      exact ⟨(hread _).trans hreturns, (hread _).trans hsaved, ih hrest⟩

theorem Anchored.congr {place : Activation → Nat} {base : Nat} {callers : List Activation}
    {σ : Shape} {m m' : Memory} (h : Anchored place base callers σ m)
    (hread : ∀ a, m'.read a = m.read a) : Anchored place base callers σ m' :=
  ⟨(hread _).trans h.returns, fun hσ => (hread _).trans (h.saved hσ), h.linked.congr hread⟩

theorem Anchored.mono {place : Activation → Nat} {base : Nat} {callers : List Activation}
    {σ σ' : Shape} {m : Memory} (h : Anchored place base callers σ m)
    (hσ : σ' ≠ .outside → σ ≠ .outside) : Anchored place base callers σ' m :=
  ⟨h.returns, fun h' => h.saved (hσ h'), h.linked⟩

namespace Lockstep

variable (L : Lockstep)

/-- Where a position of the program goes. -/
def place (f : Activation) : Nat := Code.rank (L.plan f.unit.code).keep f.ip

/-- The shape at a position of a unit. -/
def ShapedAt (unit : CompiledUnit) (ip : Nat) (σ : Shape) : Prop :=
  ∃ marks, Code.Shaped L.program.arity? unit.frameSize marks (some .outside) unit.code ∧
    Code.Shaped L.program.arity? unit.frameSize marks (some σ) (unit.code.drop ip)

/-- A slot that may be read and holds the same word in both runs. -/
def Knows (f : Activation) (d : Word) : Prop :=
  (L.plan f.unit.code).live f.ip d ∧ (0 ≤ d ∨ d ∈ f.stored)

/-- The words of an activation that are the same in both runs. -/
inductive Shares (f : Activation) : Address → Prop where
  | slot {d : Word} (hd : f.unit.frameSize.HasSlot d) (hknown : L.Knows f d)
      (haccess : L.Accessible (slotAddress f.base d)) : Shares f (slotAddress f.base d)
  | word {x : Nat} (hlow : f.base + f.unit.slots < x) (hhigh : x ≤ f.top) :
      Shares f (stackAddress x)

/-- What is live and stored to in the one run is stored to in the other. -/
def Tracks (f : Activation) : Prop :=
  ∀ d, (L.plan f.unit.code).live f.ip d → d ∈ f.stored → 0 ≤ d ∨ d ∈ f.kept

/-- A caller waits for a function with so many parameters to return. -/
structure Waits (params : Nat) (g : Activation) : Prop where
  owner : L.program.units[g.owner]? = some g.unit
  shaped : ∃ height, L.ShapedAt g.unit g.ip (.inside height params) ∧
    g.top + params = g.base + height
  slots_le : g.base + g.unit.slots ≤ g.top
  top_le : g.top + params ≤ L.limits.maxStackWords
  called : ∃ k callee line, g.ip = k + 1 ∧
    g.unit.code[k]? = some (.make .call [.sym callee] line) ∧
    L.program.arity? callee = some params

/-- The callers of a function lie one below the other. -/
def Stacked (params base : Nat) : List Activation → Prop
  | [] => 2 ≤ base
  | g :: rest =>
    base = g.top + params + 2 ∧ L.Waits params g ∧ Stacked g.unit.params g.base rest

/-- An instruction that has just run. A move leaves source and destination with the same
word, unless it changes what its source reads. -/
structure Past (f : Activation) (i : Instruction) (s : MachineState) : Prop where
  falls : i.mnemonic ≠ .ret ∧ i.mnemonic ≠ .jmp
  moved : ∀ dst src, i.moveOperands? = some (dst, src) →
    (dst.kind = .register → src.usesReg dst.reg = false) →
      ∃ v, Exec.read L.source dst s = .ok v s ∧ Exec.read L.source src s = .ok v s
  slots : ∀ d, i.slotWritten? = some d ∨ d ∈ i.slotsRead → 0 ≤ d ∨ d ∈ f.stored

/-- How a run has come to a position: it is the entry, it has a label, or the instruction
before it has run. -/
inductive Arrived (f : Activation) (σ : Shape) (s : MachineState) : Prop where
  | entry (h : f.ip = 0)
  | label {i : Instruction} {name : String} (hi : f.unit.code[f.ip]? = some i)
      (hname : i.label = some name)
  | fall {k : Nat} {i : Instruction} (hip : f.ip = k + 1) (hi : f.unit.code[k]? = some i)
      (hmoved : i.mnemonic ≠ .none → ∃ σ₀, i.Moves L.program.arity? f.unit.frameSize σ₀ (some σ))
      (hpast : L.Past f i s)

/-- The two runs are in the same activations, at corresponding positions. -/
structure Paired (f : Activation) (callers : List Activation) (σ : Shape)
    (s t : MachineState) : Prop where
  owner : L.program.units[f.owner]? = some f.unit
  shaped : L.ShapedAt f.unit f.ip σ
  stacked : L.Stacked f.unit.params f.base callers
  within : σ.Within L.limits.maxStackWords f.unit.slots f.base
  top_eq : f.top = f.base + σ.depth
  source_unit : s.unit = f.owner
  source_ip : s.ip = f.ip
  target_unit : t.unit = f.owner
  target_ip : t.ip = L.place f
  regs_eq : t.regs = s.regs
  flags_eq : ∀ height, σ = .compared height → t.lhs = s.lhs ∧ t.rhs = s.rhs
  stands : σ.Stands f.base callers s.regs
  source_anchored : Anchored (·.ip) f.base callers σ s.memory
  target_anchored : Anchored L.place f.base callers σ t.memory
  data : ∀ a, L.IsData a → s.memory.read a = t.memory.read a
  words : ∀ g ∈ f :: callers, ∀ a, L.Shares g a → s.memory.read a = t.memory.read a
  tracks : ∀ g ∈ f :: callers, L.Tracks g
  arrived : L.Arrived f σ s

end Lockstep

namespace Lockstep

variable {L : Lockstep} {params base : Nat} {callers : List Activation} {a : Address} {v : Word}

theorem Sound.frame_lt (hL : L.Sound) {u : Nat} {unit : CompiledUnit}
    (hunit : L.program.units[u]? = some unit) : unit.params + unit.slots < 2 ^ 60 :=
  (Program.le_widestFrame (List.mem_of_getElem? hunit)).trans_lt hL.frames

theorem Stacked.floor_le (h : L.Stacked params base callers) : floorOf callers + 2 ≤ base := by
  cases callers with
  | nil => exact h
  | cons g rest =>
      have hbase := h.1
      simp only [floorOf]
      omega

theorem Waits.base_le {g : Activation} (h : L.Waits params g) : g.base ≤ g.top :=
  (Nat.le_add_right _ _).trans h.slots_le

/-- What the callers share lies in their part of the stack. -/
theorem Stacked.height_of_shares (hL : L.Sound) (h : L.Stacked params base callers)
    {g : Activation} (hg : g ∈ callers) (ha : L.Shares g a) :
    ∃ z, Height a z ∧ z ≤ floorOf callers := by
  induction callers generalizing params base with
  | nil => cases hg
  | cons head rest ih =>
      obtain ⟨-, hwaits, hrest⟩ := h
      have htop := hwaits.top_le
      have hslots := hwaits.slots_le
      simp only [floorOf]
      rcases List.mem_cons.mp hg with rfl | hg
      · cases ha with
        | slot hd hknown haccess =>
            have hbase : g.base ≤ L.limits.maxStackWords + 1 := by omega
            obtain ⟨z, hz, -, hcases⟩ :=
              height_slot hL.fits (hL.frame_lt hwaits.owner) hbase hd haccess
            exact ⟨z, hz, by omega⟩
        | @word x hlow hhigh =>
            exact ⟨x, height_stackAddress hL.fits (by omega), by omega⟩
      · obtain ⟨z, hz, hle⟩ := ih hrest hg
        have hfloor := hrest.floor_le
        exact ⟨z, hz, by omega⟩

/-- A write past the words of the callers leaves them linked. -/
theorem Stacked.linked_write {place : Activation → Nat} {m : Memory}
    (h : L.Stacked params base callers) (hlinked : Linked place callers m)
    (hfree : ∀ x ≤ floorOf callers, stackAddress x ≠ a) :
    Linked place callers (m.write a v) := by
  induction callers generalizing params base with
  | nil => trivial
  | cons g rest ih =>
      obtain ⟨-, hwaits, hrest⟩ := h
      obtain ⟨hreturns, hsaved, hlinked⟩ := hlinked
      have hbase := hwaits.base_le
      have hfloor := hrest.floor_le
      simp only [floorOf] at hfree
      refine ⟨?_, ?_, ih hrest hlinked fun x hx => hfree x (by omega)⟩
      · rw [Memory.read_write, if_neg (hfree _ (by omega)).symm]
        exact hreturns
      · rw [Memory.read_write, if_neg (hfree _ hbase).symm]
        exact hsaved

/-- An address where a function may write: none of the words that lead back to its callers. -/
def Free (base : Nat) (callers : List Activation) (a : Address) : Prop :=
  ∀ x, x ≤ floorOf callers ∨ x = base ∨ x + 1 = base → stackAddress x ≠ a

theorem Stacked.anchored_write {place : Activation → Nat} {σ : Shape} {m : Memory}
    (h : L.Stacked params base callers) (hanchored : Anchored place base callers σ m)
    (hfree : Free base callers a) : Anchored place base callers σ (m.write a v) where
  returns := by
    have hfloor := h.floor_le
    rw [Memory.read_write, if_neg (hfree _ (by omega)).symm]
    exact hanchored.returns
  saved := by
    intro hσ
    rw [Memory.read_write, if_neg (hfree _ (.inr (.inl rfl))).symm]
    exact hanchored.saved hσ
  linked := h.linked_write hanchored.linked fun x hx => hfree x (.inl hx)

end Lockstep

end Arbor
