import Mathlib.Tactic
import Arbor.Proofs.Lockstep.Step

/-!
Calls and returns in both runs. A call makes its activation a caller, which keeps the
words it has pushed except for the arguments. Those belong to the callee. A return finds
the address that the call has left, which is not the same word in both runs.
-/

namespace Arbor

open Exec

/-- What a function starts with. -/
@[simps]
def Activation.fresh (owner : Nat) (unit : CompiledUnit) (base : Nat) : Activation :=
  { owner := owner, unit := unit, ip := 0, base := base, top := base, stored := [], kept := [] }

/-- A caller goes on after the call, with the words that are not arguments. -/
@[simps]
def Activation.wait (f : Activation) (top : Nat) : Activation :=
  { f with ip := f.ip + 1, top := top }

theorem Height.inj {a b : Address} {z : Int} (ha : Height a z) (hb : Height b z) : a = b := by
  unfold Height at ha hb
  apply UInt64.toNat_inj.mp
  omega

/-- A state as it is entered: at a place of the code, with a stack pointer. -/
structure MachineState.Enters (s : MachineState) (rsp : Word) (m : Memory) (unit ip : Nat)
    (s' : MachineState) : Prop where
  unit_eq : s'.unit = unit
  ip_eq : s'.ip = ip
  regs_eq : s'.regs = s.regs.set .rsp rsp
  memory_eq : s'.memory = m

theorem MachineState.enters_call (s : MachineState) (rsp : Word) (unit : Nat) (a : Address)
    (v : Word) : s.Enters rsp (s.memory.write a v) unit 0
      (((s.next.setReg .rsp rsp).setWord a v).enter unit 0) := ⟨rfl, rfl, rfl, rfl⟩

theorem MachineState.enters_ret (s : MachineState) (rsp : Word) (unit ip : Nat) :
    s.Enters rsp s.memory unit ip ((s.next.setReg .rsp rsp).enter unit ip) := ⟨rfl, rfl, rfl, rfl⟩

namespace Lockstep

variable {L : Lockstep} {f g : Activation} {callers : List Activation} {s s' t t' : MachineState}

theorem Sound.exists_unit (hL : L.Sound) {callee : String} {u : Nat}
    (h : L.source.functions.lookup callee = some u) :
    ∃ unit, L.program.units[u]? = some unit ∧ L.program.arity? callee = some unit.params := by
  obtain ⟨before, after, heq, -⟩ := List.lookup_eq_some_iff.mp h
  have hmem : (callee, u) ∈ L.source.functions := by
    rw [heq]
    simp
  obtain ⟨⟨unit, k⟩, hunit, hpair⟩ := List.mem_map.mp (List.mem_reverse.mp hmem)
  obtain ⟨rfl, rfl⟩ := Prod.mk.inj hpair
  rw [List.mem_zipIdx_iff_getElem?] at hunit
  refine ⟨unit, hunit, ?_⟩
  have hnames : ((L.program.units.map fun unit => (unit.name, unit.params)).map (·.1)).Nodup := by
    rw [List.map_map]
    exact hL.names
  exact (lookup_eq_some_iff_mem hnames).mpr
    (List.mem_map.mpr ⟨unit, List.mem_of_getElem? hunit, rfl⟩)

/-- What a function shares when it is entered are its parameters, as far as they are on the
stack. They are the last words before the return address. -/
theorem Sound.exists_argument (hL : L.Sound) {unit : CompiledUnit} {owner base : Nat}
    (hunit : L.program.units[owner]? = some unit) (hbase : base ≤ L.limits.maxStackWords + 1)
    {a : Address} (ha : L.Shares (.fresh owner unit base) a) :
    ∃ x, a = stackAddress x ∧ 1 ≤ x ∧ base ≤ x + unit.params + 1 ∧ x + 2 ≤ base := by
  cases ha with
  | @slot d hd hknown haccess =>
      obtain ⟨z, hz, hpos, hcases⟩ := height_slot hL.fits (hL.frame_lt hunit) hbase hd haccess
      rcases hcases with ⟨-, -, hneg⟩ | ⟨hlow, hhigh⟩
      · obtain ⟨-, hparam | hstored⟩ := hknown
        · exact absurd hneg (by simpa using hparam)
        · cases hstored
      · obtain ⟨x, rfl⟩ : ∃ x : Nat, z = x := ⟨z.toNat, by omega⟩
        exact ⟨x, hz.inj (height_stackAddress hL.fits (by omega)), by omega, by omega, by omega⟩
  | @word x hlow hhigh =>
      simp only [Activation.fresh_base, Activation.fresh_top, Activation.fresh_unit] at hlow hhigh
      omega

/-- Both runs call a function. -/
theorem Paired.call (hL : L.Sound) {height n u : Nat} {callee : String} {line : UInt32}
    (hp : L.Paired f callers (.inside height 0) s t)
    (hi : f.unit.code[f.ip]? = some (.make .call [.sym callee] line))
    (hkeep : (L.plan f.unit.code).keep f.ip = true) (hn : L.program.arity? callee = some n)
    (hh : f.unit.slots + n ≤ height) (hshaped : L.ShapedAt f.unit (f.ip + 1) (.inside height n))
    (hlookup : L.source.functions.lookup callee = some u)
    (hlimit : ¬stackAddress (f.base + height + 1) < L.source.stackLimit)
    (haccess : L.Accessible (stackAddress (f.base + height + 1)))
    (hs' : s.Enters (stackPointer (f.base + height + 1))
      (s.memory.write (stackAddress (f.base + height + 1)) (returnAddress f.owner (f.ip + 1))) u 0 s')
    (ht' : t.Enters (stackPointer (f.base + height + 1))
      (t.memory.write (stackAddress (f.base + height + 1)) (returnAddress f.owner (L.place f + 1)))
      u 0 t') :
    ∃ unit, L.Paired (.fresh u unit (f.base + height + 2))
      (f.wait (f.base + (height - n)) :: callers) .outside s' t' := by
  obtain ⟨unit, hunit, harity⟩ := hL.exists_unit hlookup
  have hparams : unit.params = n := Option.some.inj (harity.symm.trans hn)
  have hfits := hL.fits
  have hframe := hL.frame_lt hp.owner
  have hwithin : f.base ≤ L.limits.maxStackWords ∧
      f.base + height ≤ L.limits.maxStackWords + f.unit.slots := hp.within
  have htop : f.top = f.base + height := hp.top_eq
  have hroom := le_of_pushed hfits (by omega) haccess hlimit
  have hheight := height_stackAddress (x := f.base + height + 1) hfits (by omega)
  have hfloor := hp.stacked.floor_le
  -- the return address lies past every word that matters
  have hother : ∀ {a z}, Height a z → z ≤ (f.base + height : Nat) →
      stackAddress (f.base + height + 1) ≠ a := by
    intro a z hz hle heq
    rw [heq] at hheight
    have := hheight.unique hz
    omega
  have hfree : ∀ x ≤ f.base, stackAddress (f.base + height + 1) ≠ stackAddress x := fun x hx =>
    hother (height_stackAddress (x := x) hfits (by omega)) (by omega)
  have hlive : ∀ d, (L.plan f.unit.code).live (f.ip + 1) d → (L.plan f.unit.code).live f.ip d := by
    intro d hd
    rcases (hL.plans f.unit (List.mem_of_getElem? hp.owner)).next f.ip _ d hi
      (by simp [Instruction.make]) (by simp [Instruction.make]) hd with hd | hwritten
    · exact hd
    · cases hwritten
  have hstacked : L.Stacked unit.params (f.base + height + 2)
      (f.wait (f.base + (height - n)) :: callers) := by
    refine ⟨?_, ?_, hp.stacked⟩
    · simp only [Activation.wait_top]
      omega
    · exact {
        owner := hp.owner
        shaped := ⟨height, hparams ▸ hshaped, by
          simp only [Activation.wait_top, Activation.wait_base]
          omega⟩
        slots_le := by
          simp only [Activation.wait_top, Activation.wait_base, Activation.wait_unit]
          omega
        top_le := by
          simp only [Activation.wait_top]
          omega
        called := ⟨f.ip, callee, line, rfl, hi, hparams ▸ hn⟩ }
  have hlinked : ∀ place m v, Anchored place f.base callers (.inside height 0) m →
      Linked place (f.wait (f.base + (height - n)) :: callers)
        (m.write (stackAddress (f.base + height + 1)) v) := by
    intro place m v hanchored
    refine ⟨?_, ?_, hp.stacked.linked_write hanchored.linked fun x hx => (hfree x (by omega)).symm⟩
    · rw [Activation.wait_base, Memory.read_write, if_neg (hfree _ (Nat.sub_le _ _))]
      exact hanchored.returns
    · rw [Activation.wait_base, Memory.read_write, if_neg (hfree _ (Nat.le_refl _))]
      exact hanchored.saved (by simp)
  have hshares : ∀ g ∈ Activation.fresh u unit (f.base + height + 2) ::
      f.wait (f.base + (height - n)) :: callers, ∀ a, L.Shares g a →
      s.memory.read a = t.memory.read a ∧ ∃ z, Height a z ∧ z ≤ (f.base + height : Nat) := by
    intro g hg a ha
    rcases List.mem_cons.mp hg with rfl | hg
    · obtain ⟨x, rfl, -, hlow, hhigh⟩ := hL.exists_argument hunit (by omega) ha
      exact ⟨hp.words f List.mem_cons_self _ (.word (by omega) (by omega)), x,
        height_stackAddress hfits (by omega), by omega⟩
    · obtain ⟨z, hz, hle⟩ := hstacked.height_of_shares hL hg ha
      simp only [floorOf, Activation.wait_top] at hle
      refine ⟨?_, z, hz, by omega⟩
      rcases List.mem_cons.mp hg with rfl | hg
      · cases ha with
        | slot hd hknown haccess =>
            exact hp.words f List.mem_cons_self _ (.slot hd ⟨hlive _ hknown.1, hknown.2⟩ haccess)
        | @word x hlow hhigh =>
            simp only [Activation.wait_base, Activation.wait_top, Activation.wait_unit] at hlow hhigh
            exact hp.words f List.mem_cons_self _ (.word hlow (by omega))
      · exact hp.words g (List.mem_cons_of_mem _ hg) a ha
  refine ⟨unit, ?_⟩
  exact {
    owner := hunit
    shaped := by
      obtain ⟨marks, hmarks⟩ := hL.shaped unit (List.mem_of_getElem? hunit)
      exact ⟨marks, hmarks, hmarks⟩
    stacked := hstacked
    within := by
      change f.base + height + 2 ≤ L.limits.maxStackWords + 1
      omega
    top_eq := rfl
    source_unit := hs'.unit_eq
    source_ip := hs'.ip_eq
    target_unit := ht'.unit_eq
    target_ip := ht'.ip_eq.trans Code.rank_zero.symm
    regs_eq := by rw [hs'.regs_eq, ht'.regs_eq, hp.regs_eq]
    flags_eq := by
      intro _ h
      cases h
    stands := by
      rw [hs'.regs_eq]
      refine ⟨Registers.rsp_set_rsp, ?_⟩
      rw [Registers.rbp_set (by simp), hp.stands.2]
      rfl
    source_anchored := by
      rw [hs'.memory_eq]
      refine ⟨?_, fun h => absurd rfl h, hlinked _ _ _ hp.source_anchored⟩
      exact Memory.read_write_self _ _ _
    target_anchored := by
      rw [ht'.memory_eq]
      refine ⟨?_, fun h => absurd rfl h, hlinked _ _ _ hp.target_anchored⟩
      rw [place, ← Code.rank_succ_of_kept hkeep]
      exact Memory.read_write_self _ _ _
    data := by
      intro a ha
      have hne : stackAddress (f.base + height + 1) ≠ a := by
        rintro rfl
        exact not_isData_of_height hheight hfits (by push_cast; omega) ha
      rw [hs'.memory_eq, ht'.memory_eq, Memory.read_write, Memory.read_write, if_neg hne,
        if_neg hne]
      exact hp.data a ha
    words := by
      intro g hg a ha
      obtain ⟨heq, z, hz, hle⟩ := hshares g hg a ha
      rw [hs'.memory_eq, ht'.memory_eq, Memory.read_write, Memory.read_write,
        if_neg (hother hz hle), if_neg (hother hz hle)]
      exact heq
    tracks := by
      intro g hg
      rcases List.mem_cons.mp hg with rfl | hg
      · intro d _ hstored
        cases hstored
      · rcases List.mem_cons.mp hg with rfl | hg
        · exact fun d hd hstored => hp.tracks f List.mem_cons_self d (hlive d hd) hstored
        · exact hp.tracks g (List.mem_cons_of_mem _ hg)
    arrived := .entry rfl }

/-- Both runs return to the caller. -/
theorem Paired.ret (hp : L.Paired f (g :: callers) .outside s t)
    (hs' : s.Enters (stackPointer (f.base - 2)) s.memory g.owner g.ip s')
    (ht' : t.Enters (stackPointer (f.base - 2)) t.memory g.owner (L.place g) t') :
    ∃ height, L.Paired g callers (.inside height f.unit.params) s' t' := by
  obtain ⟨hbase, hwaits, hrest⟩ := hp.stacked
  obtain ⟨height, hshaped, htop⟩ := hwaits.shaped
  obtain ⟨hreturns, hsaved, hlinked⟩ := hp.source_anchored.linked
  obtain ⟨hreturns', hsaved', hlinked'⟩ := hp.target_anchored.linked
  have hslots := hwaits.slots_le
  have htop_le := hwaits.top_le
  refine ⟨height, ?_⟩
  exact {
    owner := hwaits.owner
    shaped := hshaped
    stacked := hrest
    within := ⟨by omega, by omega⟩
    top_eq := by
      simp only [Shape.depth]
      omega
    source_unit := hs'.unit_eq
    source_ip := hs'.ip_eq
    target_unit := ht'.unit_eq
    target_ip := ht'.ip_eq
    regs_eq := by rw [hs'.regs_eq, ht'.regs_eq, hp.regs_eq]
    flags_eq := by
      intro _ h
      cases h
    stands := by
      rw [hs'.regs_eq]
      refine ⟨?_, ?_⟩
      · rw [Registers.rsp_set_rsp]
        congr 1
        omega
      · rw [Registers.rbp_set (by simp), hp.stands.2]
        rfl
    source_anchored := hs'.memory_eq ▸ ⟨hreturns, fun _ => hsaved, hlinked⟩
    target_anchored := ht'.memory_eq ▸ ⟨hreturns', fun _ => hsaved', hlinked'⟩
    data := by
      rw [hs'.memory_eq, ht'.memory_eq]
      exact hp.data
    words := by
      rw [hs'.memory_eq, ht'.memory_eq]
      exact fun h hh => hp.words h (List.mem_cons_of_mem _ hh)
    tracks := fun h hh => hp.tracks h (List.mem_cons_of_mem _ hh)
    arrived := by
      obtain ⟨k, callee, line, hip, hi, harity⟩ := hwaits.called
      refine .fall hip hi (fun _ => ⟨_, .call harity ?_⟩) ⟨by simp [Instruction.make], ?_, ?_⟩
      · simp only [CompiledUnit.frameSize]
        omega
      · intro dst src h
        cases h
      · rintro d (h | h) <;> cases h }

end Lockstep

end Arbor
