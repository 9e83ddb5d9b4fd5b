import Mathlib.Tactic
import Arbor.Proofs.Closure
import Arbor.Proofs.ReturnRun
import Arbor.Proofs.CallFree.Fragments

/-!
The code of an expression without calls, in a unit of a loaded program. From a machine at its
first instruction, whatever the registers and memory hold, it comes to its end or faults. It
leaves the stack and frame pointers as they were, and memory as well, apart from free stack
words and the literals it has filled. The reference evaluation says which of the two happens
and with which value, unless it looks at a free stack word.
-/

namespace Arbor

open Exec Emit

variable {env : LoweringEnv} {phrase : Phrase} {st st₁ st₂ st' : LoweringState} {code : Code}

/-- Only statements declare names. -/
theorem Lowers.slots_eq (h : Lowers env phrase st code st')
    (hphrase : phrase.declares st.scope.locals = st.scope.locals) :
    st'.scope.slots = st.scope.slots := by
  obtain ⟨more, hmore⟩ := h.leads.slots
  have hlength := congrArg List.length (h.locals_eq.trans hphrase)
  simp only [Scope.locals, hmore, List.map_append, List.length_append, List.length_map,
    Nat.add_eq_left, List.length_eq_zero_iff] at hlength
  rw [hmore, hlength, List.append_nil]

theorem mem_drop_of_getElem? {α : Type} {l : List α} {n k : Nat} {a : α} (hk : n ≤ k)
    (h : l[k]? = some a) : a ∈ l.drop n := by
  refine List.mem_of_getElem? (i := k - n) ?_
  rw [List.getElem?_drop, Nat.add_sub_cancel' hk, h]

theorem length_interleave {α : Type} (as bs : List α) (h : as.length = bs.length) :
    (interleave as bs).length = 2 * as.length := by
  induction as generalizing bs with
  | nil => rfl
  | cons a as ih =>
      cases bs with
      | nil => cases h
      | cons b bs =>
          have hrest := ih bs (Nat.succ.inj h)
          simp only [interleave, List.length_cons, hrest]
          omega

theorem Vantage.length_evaluateEach (V : Vantage) (ts : List Tree) :
    (V.evaluateEach ts).length = ts.length := by
  induction ts with
  | nil => rfl
  | cons t ts ih => simp only [evaluateEach, List.length_cons, ih]

namespace Vantage

variable {V : Vantage} {id : String} {d v : Word}

theorem evaluate_constant {line : UInt32} {c : Constant} (h : c.word? = some v) :
    V.evaluate (.constant line c) = pure v := by
  cases c with
  | int | bool | none =>
      cases h
      rfl
  | string => cases h

theorem evaluate_builtin {line : UInt32} (h : builtinConstant? id = some v) :
    V.evaluate (.name line id) = pure v := by
  change V.readName id = _
  simp only [readName, h]

theorem evaluate_slot {line : UInt32} (hbuiltin : builtinConstant? id = none)
    (hslot : V.scope.displacement? id = some d) :
    V.evaluate (.name line id) = Reckoning.word (V.base + d.toUInt64) := by
  change V.readName id = _
  simp only [readName, hbuiltin, hslot]

theorem evaluate_global {line : UInt32} (hbuiltin : builtinConstant? id = none)
    (hslot : V.scope.displacement? id = none) :
    V.evaluate (.name line id) = Reckoning.word (V.symbol (globalSymbol id)) := by
  change V.readName id = _
  simp only [readName, hbuiltin, hslot]

end Vantage

namespace Desk

variable {D : Desk}

/-- The lowering of a part of the expression. -/
structure Hosts (D : Desk) (st st' : LoweringState) : Prop where
  slots : st.scope.slots = D.scope.slots
  data : st'.data <+: D.regions
  promoted : st'.promoted ⊆ D.promoted
  first : D.first ≤ st.data.length

namespace Hosts

theorem before (h : D.Hosts st st₂) (hlowers : Lowers env phrase st₁ code st₂) :
    D.Hosts st st₁ where
  slots := h.slots
  data := by
    obtain ⟨regions, hregions⟩ := hlowers.leads.data
    exact List.IsPrefix.trans ⟨regions, hregions.symm⟩ h.data
  promoted := List.Subset.trans hlowers.within.promoted h.promoted
  first := h.first

theorem after (h : D.Hosts st st₂) (hlowers : Lowers env phrase st code st₁)
    (hphrase : phrase.declares st.scope.locals = st.scope.locals) : D.Hosts st₁ st₂ where
  slots := (hlowers.slots_eq hphrase).trans h.slots
  data := h.data
  promoted := h.promoted
  first := by
    obtain ⟨regions, hregions⟩ := hlowers.leads.data
    rw [hregions, List.length_append]
    exact h.first.trans (Nat.le_add_right _ _)

theorem displacement? (h : D.Hosts st st') (id : String) :
    D.scope.displacement? id = st.scope.displacement? id := by
  rw [Scope.displacement?, Scope.displacement?, h.slots]

/-- A literal has got its region. -/
theorem inside {r : DataRegion} (h : D.Hosts st st') : D.Hosts (st.draw.withRegion r) st' where
  slots := h.slots
  data := h.data
  promoted := h.promoted
  first := by
    rw [LoweringState.withRegion_data, List.length_append]
    exact h.first.trans (Nat.le_add_right _ _)

/-- That region is the next one. -/
theorem region {r : DataRegion} (h : D.Hosts st₁ (st.draw.withRegion r)) :
    D.regions[st.data.length]? = some r := by
  obtain ⟨more, hmore⟩ := h.data
  rw [← hmore, LoweringState.withRegion_data, List.append_assoc]
  simp

end Hosts

/-- What the code of a phrase without calls does. -/
def Carries (D : Desk) (k k' : Nat) (code : Code) : Phrase → Prop
  | .expression t => t.hasCall = false →
    D.Evaluates (D.vantage.evaluate t) t.pushDepth t.isLeaf k k' code
  | .pushes _ ts => Tree.anyCall ts = false →
    D.Stages (D.vantage.evaluateEach ts) (Tree.stageDepth (Tree.pushDepths ts)) k k' code
  | .pairs _ keys values => Tree.anyCall keys = false → Tree.anyCall values = false →
    D.Stages (interleave (D.vantage.evaluateEach keys) (D.vantage.evaluateEach values))
      (Tree.stageDepth (interleave (Tree.pushDepths keys) (Tree.pushDepths values))) k k' code
  | _ => True

/-- By induction over the lowering, one fragment at a time. -/
theorem carries (hD : D.Sound) (h : Lowers env phrase st code st') (hhosts : D.Hosts st st') :
    D.Carries st.data.length st'.data.length code phrase := by
  induction h with
  | constant hword =>
      intro _
      rw [Vantage.evaluate_constant hword]
      exact evaluates_immediate _
  | @string line bytes st =>
      intro _
      rw [LoweringState.withRegion_data, List.length_append]
      exact evaluates_string hD hhosts.first hhosts.region
  | builtin hbuiltin =>
      intro _
      rw [Vantage.evaluate_builtin hbuiltin]
      exact evaluates_immediate _
  | @slot line id d st hbuiltin hslot =>
      intro _
      have hslot' : D.vantage.scope.displacement? id = some d :=
        (hhosts.displacement? id).trans hslot
      rw [Vantage.evaluate_slot hbuiltin hslot']
      exact evaluates_slot hD hslot'
  | @global line id st hbuiltin hslot =>
      intro _
      have hslot' : D.vantage.scope.displacement? id = none := (hhosts.displacement? id).trans hslot
      have hid : id ∈ D.promoted := hhosts.promoted (Names.mem_add.mpr (.inl rfl))
      rw [Vantage.evaluate_global hbuiltin hslot']
      exact evaluates_global hD hid
  | binary hleft hright ihleft ihright =>
      intro hcalls
      obtain ⟨hcalls₁, hcalls₂⟩ := Bool.or_eq_false_iff.mp hcalls
      exact (ihleft (hhosts.before hright) hcalls₁).operands hD
        (ihright (hhosts.after hleft rfl) hcalls₂) (applies_operator _)
  | @compare line op left right st cl st₁ cr st₂ hleft hright ihleft ihright =>
      intro hcalls
      obtain ⟨hcalls₁, hcalls₂⟩ := Bool.or_eq_false_iff.mp hcalls
      have hhosts' : D.Hosts st st₂ := ⟨hhosts.slots, hhosts.data, hhosts.promoted, hhosts.first⟩
      exact (ihleft (hhosts'.before hright) hcalls₁).operands hD
        (ihright (hhosts'.after hleft rfl) hcalls₂) (applies_compare hD _ _)
  | subscript hvalue hindex ihvalue ihindex =>
      intro hcalls
      obtain ⟨hcalls₁, hcalls₂⟩ := Bool.or_eq_false_iff.mp hcalls
      exact (ihvalue (hhosts.before hindex) hcalls₁).operands hD
        (ihindex (hhosts.after hvalue rfl) hcalls₂) applies_element
  | call | externalCall =>
      intro hcalls
      cases hcalls
  | list helements ihelements =>
      intro hcalls
      have hstages := ihelements hhosts.inside hcalls
      rw [LoweringState.withRegion_data, List.length_append] at hstages
      exact hstages.literal hD (numbered_isEmpty _ _) hhosts.first (hhosts.before helements).region
        (Vantage.length_evaluateEach _ _) (Nat.lt_succ_self _)
  | @dict line keys values st code st' hlength hpairs ihpairs =>
      intro hcalls
      obtain ⟨hkeys, hvalues⟩ := Bool.or_eq_false_iff.mp hcalls
      have hstages := ihpairs hhosts.inside hkeys hvalues
      rw [LoweringState.withRegion_data, List.length_append] at hstages
      have hstaged : (interleave (D.vantage.evaluateEach keys)
          (D.vantage.evaluateEach values)).length = 2 * keys.length := by
        rw [length_interleave] <;> simp only [Vantage.length_evaluateEach, hlength]
      exact hstages.literal hD (numbered_isEmpty _ _) hhosts.first (hhosts.before hpairs).region
        hstaged (by omega)
  | pushesNil =>
      intro _
      exact stages_nil
  | pushesCons hhead htail ihhead ihtail =>
      intro hcalls
      obtain ⟨hcalls₁, hcalls₂⟩ := Bool.or_eq_false_iff.mp hcalls
      exact .cons hD (ihhead (hhosts.before htail) hcalls₁)
        (ihtail (hhosts.after hhead rfl) hcalls₂)
  | pairsNil =>
      intro _ _
      exact stages_nil
  | pairsCons hkey hvalue htail ihkey ihvalue ihtail =>
      intro hkeys hvalues
      obtain ⟨hkey', hkeys'⟩ := Bool.or_eq_false_iff.mp hkeys
      obtain ⟨hvalue', hvalues'⟩ := Bool.or_eq_false_iff.mp hvalues
      have hhosts₁ := hhosts.after hkey rfl
      exact .cons hD (ihkey ((hhosts.before htail).before hvalue) hkey')
        (.cons hD (ihvalue (hhosts₁.before htail) hvalue')
          (ihtail (hhosts₁.after hvalue rfl) hkeys' hvalues'))
  | _ => trivial

end Desk

/-- The code of an expression stands in a unit of a program whose labels are distinct, and its
program has the regions and globals that lowering the expression collected. -/
structure Program.Lodges (p : Program) (u : Nat) (before code : Code) (st st' : LoweringState) :
    Prop where
  unit : ∃ unit after, p.units[u]? = some unit ∧ unit.code = before ++ code ++ after ∧
    unit.code.labels.Nodup ∧ ∀ region ∈ st'.data.drop st.data.length, region ∈ unit.data
  globals : ∀ id ∈ st'.promoted, id ∈ p.globals

/-- A machine at a place of the code. Its stack pointer is aligned, with room for so many words
below it, and no local is below the stack pointer. -/
structure Image.Ready (img : Image) (u place : Nat) (scope : Scope) (depth : Nat)
    (s : MachineState) : Prop where
  unit_eq : s.unit = u
  ip_eq : s.ip = place
  aligned : s.regs.rsp.toUInt64 % 8 = 0
  top_le : s.regs.rsp.toUInt64 ≤ Image.stackTop
  room : img.stackLimit.toNat + 8 * depth ≤ s.regs.rsp.toUInt64.toNat
  slots : ∀ id d, scope.displacement? id = some d →
    img.accessTrap? (s.regs.rbp.toUInt64 + d.toUInt64) = none ∧
      s.regs.rsp.toUInt64 ≤ s.regs.rbp.toUInt64 + d.toUInt64

/-- A word of a list or dict. -/
def Image.IsLiteralWord (img : Image) (regions : List DataRegion) (a : Address) : Prop :=
  ∃ (symbol : String) (words : Nat) (placement : Placement) (j : Nat),
    .reserve symbol words ∈ regions ∧ img.layout.find? symbol = some placement ∧ j < words ∧
    a = placement.address + 8 * UInt64.ofNat j

/-- The place from which a machine looks. -/
def Image.vantage (img : Image) (scope : Scope) (regions : List DataRegion) (s : MachineState) :
    Vantage where
  image := img
  scope := scope
  regions := regions
  base := s.regs.rbp.toUInt64
  top := s.regs.rsp.toUInt64

/-- A run has come to the end of the code with the stack and frame as before, and has changed
nothing but free stack words and the words of lists and dicts. -/
structure Vantage.Settles (V : Vantage) (regions : List DataRegion) (u place : Nat)
    (s s' : MachineState) : Prop where
  unit_eq : s'.unit = u
  ip_eq : s'.ip = place
  rsp_eq : s'.regs.rsp = s.regs.rsp
  rbp_eq : s'.regs.rbp = s.regs.rbp
  kept : ∀ a, V.isFree a = false → ¬V.image.IsLiteralWord regions a →
    s'.memory.read a = s.memory.read a

/-- A run answers the reference evaluation: it ends with the value in `rax` and the memory of the
reference, or it faults. After a look at a free word nothing is asked. -/
def Vantage.Answers (V : Vantage) (r : EStateM.Result Fault MachineState Unit) :
    Reckoned Word → Prop
  | .value v w => ∃ s', r = .ok () s' ∧ s'.regs.rax = v ∧
    ∀ a, V.isFree a = false → s'.memory.read a = w.words a
  | .fault => ∃ e s', r = .error e s'
  | .stray => True

section Placing

variable {p : Program} {limits : Limits} {u : Nat} {before : Code} {s : MachineState} {depth : Nat}

/-- The desk of an expression. -/
def Desk.ofRun (p : Program) (limits : Limits) (u bound : Nat) (st st' : LoweringState)
    (s : MachineState) : Desk where
  setting := { world := { functions := [], program := p }, stackWords := limits.maxStackWords }
  maxSteps := limits.maxSteps
  owner := u
  scope := st.scope
  regions := st'.data
  first := st.data.length
  promoted := st'.promoted
  base := s.regs.rbp
  top := (Image.stackTop.toNat - s.regs.rsp.toUInt64.toNat) / 8
  bound := bound

/-- An aligned stack pointer is at some height. -/
theorem Image.Ready.stackAddress_eq {img : Image} {place : Nat} {scope : Scope}
    (h : img.Ready u place scope depth s) :
    stackAddress ((Image.stackTop.toNat - s.regs.rsp.toUInt64.toNat) / 8) =
      s.regs.rsp.toUInt64 := by
  have htop : Image.stackTop.toNat = 0x7fff0000 := rfl
  have hle := UInt64.le_iff_toNat_le.mp h.top_le
  have haligned : s.regs.rsp.toUInt64.toNat % 8 = 0 := by
    have := congrArg UInt64.toNat h.aligned
    simpa using this
  apply UInt64.toNat_inj.mp
  rw [toNat_stackAddress (by omega)]
  omega

theorem Desk.vantage_ofRun {bound : Nat} {img : Image} {place : Nat}
    (h : img.Ready u place st.scope depth s) :
    (Desk.ofRun p limits u bound st st' s).vantage =
      (Image.ofProgram p limits).vantage st.scope st'.data s := by
  simp only [Desk.vantage, Image.vantage, Desk.ofRun, h.stackAddress_eq]
  rfl

/-- The regions of literals are placed with the words they ask for. -/
theorem Program.Lodges.find? (h : p.Lodges u before code st st')
    (hnodup : ((Layout.requests p).map (·.1)).Nodup) {k : Nat} {region : DataRegion}
    (hk : st.data.length ≤ k) (hregion : st'.data[k]? = some region) :
    ∃ placement, (Image.ofProgram p limits).layout.find? region.symbol = some placement ∧
      placement.words = region.words := by
  obtain ⟨unit, after, hunit, -, -, hdata⟩ := h.unit
  have hmem : region ∈ unit.data := hdata region (mem_drop_of_getElem? hk hregion)
  have hrequest : (region.symbol, region.words) ∈ Layout.requests p :=
    List.mem_append_right _ (List.mem_flatMap.mpr
      ⟨unit, List.mem_of_getElem? hunit, List.mem_map.mpr ⟨region, hmem, rfl⟩⟩)
  exact Layout.find?_placedFrom hnodup hrequest

variable {m : Machine}

theorem Desk.sound_ofRun {bound : Nat} (hload : Machine.load p limits = .ok m)
    (hfits : p.Fits limits.maxStackWords) (hlodges : p.Lodges u before code st st')
    (hready : m.image.Ready u before.length st.scope depth s) :
    (Desk.ofRun p limits u bound st st' s).Sound where
  fits := hfits
  target := by
    intro pos name line rest hcode
    obtain ⟨unit, after, hunit, -, hlabels, -⟩ := hlodges.unit
    have hholds := Image.holds_of_load (Machine.image_of_load hload) hunit hlabels
    obtain ⟨-, rfl⟩ := Machine.eq_of_load hload
    refine (hholds.target name pos).mpr ⟨.labelled name line, ?_, rfl⟩
    rw [← hholds.fetch]
    exact (Image.fetch?_ofProgram p limits u pos).trans hcode.head
  slot := by
    intro id d hslot
    obtain ⟨-, rfl⟩ := Machine.eq_of_load hload
    obtain ⟨haccess, hle⟩ := hready.slots id d hslot
    refine ⟨haccess, ?_⟩
    rw [Desk.vantage_ofRun hready, Vantage.isFree, Bool.and_eq_false_iff]
    exact .inr (decide_eq_false (UInt64.not_lt.mpr hle))
  global := fun hid =>
    Layout.exists_find?_ofRequests (Layout.globalSymbol_mem_requests (hlodges.globals _ hid))
  region := fun hk hregion => hlodges.find? (Machine.eq_of_load hload).1 hk hregion

/-- The stack has room above its height. -/
theorem Image.Ready.height_add_le (hload : Machine.load p limits = .ok m)
    (hfits : p.Fits limits.maxStackWords) {place : Nat} {scope : Scope}
    (h : m.image.Ready u place scope depth s) :
    (Image.stackTop.toNat - s.regs.rsp.toUInt64.toNat) / 8 + depth ≤ limits.maxStackWords := by
  obtain ⟨-, rfl⟩ := Machine.eq_of_load hload
  have hlimit : (stackAddress limits.maxStackWords).toNat =
      Image.stackTop.toNat - 8 * limits.maxStackWords := by
    unfold Program.Fits at hfits
    exact toNat_stackAddress (by omega)
  have hroom : (stackAddress limits.maxStackWords).toNat + 8 * depth ≤ s.regs.rsp.toUInt64.toNat :=
    h.room
  have hle := UInt64.le_iff_toNat_le.mp h.top_le
  unfold Program.Fits at hfits
  omega

theorem Desk.poised_ofRun {bound : Nat} (hload : Machine.load p limits = .ok m)
    (hfits : p.Fits limits.maxStackWords)
    (hready : m.image.Ready u before.length st.scope depth s) :
    (Desk.ofRun p limits u bound st st' s).Poised before.length
      (Desk.ofRun p limits u bound st st' s).top
      { words := s.memory.read, literals := st.data.length } s where
  unit_eq := hready.unit_eq
  ip_eq := hready.ip_eq
  rsp_eq := by
    have h := congrArg UInt64.toInt64 hready.stackAddress_eq
    exact h.symm
  rbp_eq := rfl
  top_le := le_refl _
  room := (Nat.le_add_right _ depth).trans (hready.height_add_le hload hfits)
  words := fun _ _ => rfl

theorem Desk.bears_ofRun (hlodges : p.Lodges u before code st st') :
    (Desk.ofRun p limits u (before.length + code.length) st st' s).Bears before.length code where
  stands := by
    obtain ⟨unit, after, hunit, hcode, -, -⟩ := hlodges.unit
    intro k i hi
    have hlt : k < code.length := (List.getElem?_eq_some_iff.mp hi).1
    change p.units[u]?.bind (·.code[before.length + k]?) = some i
    rw [hunit, Option.bind_some, hcode, List.append_assoc, List.getElem?_append_right (by omega),
      Nat.add_sub_cancel_left, List.getElem?_append_left hlt, hi]
  le := le_refl _

theorem Desk.hosts_ofRun {bound : Nat} : (Desk.ofRun p limits u bound st st' s).Hosts st st' where
  slots := rfl
  data := List.prefix_refl _
  promoted := List.Subset.refl _
  first := le_refl _

theorem Desk.Valued.settles {D : Desk} (hD : D.Sound) {k k' : Nat} {leaf : Bool} {v : Word}
    {w w' : Slate} {s' : MachineState} (h : D.Poised k D.top w s)
    (h' : D.Valued D.bound D.top k' leaf s v w' s') :
    D.vantage.Settles (D.regions.drop D.first) D.owner D.bound s s' where
  unit_eq := h'.poised.unit_eq
  ip_eq := h'.poised.ip_eq
  rsp_eq := h'.poised.rsp_eq.trans h.rsp_eq.symm
  rbp_eq := h'.poised.rbp_eq.trans h.rbp_eq.symm
  kept := by
    intro a hfree hliteral
    refine h'.spares a ?_ ?_
    · rintro ⟨k, symbol, words, placement, j, hk, hregion, hfind, hj, rfl⟩
      exact hliteral ⟨symbol, words, placement, j, mem_drop_of_getElem? hk hregion, hfind, hj, rfl⟩
    · rintro height hlt hle rfl
      rw [Desk.isFree_stackAddress hD hlt hle] at hfree
      cases hfree

/-- Code that evaluates a reckoning, run to its end. -/
theorem Desk.Evaluates.run {D : Desk} (hD : D.Sound) {x : Reckoning Word} {leaf : Bool}
    {pos k k' : Nat} {w : Slate} (hx : D.Evaluates x depth leaf k k' code)
    (hcode : D.Bears pos code) (hend : pos + code.length = D.bound) (h : D.Poised pos D.top w s)
    (hk : w.literals = k) (hroom : D.top + depth ≤ D.setting.stackWords) :
    ((∃ e s', runTo D.image D.bound code.length s = .error e s') ∨
      ∃ s', runTo D.image D.bound code.length s = .ok () s' ∧
        D.vantage.Settles (D.regions.drop D.first) D.owner D.bound s s') ∧
    (s.steps + code.length ≤ D.maxSteps →
      D.vantage.Answers (runTo D.image D.bound code.length s) (x w)) := by
  have hmet := hx hcode h hk hroom
  rw [hend] at hmet
  have hip : D.bound ≤ s.ip + code.length := by
    rw [h.ip_eq, hend]
  constructor
  · rcases hmet.loose.runTo (fun s' ⟨_, _, h'⟩ => h'.poised.ip_eq) hip with
      ⟨s', hrun, v, w', h'⟩ | ⟨e, s', hrun, -⟩
    · exact .inr ⟨s', hrun, h'.settles hD h⟩
    · exact .inl ⟨e, s', hrun⟩
  · intro hsteps
    have hlimit : ¬D.image.limits.maxSteps < s.steps + code.length := Nat.not_lt.mpr hsteps
    cases hxw : x w with
    | value v w' =>
        rw [hxw] at hmet
        rcases Image.Comes.runTo hmet (fun s' h' => h'.poised.ip_eq) hip with
          ⟨s', hrun, h'⟩ | ⟨e, s', -, hfault | hover⟩
        · exact ⟨s', hrun, h'.value, h'.poised.words⟩
        · exact hfault.elim
        · exact absurd hover hlimit
    | fault =>
        rw [hxw] at hmet
        rcases Image.Comes.runTo hmet (fun _ => False.elim) hip with
          ⟨s', -, hfalse⟩ | ⟨e, s', hrun, -⟩
        · exact hfalse.elim
        · exact ⟨e, s', hrun⟩
    | stray => exact trivial

/-- Lowered expressions do what they stand for. -/
theorem Lower.expression_realizes_evaluate {t : Tree} {nesting : Nat}
    (hlower : Lower.expression env nesting t st = .ok code st') (hcalls : t.hasCall = false)
    (hload : Machine.load p limits = .ok m) (hfits : p.Fits limits.maxStackWords)
    (hlodges : p.Lodges u before code st st')
    (hready : m.image.Ready u before.length st.scope t.pushDepth s) :
    let V := m.image.vantage st.scope st'.data s
    let place := before.length + code.length
    let r := runTo m.image place code.length s
    ((∃ e s', r = .error e s') ∨
      ∃ s', r = .ok () s' ∧ V.Settles (st'.data.drop st.data.length) u place s s') ∧
    (s.steps + code.length ≤ limits.maxSteps →
      V.Answers r (V.evaluate t { words := s.memory.read, literals := st.data.length })) := by
  intro V place r
  have hD : (Desk.ofRun p limits u place st st' s).Sound :=
    Desk.sound_ofRun hload hfits hlodges hready
  have hevaluates := Desk.carries hD (Lower.expression_lowers t hlower) Desk.hosts_ofRun hcalls
  have hrun := hevaluates.run hD (Desk.bears_ofRun hlodges) rfl
    (Desk.poised_ofRun hload hfits hready) rfl (hready.height_add_le hload hfits)
  obtain ⟨-, rfl⟩ := Machine.eq_of_load hload
  rw [Desk.vantage_ofRun hready] at hrun
  exact hrun

end Placing

/-- `[x, 3 * (x - y)][1] > 20 % (y + 1)` -/
def appraisal : Tree :=
  .compare 1 .greater
    (.subscript 1
      (.list 1 [.name 1 "x",
        .binary 1 .mult (.constant 1 (.int 3)) (.binary 1 .sub (.name 1 "x") (.name 1 "y"))])
      (.constant 1 (.int 1)))
    (.binary 1 .mod (.constant 1 (.int 20)) (.binary 1 .add (.name 1 "y") (.constant 1 (.int 1))))

def appraisalStart : LoweringState where
  scope := { owner := "appraise", slots := [("x", -8), ("y", -16)] }

def appraisalLowering : EStateM.Result NodeError LoweringState Code :=
  Lower.expression (envOf [] id) 0 appraisal appraisalStart

def appraisalCode : Code :=
  match appraisalLowering with
  | .ok code _ => code
  | .error _ _ => []

def appraisalEnd : LoweringState :=
  match appraisalLowering with
  | .ok _ st | .error _ st => st

def appraisalUnit : CompiledUnit where
  name := "appraise"
  code := .labelled "start" 1 :: appraisalCode
  data := appraisalEnd.data

def appraisalMachine : Machine :=
  .fresh (Image.ofProgram { units := [appraisalUnit] } { maxSteps := 64, maxStackWords := 16 })

/-- The locals are 5 and 2, and the scratch registers hold what they held. -/
def appraisalState : MachineState where
  memory := (Memory.write {} (Image.stackTop - 16) 5).write (Image.stackTop - 24) 2
  regs := { rax := 1, rbx := 2, rcx := 3, rdx := 4, rbp := 0x7ffefff8, rsp := 0x7ffeffe8 }
  ip := 1

/-- The list has 9 at its second place, and 9 is greater than 2. -/
theorem appraisal_realized :
    Lower.expression (envOf [] id) 0 appraisal appraisalStart = .ok appraisalCode appraisalEnd ∧
    appraisal.hasCall = false ∧ appraisal.pushDepth = 2 ∧
    ∃ s', runTo appraisalMachine.image (1 + appraisalCode.length) appraisalCode.length
        appraisalState = .ok () s' ∧ s'.regs.rax = 1 ∧
      (appraisalMachine.image.vantage appraisalStart.scope appraisalEnd.data appraisalState).Settles
        appraisalEnd.data 0 (1 + appraisalCode.length) appraisalState s' := by
  have hlower : Lower.expression (envOf [] id) 0 appraisal appraisalStart =
      .ok appraisalCode appraisalEnd := rfl
  have hload : Machine.load { units := [appraisalUnit] } { maxSteps := 64, maxStackWords := 16 } =
      .ok appraisalMachine := rfl
  have hlodges : Program.Lodges { units := [appraisalUnit] } 0 [.labelled "start" 1] appraisalCode
      appraisalStart appraisalEnd :=
    ⟨⟨appraisalUnit, [], rfl, (List.append_nil _).symm, by decide +kernel, fun _ h => h⟩,
      fun _ h => absurd h List.not_mem_nil⟩
  have hready : appraisalMachine.image.Ready 0 1 appraisalStart.scope appraisal.pushDepth
      appraisalState := by
    refine ⟨rfl, rfl, by decide, by decide, by decide +kernel, ?_⟩
    intro id d hslot
    rw [Scope.displacement?, lookup_eq_some_iff_mem (by decide)] at hslot
    obtain ⟨rfl, rfl⟩ | ⟨rfl, rfl⟩ : (id = "x" ∧ d = -8) ∨ (id = "y" ∧ d = -16) := by
      simpa [appraisalStart] using hslot
    · exact ⟨by decide +kernel, by decide⟩
    · exact ⟨by decide +kernel, by decide⟩
  obtain ⟨hends, hanswers⟩ :=
    Lower.expression_realizes_evaluate hlower rfl hload (by decide +kernel) hlodges hready
  have hanswers := hanswers (by decide +kernel)
  have hvalue : ((appraisalMachine.image.vantage appraisalStart.scope appraisalEnd.data
      appraisalState).evaluate appraisal
        { words := appraisalState.memory.read, literals := appraisalStart.data.length }).value? =
      some 1 := by decide +kernel
  obtain ⟨w, heval⟩ := Reckoned.exists_of_value? hvalue
  rw [heval] at hanswers
  obtain ⟨s', hrun, hrax, -⟩ := hanswers
  refine ⟨hlower, rfl, by decide, ?_⟩
  rcases hends with ⟨e, t, herror⟩ | ⟨t, hok, hsettles⟩
  · cases hrun.symm.trans herror
  · cases hrun.symm.trans hok
    exact ⟨s', hrun, hrax, hsettles⟩

end Arbor
