import Mathlib.Tactic
import Arbor.Proofs.Activation
import Arbor.Proofs.Uniqueness

/-!
What it means that machine code does what an interpreter does: whenever the interpreter
has a result for a piece of text and the stack is large enough, the code lowered from
that text leads the machine from any state that holds the store to one that holds the
store left behind. The interpreter of one level more is built from the one below it, and
so is this property.
-/

namespace Arbor

/-- A program that was linked from the functions of its world and can be run: return
addresses have room for its positions, and its data area ends below the stack. -/
structure Setting.Compiled (E : Setting) (labels : Nat → Nat → Nat) : Prop where
  links : Links E.world.functions labels E.world.program
  fits : E.Fits
  addressable : E.world.program.Addressable

/-- An activation of a function of a linked program. `final` is what lowering the function
collected. -/
structure Placed (E : Setting) (labels : Nat → Nat → Nat) (F : Frame) (final : LoweringState) :
    Prop where
  compiled : E.Compiled labels
  names_eq : F.names = final.scope.locals
  framed : final.scope.Framed F.params
  unit : ∃ unit, E.world.program.units[F.owner]? = some unit ∧ unit.data = final.data

/-- The environment in which the function at a position is lowered. -/
def Setting.env (E : Setting) (labels : Nat → Nat → Nat) (u : Nat) : LoweringEnv :=
  envOf E.world.functions (labels u)

/-- Values wait on the stack above a height, the first one lowest. -/
def StackHolds (s : MachineState) (height : Nat) (values : List Word) : Prop :=
  ∀ (k : Nat) v, values[k]? = some v → s.stackWord (height + 1 + k) = v

/-- The machine has the value of an expression in `rax`. -/
structure Evaluated (E : Setting) (F : Frame) (pos height : Nat) (o : Finished Word)
    (s s' : MachineState) : Prop where
  running : Running E F pos height o.store s'
  value : s'.regs.rax = o.value
  kept : Kept height s s'

/-- Two operands are in `rbx` and `rax`. -/
structure EvaluatedBoth (E : Setting) (F : Frame) (pos height : Nat) (o : Finished (Word × Word))
    (s s' : MachineState) : Prop where
  running : Running E F pos height o.store s'
  left : s'.regs.rbx = o.value.1
  right : s'.regs.rax = o.value.2
  kept : Kept height s s'

/-- Values have been pushed. -/
structure Staged (E : Setting) (F : Frame) (pos height : Nat) (o : Finished (List Word))
    (s s' : MachineState) : Prop where
  running : Running E F pos (height + o.value.length) o.store s'
  values : StackHolds s' height o.value
  kept : Kept height s s'

/-- The machine is about to return a value from an activation. -/
structure Exits (E : Setting) (F : Frame) (v : Word) (σ : Store) (s s' : MachineState) : Prop where
  fetch : ∃ line, E.fetch? s'.unit s'.ip = some (.make .ret [] line)
  value : s'.regs.rax = v
  rsp_eq : s'.regs.rsp = stackPointer (F.base - 1)
  rbp_eq : s'.regs.rbp = s.stackWord F.base
  data : ∀ a, E.world.isData a = true → s'.memory.read a = σ.data a
  kept : KeptOutside F s s'

def Completes (E : Setting) (F : Frame) (pos : Nat) (o : Finished Completion)
    (s s' : MachineState) : Prop :=
  match o.value with
  | .next => Running E F pos F.top o.store s' ∧ KeptOutside F s s'
  | .returned v => Exits E F v o.store s s'

/-- A function is about to start, with its arguments and the return address pushed. -/
structure Entered (E : Setting) (owner height : Nat) (args : List Word) (σ : Store)
    (s : MachineState) : Prop where
  unit_eq : s.unit = owner
  ip_eq : s.ip = 0
  rsp_eq : s.regs.rsp = stackPointer (height + args.length + 1)
  room : height + args.length + 1 ≤ E.stackWords
  args_eq : StackHolds s height args
  data : ∀ a, E.world.isData a = true → s.memory.read a = σ.data a

/-- A function is about to return to where it was called from. -/
structure Leaves (E : Setting) (height ret : Nat) (o : Finished Word) (s s' : MachineState) :
    Prop where
  fetch : ∃ line, E.fetch? s'.unit s'.ip = some (.make .ret [] line)
  value : s'.regs.rax = o.value
  rsp_eq : s'.regs.rsp = stackPointer ret
  rbp_eq : s'.regs.rbp = s.regs.rbp
  data : ∀ a, E.world.isData a = true → s'.memory.read a = o.store.data a
  kept : Kept height s s'
  return_eq : s'.stackWord ret = s.stackWord ret

/-- The machine does to expressions and statements what an interpreter does. -/
structure Simulates (E : Setting) (labels : Nat → Nat → Nat) (I : Interpreter) : Prop where
  evaluate : ∀ {F final t st code st' pos height σ o s}, Placed E labels F final →
    Lowers (E.env labels F.owner) (.expression t) st code st' → st'.Leads final →
    E.CodeAt F.owner pos code → Running E F pos height σ s →
    I.evaluate (st.point F.owner) height t σ = some o → o.need ≤ E.stackWords →
    E.Leads s (Evaluated E F (pos + code.length) height o s)
  leaf : ∀ {F final t st code st' pos height σ o s}, Placed E labels F final →
    Lowers (E.env labels F.owner) (.expression t) st code st' → st'.Leads final →
    E.CodeAt F.owner pos code → Running E F pos height σ s →
    I.evaluate (st.point F.owner) height t σ = some o → t.isLeaf = true →
    E.Leads s fun s' =>
      Evaluated E F (pos + code.length) height o s s' ∧ s'.regs.rbx = s.regs.rbx
  execute : ∀ {F final t st code st' pos σ o s}, Placed E labels F final →
    Lowers (E.env labels F.owner) (.statement t) st code st' → st'.Leads final →
    E.CodeAt F.owner pos code → Running E F pos F.top σ s →
    I.execute (st.point F.owner) F.top t σ = some o → o.need ≤ E.stackWords →
    E.Leads s (Completes E F (pos + code.length) o s)

theorem Setting.symbolAddress_image {E : Setting} {symbol : String} {placement : Placement}
    (h : E.world.layout.find? symbol = some placement) (maxSteps : Nat) :
    (E.image maxSteps).symbolAddress symbol = .ok placement.address := by
  have hlayout : (E.image maxSteps).layout.find? symbol = some placement := h
  simp only [Image.symbolAddress, hlayout]

theorem Image.loadUnit_labels (unit : CompiledUnit) :
    (Image.loadUnit unit).labels.map (·.1) = unit.code.labels.reverse := by
  have hlabel : (fun x : Instruction × Nat => (x.1.label.map fun l => (l, x.2)).map (·.1)) =
      fun x => x.1.label := by
    funext x
    simp [Option.map_map, Function.comp_def]
  rw [Image.loadUnit, List.map_reverse, List.map_filterMap, hlabel, Code.labels]
  conv_rhs => rw [← List.zipIdx_map_fst 0 unit.code, List.filterMap_map]
  rfl

namespace Placed

variable {E : Setting} {labels : Nat → Nat → Nat} {F : Frame} {st final : LoweringState}

/-- A label is found where it stands. -/
theorem target (h : Placed E labels F final) {pos : Nat} {name : String} {line : UInt32}
    {rest : Code} (hcode : E.CodeAt F.owner pos (.labelled name line :: rest)) :
    E.target? F.owner name = some pos := by
  obtain ⟨unit, hunit, -⟩ := h.unit
  have hfetch := hcode.head
  rw [Setting.fetch?, hunit] at hfetch
  rw [Setting.target?, hunit]
  have hnodup : unit.code.labels.Nodup :=
    ((h.compiled.links.unit_definedSymbols_nodup hunit).sublist (List.sublist_append_left _ _))
  refine (lookup_eq_some_iff_mem ?_).mpr ?_
  · rw [Image.loadUnit_labels]
    exact List.nodup_reverse.mpr hnodup
  rw [Image.loadUnit, List.mem_reverse, List.mem_filterMap]
  exact ⟨(_, pos), List.mem_zipIdx_iff_getElem?.mpr hfetch, rfl⟩

/-- A local has its slot at the position of its name. -/
theorem slot (h : Placed E labels F final) (hleads : st.Leads final) {id : String} {d : Word}
    (hslot : st.scope.displacement? id = some d) :
    ∃ j : Nat, F.names[j]? = some id ∧ slotDisplacement F.params j = d := by
  rw [h.names_eq]
  exact h.framed.displacement?_eq_some_iff.mp (hleads.displacement? hslot)

/-- A literal has its own region, with room for all its words. -/
theorem literal (h : Placed E labels F final) {region : DataRegion}
    (hleads : (st.draw.withRegion region).Leads final) {a : Address}
    (ha : E.world.literal? (st.point F.owner) = some a) :
    ∃ placement, E.world.layout.find? region.symbol = some placement ∧
      placement.address = a ∧ placement.words = region.words := by
  obtain ⟨unit, hunit, hdata⟩ := h.unit
  obtain ⟨regions, hregions⟩ := hleads.data
  have hregion : unit.data[st.data.length]? = some region := by
    rw [hdata, hregions]
    simp
  have hmem : (region.symbol, region.words) ∈ Layout.requests E.world.program := by
    refine List.mem_append_right _ (List.mem_flatMap.mpr ⟨unit, List.mem_of_getElem? hunit, ?_⟩)
    exact List.mem_map.mpr ⟨region, List.mem_of_getElem? hregion, rfl⟩
  obtain ⟨placement, hfind, hwords⟩ := Layout.find?_placedFrom
    h.compiled.links.requests_nodup hmem
  refine ⟨placement, hfind, ?_, hwords⟩
  have hfind' : E.world.layout.find? region.symbol = some placement := hfind
  simpa [World.literal?, LoweringState.point, hunit, hregion, World.address?, hfind'] using ha

end Placed

end Arbor
