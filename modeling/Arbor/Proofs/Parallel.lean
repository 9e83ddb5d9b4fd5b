import Mathlib.Tactic
import Arbor.Proofs.Closure
import Arbor.Proofs.Execution
import Arbor.Proofs.Renaming

/-!
Lowering side by side gives the program of lowering in turn, up to one renumbering
of its generated symbols, and a machine cannot tell the two apart: data is laid out
at the same addresses, and every step does the same to the same state.
-/

namespace Arbor

theorem lookup_map_of_injective {α : Type} {f : String → String} (hf : Function.Injective f)
    (key : String) (entries : List (String × α)) :
    (entries.map fun e => (f e.1, e.2)).lookup (f key) = entries.lookup key := by
  induction entries with
  | nil => rfl
  | cons e rest ih =>
      obtain ⟨name, a⟩ := e
      by_cases hname : key = name
      · simp [List.lookup, hname]
      · have hbeq : (key == name) = false := by simpa using hname
        have hbeq' : (f key == f name) = false := by simpa using fun h => hname (hf h)
        simp only [List.map_cons, List.lookup, hbeq, hbeq', ih]

/-- The second image is the first one with its generated symbols renumbered. -/
structure Image.Renumbers (ρ : Nat → Nat) (img img' : Image) : Prop where
  limits : img'.limits = img.limits
  dataEnd : img'.layout.dataEnd = img.layout.dataEnd
  functions : img'.functions = img.functions
  size : img'.units.size = img.units.size
  names : ∀ u : Nat, img'.units[u]?.map (·.name) = img.units[u]?.map (·.name)
  code : ∀ u k, img'.fetch? u k = (img.fetch? u k).map (Instruction.renumber ρ)
  labels : ∀ u label, img'.target? u (renumberSymbol ρ label) = img.target? u label
  symbols : ∀ symbol placement, img.layout.find? symbol = some placement →
    img'.symbolAddress (renumberSymbol ρ symbol) = .ok placement.address

/-- The symbols that code may refer to are defined in the image. -/
structure Surroundings.Defined (σ : Surroundings) (img : Image) (u : Nat) : Prop where
  labels : ∀ label ∈ σ.labels, ∃ k, img.target? u label = some k
  globals : ∀ name ∈ σ.globals, ∃ placement, img.layout.find? (globalSymbol name) = some placement
  data : ∀ region ∈ σ.data, ∃ placement, img.layout.find? region.symbol = some placement
  callable : ∀ callee, σ.callable callee → isReservedSymbol callee = false

namespace Image.Renumbers

open Exec

variable {ρ : Nat → Nat} {img img' : Image}

theorem stackLimit_eq (h : Renumbers ρ img img') : img'.stackLimit = img.stackLimit := by
  rw [stackLimit, stackLimit, h.limits]

theorem accessTrap?_eq (h : Renumbers ρ img img') (a : Address) :
    img'.accessTrap? a = img.accessTrap? a := by
  have hdata : img'.isData a = img.isData a := by rw [isData, isData, h.dataEnd]
  have hstack : img'.isStack a = img.isStack a := by rw [isStack, isStack, h.stackLimit_eq]
  rw [accessTrap?, accessTrap?, hdata, hstack]

theorem faultOf_eq (h : Renumbers ρ img img') (s : MachineState) (t : Trap) :
    img'.faultOf s t = img.faultOf s t := by
  have hsite : img'.site s = img.site s := by
    have hname := congrArg (Option.map fun name => Site.mk name (s.ip - 1)) (h.names s.unit)
    simp only [Option.map_map, Function.comp_def] at hname
    exact hname
  rw [faultOf, faultOf, hsite]

theorem trap_eq (h : Renumbers ρ img img') {α : Type} (t : Trap) :
    (trap img' t : Exec α) = trap img t := by
  funext s
  simp only [trap, h.faultOf_eq]

theorem load_eq (h : Renumbers ρ img img') (a : Address) : Exec.load img' a = Exec.load img a := by
  funext s
  simp only [Exec.load, load?, h.accessTrap?_eq, h.faultOf_eq]

theorem store_eq (h : Renumbers ρ img img') (a : Address) (v : Word) :
    store img' a v = store img a v := by
  simp only [store, h.accessTrap?_eq, h.trap_eq]

theorem push_eq (h : Renumbers ρ img img') (v : Word) : push img' v = push img v := by
  simp only [push, h.stackLimit_eq, h.trap_eq, h.store_eq]

theorem pop_eq (h : Renumbers ρ img img') : pop img' = pop img := by
  simp only [pop, h.load_eq]

theorem ret_eq (h : Renumbers ρ img img') : ret img' = ret img := by
  simp only [ret, h.pop_eq, h.size, h.trap_eq]

theorem symbolAddress_eq (h : Renumbers ρ img img') {symbol : String}
    (hfind : ∃ placement, img.layout.find? symbol = some placement) :
    img'.symbolAddress (renumberSymbol ρ symbol) = img.symbolAddress symbol := by
  obtain ⟨placement, hfind⟩ := hfind
  rw [h.symbols symbol placement hfind, symbolAddress, hfind]

/-- A word of storage has one address in both images. -/
theorem addressOf_global (h : Renumbers ρ img img') {symbol : String} {placement : Placement}
    (hfind : img.layout.find? symbol = some placement) (d : Word) :
    addressOf img' ((Operand.global symbol d).renumber ρ) =
      addressOf img (Operand.global symbol d) := by
  simp only [addressOf, Operand.renumber, Operand.global, renumberSymbol_isEmpty,
    h.symbolAddress_eq ⟨placement, hfind⟩]

variable {σ : Surroundings} {u : Nat}

theorem addressOf_placed (h : Renumbers ρ img img') (hσ : σ.Defined img u) {o : Operand}
    (ho : o.Placed σ) (hkind : o.kind = .memory) :
    addressOf img' (o.renumber ρ) = addressOf img o := by
  cases ho with
  | reg r => cases hkind
  | imm v => cases hkind
  | slot d =>
      rw [Operand.renumber_frameSlot]
      rfl
  | element base index d =>
      rw [Operand.renumber_element]
      rfl
  | global hname =>
      obtain ⟨placement, hfind⟩ := hσ.globals _ hname
      exact h.addressOf_global hfind 0
  | word hregion hk =>
      obtain ⟨placement, hfind⟩ := hσ.data _ hregion
      exact h.addressOf_global hfind _

theorem read_placed (h : Renumbers ρ img img') (hσ : σ.Defined img u) {o : Operand}
    (ho : o.Placed σ) : read img' (o.renumber ρ) = read img o := by
  by_cases hkind : o.kind = .memory
  · have hkind' : (o.renumber ρ).kind = .memory := hkind
    simp only [Exec.read, hkind, hkind', h.addressOf_placed hσ ho hkind, h.load_eq]
  · cases ho with
    | reg r =>
        rw [Operand.renumber_ofReg]
        rfl
    | imm v =>
        rw [Operand.renumber_imm]
        rfl
    | slot | element | global | word => exact absurd rfl hkind

theorem write_placed (h : Renumbers ρ img img') (hσ : σ.Defined img u) {o : Operand}
    (ho : o.Placed σ) (hdst : o.kind ≠ .immediate) (v : Word) :
    write img' (o.renumber ρ) v = write img o v := by
  by_cases hkind : o.kind = .memory
  · have hkind' : (o.renumber ρ).kind = .memory := hkind
    simp only [Exec.write, hkind, hkind', h.addressOf_placed hσ ho hkind, h.store_eq]
  · cases ho with
    | reg r =>
        rw [Operand.renumber_ofReg]
        rfl
    | imm v => exact absurd rfl hdst
    | slot | element | global | word => exact absurd rfl hkind

theorem unary_renumber (h : Renumbers ρ img img') {i : Instruction}
    {action action' : Operand → Exec Unit}
    (haction : ∀ o, i.operands = [o] → action' (o.renumber ρ) = action o) :
    unary img' (i.renumber ρ) action' = unary img i action := by
  unfold unary
  cases hos : i.operands with
  | nil => simp [Instruction.renumber, hos, h.trap_eq]
  | cons a rest =>
      cases rest with
      | nil => simpa [Instruction.renumber, hos] using haction a hos
      | cons b rest => simp [Instruction.renumber, hos, h.trap_eq]

theorem binary_renumber (h : Renumbers ρ img img') {i : Instruction}
    {action action' : Operand → Operand → Exec Unit}
    (haction : ∀ a b, i.operands = [a, b] →
      action' (a.renumber ρ) (b.renumber ρ) = action a b) :
    binary img' (i.renumber ρ) action' = binary img i action := by
  unfold binary
  cases hos : i.operands with
  | nil => simp [Instruction.renumber, hos, h.trap_eq]
  | cons a rest =>
      cases rest with
      | nil => simp [Instruction.renumber, hos, h.trap_eq]
      | cons b rest =>
          cases rest with
          | nil => simpa [Instruction.renumber, hos] using haction a b hos
          | cons c rest => simp [Instruction.renumber, hos, h.trap_eq]

theorem divide_placed (h : Renumbers ρ img img') (hσ : σ.Defined img u) {o : Operand}
    (ho : o.Placed σ) : divide img' (o.renumber ρ) = divide img o := by
  simp only [divide, h.read_placed hσ ho, h.trap_eq]

theorem combine_placed (h : Renumbers ρ img img') (hσ : σ.Defined img u) {a b : Operand}
    (ha : a.Placed σ) (hb : b.Placed σ) (hdst : a.kind ≠ .immediate) (f : Word → Word → Word) :
    combine img' f (a.renumber ρ) (b.renumber ρ) = combine img f a b := by
  simp only [combine, h.read_placed hσ ha, h.read_placed hσ hb, h.write_placed hσ ha hdst]

theorem exchange_placed (h : Renumbers ρ img img') (hσ : σ.Defined img u) {a b : Operand}
    (ha : a.Placed σ) (hb : b.Placed σ) (hdst : a.kind ≠ .immediate) (hdst' : b.kind ≠ .immediate) :
    exchange img' (a.renumber ρ) (b.renumber ρ) = exchange img a b := by
  simp only [exchange, h.read_placed hσ ha, h.read_placed hσ hb, h.write_placed hσ ha hdst,
    h.write_placed hσ hb hdst']

/-- Instructions on values and words of storage do the same in both images. -/
theorem instruction_plain (h : Renumbers ρ img img') (hσ : σ.Defined img u) {m : Mnemonic}
    {os : List Operand} {line : UInt32} (hm : m.isPlain) (hos : ∀ o ∈ os, o.Placed σ)
    (hdst : ∀ o ∈ os.head?, o.kind ≠ .immediate)
    (hxchg : m = .xchg → ∀ o ∈ os, o.kind ≠ .immediate) :
    instruction img' ((Instruction.make m os line).renumber ρ) =
      instruction img (.make m os line) := by
  have hunary : ∀ {action action' : Operand → Exec Unit},
      (∀ o, o.Placed σ → o.kind ≠ .immediate → action' (o.renumber ρ) = action o) →
      unary img' ((Instruction.make m os line).renumber ρ) action' =
        unary img (.make m os line) action := by
    intro action action' haction
    apply h.unary_renumber
    rintro o ⟨⟩
    exact haction o (hos o (by simp)) (hdst o (by simp))
  have hbinary : ∀ {action action' : Operand → Operand → Exec Unit},
      (∀ a b, a.Placed σ → b.Placed σ → a.kind ≠ .immediate →
        (m = .xchg → b.kind ≠ .immediate) →
        action' (a.renumber ρ) (b.renumber ρ) = action a b) →
      binary img' ((Instruction.make m os line).renumber ρ) action' =
        binary img (.make m os line) action := by
    intro action action' haction
    apply h.binary_renumber
    rintro a b ⟨⟩
    exact haction a b (hos a (by simp)) (hos b (by simp)) (hdst a (by simp))
      fun hm => hxchg hm b (by simp)
  -- Every case ends by answering that the call goes on.
  let ending (x : Exec Unit) : Exec Bool := do x; return false
  cases m with
  | none => rfl
  | jmp | jz | je | jne | jg | jl | jge | jle | call | lea => cases hm
  | cqo => rfl
  | ret => exact h.ret_eq
  | mov =>
      refine congrArg ending (hbinary fun a b ha hb hdst _ => ?_)
      simp only [h.read_placed hσ hb, h.write_placed hσ ha hdst]
  | xchg =>
      refine congrArg ending (hbinary fun a b ha hb hdst hdst' => ?_)
      exact h.exchange_placed hσ ha hb hdst (hdst' rfl)
  | push =>
      refine congrArg ending (hunary fun o ho _ => ?_)
      simp only [h.read_placed hσ ho, h.push_eq]
  | pop =>
      refine congrArg ending (hunary fun o ho hdst => ?_)
      simp only [h.write_placed hσ ho hdst, h.pop_eq]
  | add => exact congrArg ending (hbinary fun a b ha hb hdst _ => h.combine_placed hσ ha hb hdst _)
  | sub => exact congrArg ending (hbinary fun a b ha hb hdst _ => h.combine_placed hσ ha hb hdst _)
  | imul =>
      exact congrArg ending (hbinary fun a b ha hb hdst _ => h.combine_placed hσ ha hb hdst _)
  | idiv => exact congrArg ending (hunary fun o ho _ => h.divide_placed hσ ho)
  | cmp =>
      refine congrArg ending (hbinary fun a b ha hb _ _ => ?_)
      simp only [compareWords, h.read_placed hσ ha, h.read_placed hσ hb]
  | test =>
      refine congrArg ending (hbinary fun a b ha hb _ _ => ?_)
      simp only [testWords, h.read_placed hσ ha, h.read_placed hσ hb]

/-- A label of the unit that is running is where it was. -/
theorem jump_defined (h : Renumbers ρ img img') {label : String} {s : MachineState} {k : Nat}
    (hlabel : img.target? s.unit label = some k) :
    jump img' (renumberSymbol ρ label) s = jump img label s := by
  have hlabel' := h.labels s.unit label
  rw [hlabel] at hlabel'
  have hrun : ∀ (img : Image) (label : String), img.target? s.unit label = some k →
      jump img label s = .ok () { s with ip := k } := by
    intro img label hlabel
    unfold target? at hlabel
    simp only [jump, bind, EStateM.bind, get, getThe, MonadStateOf.get, EStateM.get, hlabel]
    rfl
  rw [hrun img label hlabel, hrun img' _ hlabel']

theorem call_eq (h : Renumbers ρ img img') (callee : String) : call img' callee = call img callee := by
  simp only [call, h.functions, h.trap_eq, h.push_eq]

theorem bind_congr_at {ε τ α β : Type} {x y : EStateM ε τ α} {k : α → EStateM ε τ β} {s : τ}
    (h : x s = y s) : (x >>= k) s = (y >>= k) s := by
  change EStateM.bind x k s = EStateM.bind y k s
  simp only [EStateM.bind, h]

/-- A jump of either kind goes to the same place, or stays. -/
theorem instruction_jump (h : Renumbers ρ img img') {m : Mnemonic} (hm : m.isJump)
    {label : String} (line : UInt32) {s : MachineState} {k : Nat}
    (hlabel : img.target? s.unit label = some k) :
    instruction img' (.make m [.sym (renumberSymbol ρ label)] line) s =
      instruction img (.make m [.sym label] line) s := by
  have hjump := h.jump_defined hlabel
  have hconditional : ∀ taken : Bool,
      (if taken then jump img' (renumberSymbol ρ label) else pure () : Exec Unit) s =
        (if taken then jump img label else pure () : Exec Unit) s := by
    intro taken
    cases taken
    · rfl
    · exact hjump
  cases m with
  | jmp => exact bind_congr_at hjump
  | jz | je | jne | jg | jl | jge | jle => exact bind_congr_at (hconditional _)
  | _ => cases hm

/-- A closed instruction does the same in both images. -/
theorem instruction_closed (h : Renumbers ρ img img') {i : Instruction} {s : MachineState}
    (hσ : σ.Defined img s.unit) (hi : i.Closed σ) :
    instruction img' (i.renumber ρ) s = instruction img i s := by
  cases hi with
  | label name line => rfl
  | plain hm hos hdst hxchg => rw [h.instruction_plain hσ hm hos hdst hxchg]
  | @call callee line hcallee =>
      have hfixed := renumberSymbol_of_unreserved ρ (hσ.callable callee hcallee)
      change (do call img' (renumberSymbol ρ callee); return false : Exec Bool) s =
        (do call img callee; return false : Exec Bool) s
      rw [hfixed, h.call_eq]
  | @lea region line hregion =>
      obtain ⟨placement, hfind⟩ := hσ.data region hregion
      have haddress : addressOf img' (.sym (renumberSymbol ρ region.symbol)) =
          addressOf img (.sym region.symbol) := by
        change ofExcept (img'.symbolAddress (renumberSymbol ρ region.symbol)) =
          ofExcept (img.symbolAddress region.symbol)
        rw [h.symbolAddress_eq ⟨placement, hfind⟩]
      refine bind_congr_at ?_
      change (do Exec.write img' ((Operand.ofReg .rax).renumber ρ)
                  (← addressOf img' (.sym (renumberSymbol ρ region.symbol))).toInt64) s =
        (do Exec.write img (.ofReg .rax) (← addressOf img (.sym region.symbol)).toInt64) s
      rw [haddress, Operand.renumber_ofReg]
      rfl
  | @jump m label line hm hlabel =>
      obtain ⟨k, hk⟩ := hσ.labels label hlabel
      exact h.instruction_jump hm line hk

/-- One step of a closed program is the same step in both images. -/
theorem step_eq (h : Renumbers ρ img img')
    (hclosed : ∀ u k i, img.fetch? u k = some i → ∃ σ : Surroundings, σ.Defined img u ∧ i.Closed σ) :
    step img' = step img := by
  funext s
  rw [Exec.step_eq, Exec.step_eq, h.code]
  cases hfetch : img.fetch? s.unit s.ip with
  | none => simp only [Option.map_none, h.faultOf_eq]
  | some i =>
      obtain ⟨σ, hσ, hi⟩ := hclosed _ _ _ hfetch
      have hinstruction : instruction img' (i.renumber ρ) s.next = instruction img i s.next :=
        h.instruction_closed hσ hi
      simp only [Option.map_some, h.limits, h.faultOf_eq, hinstruction]

theorem run_eq (hstep : step img' = step img) (budget : Nat) : run img' budget = run img budget := by
  induction budget with
  | zero => rw [run, run, hstep]
  | succ budget ih => rw [run, run, hstep, ih]

theorem pushArgs_eq (h : Renumbers ρ img img') (args : List Word) :
    pushArgs img' args = pushArgs img args := by
  induction args with
  | nil => rfl
  | cons v rest ih => rw [pushArgs, pushArgs, h.push_eq, ih]

theorem callFunction_eq (h : Renumbers ρ img img') (hstep : step img' = step img) (name : String)
    (args : List Word) : callFunction img' name args = callFunction img name args := by
  simp only [callFunction, h.functions, h.pushArgs_eq, h.push_eq, h.limits, run_eq hstep]

end Image.Renumbers

namespace Layout

variable {f : String → String}

theorem placedFrom_map (f : String → String) (a : Address) (requests : List (String × Nat)) :
    placedFrom a (requests.map fun r => (f r.1, r.2)) =
      (placedFrom a requests).map fun placement =>
        { placement with symbol := f placement.symbol } := by
  induction requests generalizing a with
  | nil => rfl
  | cons request rest ih => simp [placedFrom, ih]

theorem endFrom_map (f : String → String) (a : Address) (requests : List (String × Nat)) :
    endFrom a (requests.map fun r => (f r.1, r.2)) = endFrom a requests := by
  induction requests generalizing a with
  | nil => rfl
  | cons request rest ih => simp [endFrom, ih]

/-- A symbol and its image under an injective renaming are placed alike. -/
theorem find?_ofRequests_map (hf : Function.Injective f) (requests : List (String × Nat))
    (symbol : String) :
    (ofRequests (requests.map fun r => (f r.1, r.2))).find? (f symbol) =
      ((ofRequests requests).find? symbol).map fun placement =>
        { placement with symbol := f placement.symbol } := by
  have hbeq : ∀ a : String, (f a == f symbol) = (a == symbol) := by
    intro a
    rw [Bool.eq_iff_iff, beq_iff_eq, beq_iff_eq]
    exact hf.eq_iff
  simp only [find?, ofRequests, placedFrom_map, List.find?_map, Function.comp_def, hbeq]

theorem requests_renumber (ρ : Nat → Nat) (p : Program) :
    requests (p.renumber ρ) = (requests p).map fun r => (renumberSymbol ρ r.1, r.2) := by
  have hregion : ∀ region : DataRegion,
      ((region.renumber ρ).symbol, (region.renumber ρ).words) =
        (renumberSymbol ρ region.symbol, region.words) := by
    intro region
    cases region <;> rfl
  simp [requests, Program.renumber, CompiledUnit.renumber, List.map_flatMap, List.flatMap_map,
    renumberSymbol_globalSymbol, hregion, Function.comp_def]

end Layout

theorem Code.labelPositions_renumber (ρ : Nat → Nat) (unit : CompiledUnit) :
    (Image.loadUnit (unit.renumber ρ)).labels =
      (Image.loadUnit unit).labels.map fun e => (renumberSymbol ρ e.1, e.2) := by
  simp only [Image.loadUnit, CompiledUnit.renumber, Code.renumber, List.map_reverse]
  congr 1
  rw [List.zipIdx_map, List.filterMap_map, List.map_filterMap]
  congr 1
  funext e
  obtain ⟨i, k⟩ := e
  cases hlabel : i.label <;> simp [Instruction.renumber, hlabel]

theorem Layout.initialMemory_renumber {ρ : Nat → Nat} (hρ : Function.Injective ρ) (p : Program) :
    (ofRequests (requests (p.renumber ρ))).initialMemory (p.renumber ρ) =
      (ofRequests (requests p)).initialMemory p := by
  have hfind := find?_ofRequests_map (renumberSymbol_injective hρ) (requests p)
  rw [← requests_renumber] at hfind
  have hregions : (p.renumber ρ).units.flatMap (·.data) =
      (p.units.flatMap (·.data)).map (DataRegion.renumber ρ) := by
    simp [Program.renumber, CompiledUnit.renumber, List.map_flatMap, List.flatMap_map]
  rw [initialMemory, initialMemory, hregions, List.foldl_map]
  congr 1
  funext memory region
  cases region with
  | reserve symbol quadwords => rfl
  | string symbol bytes =>
      simp only [DataRegion.renumber, DataRegion.symbol, hfind]
      cases (ofRequests (requests p)).find? symbol <;> rfl

/-- A renumbered program is loaded as the renumbered image. -/
theorem Image.renumbers_ofProgram {ρ : Nat → Nat} (hρ : Function.Injective ρ) (p : Program)
    (limits : Limits) :
    Renumbers ρ (Image.ofProgram p limits) (Image.ofProgram (p.renumber ρ) limits) where
  limits := rfl
  dataEnd := by
    simp only [ofProgram, Layout.requests_renumber, Layout.ofRequests, Layout.endFrom_map]
  functions := by
    simp only [ofProgram, Program.renumber, List.zipIdx_map, List.map_map]
    rfl
  size := by simp [ofProgram, Program.renumber]
  names := by
    intro u
    simp only [ofProgram, Program.renumber, List.getElem?_toArray, List.getElem?_map,
      Option.map_map]
    rfl
  code := by
    intro u k
    rw [fetch?_ofProgram, fetch?_ofProgram, Program.renumber]
    cases hunit : p.units[u]? <;> simp [hunit, CompiledUnit.renumber, Code.renumber]
  labels := by
    intro u label
    rw [target?_ofProgram, target?_ofProgram, Program.renumber]
    cases hunit : p.units[u]? with
    | none => simp [hunit]
    | some unit =>
        simp only [List.getElem?_map, hunit, Option.map_some, Option.bind_some,
          Code.labelPositions_renumber]
        exact lookup_map_of_injective (renumberSymbol_injective hρ) label _
  symbols := by
    intro symbol placement hfind
    have hfind' := Layout.find?_ofRequests_map (renumberSymbol_injective hρ)
      (Layout.requests p) symbol
    rw [← Layout.requests_renumber] at hfind'
    simp only [ofProgram] at hfind
    rw [hfind] at hfind'
    simp only [symbolAddress, ofProgram, hfind', Option.map_some]

theorem exists_label_position {unit : CompiledUnit} {label : String}
    (hlabel : label ∈ unit.code.labels) :
    ∃ k, (Image.loadUnit unit).labels.lookup label = some k := by
  obtain ⟨i, hi, heq⟩ := List.mem_filterMap.mp hlabel
  obtain ⟨k, hk⟩ := List.mem_iff_getElem?.mp hi
  cases hlookup : (Image.loadUnit unit).labels.lookup label with
  | some k => exact ⟨k, rfl⟩
  | none =>
      have hmem : (label, k) ∈ (Image.loadUnit unit).labels := by
        rw [Image.loadUnit, List.mem_reverse, List.mem_filterMap]
        exact ⟨(i, k), List.mem_zipIdx_iff_getElem?.mpr hk, by simp [heq]⟩
      simpa using List.lookup_eq_none_iff.mp hlookup _ hmem

namespace Links

variable {fns : List FunctionDef} {labels : Nat → Nat → Nat} {p : Program}

theorem callable_unreserved (h : Links fns labels p) {unit : CompiledUnit}
    (hunit : unit ∈ p.units) {callee : String} (hcallee : (p.surroundings unit).callable callee) :
    isReservedSymbol callee = false := by
  rcases hcallee with hdefines | hextern
  · obtain ⟨other, hother, hname⟩ := List.any_eq_true.mp hdefines
    obtain ⟨j, hj⟩ := List.mem_iff_getElem?.mp hother
    obtain ⟨gn, hgn⟩ := h.exists_function hj
    have heq : other.name = callee := by simpa using hname
    rw [← heq, h.unit_name hgn hj]
    exact h.declarable.unreserved gn (List.mem_of_getElem? hgn)
  · obtain ⟨i, hi⟩ := List.mem_iff_getElem?.mp hunit
    obtain ⟨fn, hfn⟩ := h.exists_function hi
    obtain ⟨entry, body, final, hlowered⟩ := lower_eq_ok (h.lowered hfn hi)
    rw [hlowered.unit_eq] at hextern
    exact (hlowered.lowers.externs_foreign (by simp) callee hextern).2

/-- Everything a unit refers to is defined once the program is loaded. -/
theorem surroundings_defined (h : Links fns labels p) (limits : Limits) {u : Nat}
    {unit : CompiledUnit} (hunit : p.units[u]? = some unit) :
    (p.surroundings unit).Defined (Image.ofProgram p limits) u where
  labels := by
    intro label hlabel
    rw [Image.target?_ofProgram, hunit]
    exact exists_label_position hlabel
  globals := fun name hname =>
    Layout.exists_find?_ofRequests (Layout.globalSymbol_mem_requests hname)
  data := fun region hregion =>
    Layout.exists_find?_ofRequests
      (Layout.symbol_mem_requests (List.mem_of_getElem? hunit) hregion)
  callable := fun _ hcallee => h.callable_unreserved (List.mem_of_getElem? hunit) hcallee

/-- A compiled program steps like its renumbering. -/
theorem step_renumber (h : Links fns labels p) {ρ : Nat → Nat} (hρ : Function.Injective ρ)
    (limits : Limits) :
    Exec.step (Image.ofProgram (p.renumber ρ) limits) = Exec.step (Image.ofProgram p limits) := by
  apply (Image.renumbers_ofProgram hρ p limits).step_eq
  intro u k i hfetch
  rw [Image.fetch?_ofProgram] at hfetch
  obtain ⟨unit, hunit, hi⟩ := Option.bind_eq_some_iff.mp hfetch
  exact ⟨p.surroundings unit, h.surroundings_defined limits hunit,
    h.unit_closed (List.mem_of_getElem? hunit) i (List.mem_of_getElem? hi)⟩

end Links

open Compile

theorem Trace.supply_lt {trace : Trace} {i k : Nat} (hk : k < (trace.received i).length) :
    trace.supply i k < (trace.serve {}).nextLabel := by
  have hmem : trace.supply i k ∈ trace.received i := by
    rw [supply, List.getD_eq_getElem?_getD, List.getElem?_eq_getElem hk]
    exact List.getElem_mem hk
  exact (handed_bounds (mem_received.mp hmem)).2

/-- One renumbering turns the numbers drawn in turn into those of a trace. Numbers
that are not drawn go beyond all that the trace hands out. -/
theorem Interleaving.exists_renumbering {fns : List FunctionDef} {trace : Trace}
    (h : Interleaving fns trace) (hfns : Declarable fns) :
    ∃ ρ, Function.Injective ρ ∧
      ∀ i fn, fns[i]? = some fn → ∀ k < ((envOf fns (inOrderLabels fns i)).lower fn).drawn,
        trace.supply i k = ρ (inOrderLabels fns i k) := by
  classical
  let Drawn (n : Nat) (d : Nat × Nat) : Prop := ∃ fn, fns[d.1]? = some fn ∧
    d.2 < ((envOf fns (inOrderLabels fns d.1)).lower fn).drawn ∧ inOrderLabels fns d.1 d.2 = n
  have hdrawn : ∀ n d, Drawn n d → d.2 < (trace.received d.1).length := by
    rintro n ⟨i, k⟩ ⟨fn, hfn, hk, -⟩
    have hname := hfns.unreserved fn (List.mem_of_getElem? hfn)
    rw [h.draws i fn hfn, LoweringEnv.lower_drawn_eq (hfns.agrees (inOrderLabels fns i) _) hname]
    exact hk
  have hunique : ∀ n d d', Drawn n d → Drawn n d' → d = d' := by
    rintro n ⟨i, k⟩ ⟨j, l⟩ ⟨fn, hfn, hk, hn⟩ ⟨gn, hgn, hl, hn'⟩
    obtain ⟨rfl, rfl⟩ := inOrderLabels_distinct fns hfn hgn hk hl (hn.trans hn'.symm)
    rfl
  let ρ (n : Nat) : Nat :=
    if hn : ∃ d, Drawn n d then trace.supply hn.choose.1 hn.choose.2
    else (trace.serve {}).nextLabel + n
  have hρ : ∀ n d, Drawn n d → ρ n = trace.supply d.1 d.2 := by
    intro n d hd
    have hn : ∃ d, Drawn n d := ⟨d, hd⟩
    simp only [ρ, dif_pos hn, hunique n _ d hn.choose_spec hd]
  have hbeyond : ∀ n, (¬∃ d, Drawn n d) → ρ n = (trace.serve {}).nextLabel + n := by
    intro n hn
    simp only [ρ, dif_neg hn]
  refine ⟨ρ, ?_, ?_⟩
  · intro a b hab
    by_cases ha : ∃ d, Drawn a d <;> by_cases hb : ∃ d, Drawn b d
    · obtain ⟨d, hd⟩ := ha
      obtain ⟨e, he⟩ := hb
      rw [hρ a d hd, hρ b e he] at hab
      obtain ⟨hi, hk⟩ := Trace.supply_distinct (hdrawn a d hd) (hdrawn b e he) hab
      obtain ⟨-, -, -, rfl⟩ := hd
      obtain ⟨-, -, -, rfl⟩ := he
      rw [hi, hk]
    · obtain ⟨d, hd⟩ := ha
      rw [hρ a d hd, hbeyond b hb] at hab
      have := Trace.supply_lt (hdrawn a d hd)
      omega
    · obtain ⟨e, he⟩ := hb
      rw [hbeyond a ha, hρ b e he] at hab
      have := Trace.supply_lt (hdrawn b e he)
      omega
    · rw [hbeyond a ha, hbeyond b hb] at hab
      omega
  · intro i fn hfn k hk
    exact (hρ _ (i, k) ⟨fn, hfn, hk, rfl⟩).symm

/-- Linking what a trace gives is linking in turn, renumbered. -/
theorem Interleaving.link_eq {fns : List FunctionDef} {trace : Trace}
    (h : Interleaving fns trace) (hfns : Declarable fns) :
    ∃ ρ, Function.Injective ρ ∧
      link (outcomesUnder fns trace.supply) =
        (link (outcomesUnder fns (inOrderLabels fns))).map (Program.renumber ρ) := by
  obtain ⟨ρ, hρ, hlabel⟩ := h.exists_renumbering hfns
  exact ⟨ρ, hρ, by rw [outcomesUnder_renumber hfns hlabel, link_renumber]⟩

/-- The failure of linking is that of the earliest function that fails. -/
theorem Compile.link_eq_error {fns : List FunctionDef} {labels : Nat → Nat → Nat}
    {e : CompileError} (h : link (outcomesUnder fns labels) = .error e) :
    ∃ i fn, fns[i]? = some fn ∧ ((envOf fns (labels i)).lower fn).result = .error e ∧
      ∀ j < i, ∀ gn, fns[j]? = some gn →
        ∃ unit, ((envOf fns (labels j)).lower gn).result = .ok unit := by
  unfold link at h
  cases hcollect : collect ((outcomesUnder fns labels).map (·.result)) with
  | ok units => simp [hcollect] at h
  | error e' =>
      simp only [hcollect, Except.error.injEq] at h
      subst h
      obtain ⟨i, hi, hbefore⟩ := collect_eq_error hcollect
      rw [List.getElem?_map, outcomesUnder_getElem?, Option.map_map,
        Option.map_eq_some_iff] at hi
      obtain ⟨fn, hfn, hresult⟩ := hi
      refine ⟨i, fn, hfn, hresult, ?_⟩
      intro j hj gn hgn
      obtain ⟨unit, hunit⟩ := hbefore j hj
      refine ⟨unit, ?_⟩
      simpa [outcomesUnder_getElem?, hgn] using hunit

/-- Two machines that no call tells apart, from whatever state they start. -/
structure Machine.Indistinguishable (m m' : Machine) : Prop where
  state : m'.state = m.state
  call : ∀ state name args,
    ((Machine.mk m'.image state).call name args).1 = ((Machine.mk m.image state).call name args).1 ∧
      ((Machine.mk m'.image state).call name args).2.state =
        ((Machine.mk m.image state).call name args).2.state

theorem Links.machine_renumber {fns : List FunctionDef} {labels : Nat → Nat → Nat} {p : Program}
    (h : Links fns labels p) {ρ : Nat → Nat} (hρ : Function.Injective ρ) (limits : Limits) :
    Machine.Indistinguishable (Machine.fresh (Image.ofProgram p limits))
      (Machine.fresh (Image.ofProgram (p.renumber ρ) limits)) where
  state := by
    simp only [Machine.fresh, Image.ofProgram, Layout.initialMemory_renumber hρ]
  call := by
    intro state name args
    have hcall := (Image.renumbers_ofProgram hρ p limits).callFunction_eq
      (h.step_renumber hρ limits) name args
    simp only [Machine.call, Machine.fresh, hcall]
    cases Exec.callFunction (Image.ofProgram p limits) name args state <;> exact ⟨rfl, rfl⟩

/-- The sequential compilation, renumbered, is the compilation along any trace. -/
theorem Source.compileInterleaved_eq_map {s : Source} (jobs : Nat) {trace : Trace}
    (h : Interleaving s.functions trace) :
    ∃ ρ, Function.Injective ρ ∧
      s.compileInterleaved jobs trace = (s.compile 1).map (Program.renumber ρ) := by
  rw [Source.compileInterleaved_eq jobs h, Source.compile_eq]
  cases hdeclare : declareAll s {} with
  | error e ctx => exact ⟨id, Function.injective_id, rfl⟩
  | ok fns ctx =>
      obtain ⟨rfl, -, hunreserved, hnodup, -⟩ := declareAll_eq_ok hdeclare
      rw [Source.functions_map_some] at h
      dsimp only
      split_ifs with hjobs
      · refine ⟨id, Function.injective_id, ?_⟩
        cases link (outcomesUnder fns (inOrderLabels fns)) with
        | error e => rfl
        | ok p => simp [Except.map, Program.renumber_id]
      · exact h.link_eq ⟨hunreserved, hnodup⟩

/-- The requests of the functions lowered in turn. -/
def inOrderTrace (fns : List FunctionDef) : Trace :=
  inTurnTrace 0 (outcomesUnder fns (inOrderLabels fns))

theorem received_inOrderTrace {fns : List FunctionDef} {i : Nat} {fn : FunctionDef}
    (hfn : fns[i]? = some fn) :
    (inOrderTrace fns).received i =
      List.range' (drawnBefore (outcomesUnder fns (inOrderLabels fns)) i)
        ((envOf fns (inOrderLabels fns i)).lower fn).drawn := by
  have h := Trace.handed_inTurnTrace {} (outcomesUnder fns (inOrderLabels fns)) 0 i
  rw [outcomesUnder_of_getElem? hfn] at h
  simp only [Nat.zero_add, Option.map_some, Option.getD_some] at h
  exact h

/-- The trace supplies each function with the numbers it draws in turn. -/
theorem lower_inOrderTrace {fns : List FunctionDef} (hfns : Declarable fns) {i : Nat}
    {fn : FunctionDef} (hfn : fns[i]? = some fn) :
    (envOf fns ((inOrderTrace fns).supply i)).lower fn =
      (envOf fns (inOrderLabels fns i)).lower fn := by
  have hname := hfns.unreserved fn (List.mem_of_getElem? hfn)
  have hlabel : ∀ k < ((envOf fns (inOrderLabels fns i)).lower fn).drawn,
      (inOrderTrace fns).supply i k = id (inOrderLabels fns i k) := by
    intro k hk
    rw [Trace.supply, received_inOrderTrace hfn, List.getD_eq_getElem?_getD,
      List.getElem?_range' hk]
    simp [inOrderLabels, lowerInOrder_eq_outcomesUnder]
  have hlower := LoweringEnv.lower_renumber
    (hfns.agrees (inOrderLabels fns i) ((inOrderTrace fns).supply i)) hname hlabel
  rw [hlower, LoweredFunction.renumber_id]

/-- Lowering in turn is one of the interleavings. -/
theorem interleaving_inOrderTrace {fns : List FunctionDef} (hfns : Declarable fns) :
    Interleaving fns (inOrderTrace fns) where
  member := by
    intro e he
    obtain ⟨j, f, hf, hmem⟩ := Trace.mem_inTurnTrace.mp he
    rw [Trace.fst_of_mem_requests hmem, Nat.zero_add]
    simpa [outcomesUnder] using (List.getElem?_eq_some_iff.mp hf).1
  draws := by
    intro i fn hfn
    rw [lower_inOrderTrace hfns hfn, received_inOrderTrace hfn, List.length_range']
  promotions := by
    intro i fn hfn name
    rw [lower_inOrderTrace hfns hfn, Trace.mem_promotedBy, inOrderTrace, Trace.mem_inTurnTrace]
    simp only [Nat.zero_add]
    constructor
    · rintro ⟨j, f, hf, hmem⟩
      obtain rfl : i = j := Trace.fst_of_mem_requests hmem
      rw [outcomesUnder_of_getElem? hfn] at hf
      cases hf
      exact Trace.promote_mem_requests.mp hmem
    · intro hmem
      exact ⟨i, _, outcomesUnder_of_getElem? hfn _, Trace.promote_mem_requests.mpr hmem⟩

/-- The compilation that runs is the one along the trace of lowering in turn. -/
theorem Source.compileInterleaved_inOrderTrace {s : Source} {fns : List FunctionDef}
    {ctx : Context} (hdeclare : declareAll s {} = .ok fns ctx) (jobs : Nat) :
    s.compileInterleaved jobs (inOrderTrace fns) = s.compile jobs := by
  obtain ⟨hs, -, hunreserved, hnodup, -⟩ := declareAll_eq_ok hdeclare
  have hfns : Declarable fns := ⟨hunreserved, hnodup⟩
  have htrace : Interleaving s.functions (inOrderTrace fns) := by
    rw [hs, Source.functions_map_some]
    exact interleaving_inOrderTrace hfns
  have houtcomes : outcomesUnder fns (inOrderTrace fns).supply =
      outcomesUnder fns (inOrderLabels fns) := by
    apply List.ext_getElem?
    intro i
    rw [outcomesUnder_getElem?, outcomesUnder_getElem?]
    cases hfn : fns[i]? with
    | none => rw [Option.map_none, Option.map_none]
    | some fn => rw [Option.map_some, Option.map_some, lower_inOrderTrace hfns hfn]
  rw [Source.compileInterleaved_eq jobs htrace, Source.compile_eq]
  simp only [hdeclare]
  split_ifs
  · rfl
  · rw [houtcomes]

/-- Lowering the functions of a source side by side, their requests served in any
order, fails exactly when lowering them in turn does, and then with the error of the
earliest function that fails. Otherwise it gives the units in source order with the
same globals, and the same program up to one renumbering of generated symbols. A
machine places everything at the same addresses in both programs, and every call on
it does the same. -/
theorem compileInterleaved_matches_sequential {s : Source} (jobs : Nat) {trace : Trace}
    (htrace : Interleaving s.functions trace) :
    (∀ e, s.compileInterleaved jobs trace = .error e ↔ s.compile 1 = .error e) ∧
    (∀ e, s.compileInterleaved jobs trace = .error e →
      (∃ ctx, declareAll s {} = .error e ctx) ∨
        ∃ i fn, s.functions[i]? = some fn ∧
          ((envOf s.functions (trace.supply i)).lower fn).result = .error e ∧
          ∀ j < i, ∀ gn, s.functions[j]? = some gn →
            ∃ unit, ((envOf s.functions (trace.supply j)).lower gn).result = .ok unit) ∧
    ∀ p, s.compile 1 = .ok p → ∃ ρ, Function.Injective ρ ∧
      s.compileInterleaved jobs trace = .ok (p.renumber ρ) ∧
      (p.renumber ρ).globals = p.globals ∧
      (p.renumber ρ).units.map (·.name) = s.functions.map (·.name) ∧
      ∀ limits, ∃ m m', Machine.load p limits = .ok m ∧
        Machine.load (p.renumber ρ) limits = .ok m' ∧
        (∀ name ∈ p.globals,
          m'.symbolAddress (globalSymbol name) = m.symbolAddress (globalSymbol name)) ∧
        (∀ region ∈ p.regions,
          m'.symbolAddress (renumberSymbol ρ region.symbol) = m.symbolAddress region.symbol) ∧
        Machine.Indistinguishable m m' := by
  obtain ⟨ρ, hρ, hcompile⟩ := Source.compileInterleaved_eq_map jobs htrace
  refine ⟨?_, ?_, ?_⟩
  · intro e
    rw [hcompile]
    cases s.compile 1 <;> simp [Except.map]
  · intro e he
    rw [Source.compileInterleaved_eq jobs htrace] at he
    cases hdeclare : declareAll s {} with
    | error e' ctx =>
        simp only [hdeclare, Except.error.injEq] at he
        exact Or.inl ⟨ctx, by rw [he]⟩
    | ok fns ctx =>
        simp only [hdeclare] at he
        obtain ⟨rfl, -, hunreserved, hnodup, -⟩ := declareAll_eq_ok hdeclare
        rw [Source.functions_map_some] at htrace ⊢
        obtain ⟨ρ', -, hlink⟩ := htrace.link_eq ⟨hunreserved, hnodup⟩
        refine Or.inr (link_eq_error ?_)
        split_ifs at he with hjobs
        · rw [hlink, he]
          rfl
        · exact he
  · intro p hp
    obtain ⟨fns, rfl, hlinks⟩ := Source.compile_links hp
    rw [hp] at hcompile
    have hnodup : ((Layout.requests (p.renumber ρ)).map (·.1)).Nodup := by
      have hrenamed := hlinks.requests_nodup.map (renumberSymbol_injective hρ)
      simpa [Layout.requests_renumber, Function.comp_def] using hrenamed
    refine ⟨ρ, hρ, hcompile, rfl, ?_, ?_⟩
    · rw [Source.functions_map_some, ← hlinks.unit_names]
      simp [Program.renumber, CompiledUnit.renumber]
    · intro limits
      have hrenumbers := Image.renumbers_ofProgram hρ p limits
      refine ⟨_, _, hlinks.load_eq limits, Machine.load_eq hnodup limits, ?_, ?_,
        hlinks.machine_renumber hρ limits⟩
      · intro name hname
        have haddress := hrenumbers.symbolAddress_eq
          (Layout.exists_find?_ofRequests (Layout.globalSymbol_mem_requests hname))
        rw [renumberSymbol_globalSymbol] at haddress
        exact haddress
      · intro region hregion
        obtain ⟨unit, hunit, hmem⟩ := List.mem_flatMap.mp hregion
        exact hrenumbers.symbolAddress_eq
          (Layout.exists_find?_ofRequests (Layout.symbol_mem_requests hunit hmem))

theorem crossing_matches_sequential :
    ∃ ρ p, Source.compile (crossing.map some) 1 = .ok p ∧
      Source.compileInterleaved (crossing.map some) 2 crossingTrace = .ok (p.renumber ρ) := by
  have htrace : Interleaving (Source.functions (crossing.map some)) crossingTrace :=
    crossing_interleaving
  obtain ⟨p, hp⟩ : ∃ p, Source.compile (crossing.map some) 1 = .ok p := ⟨_, rfl⟩
  obtain ⟨ρ, -, hq, -⟩ := (compileInterleaved_matches_sequential 2 htrace).2.2 p hp
  exact ⟨ρ, p, hp, hq⟩

end Arbor
