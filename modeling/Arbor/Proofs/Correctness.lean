import Mathlib.Tactic
import Arbor.Proofs.Interleaving
import Arbor.Proofs.Simulation.Statement

/-!
Compiled programs do what their functions mean. A call of a function on a machine that
holds the data area of the interpreter answers what the interpreter answers and leaves
the data area the interpreter leaves, if the machine has the stack words the run takes
and allows enough steps.
-/

namespace Arbor

open Exec

/-- The functions of a source over the program compiled from it. -/
def Source.world (s : Source) (p : Program) : World := { functions := s.functions, program := p }

section Entry

variable {E : Setting} {s : MachineState} {height : Nat}

theorem pushWord_leads (hfits : E.Fits) (hrsp : s.regs.rsp = stackPointer height)
    (hroom : height + 1 ≤ E.stackWords) (v : Word) :
    ∃ s', (∀ maxSteps, Exec.push (E.image maxSteps) v s = .ok () s') ∧
      s'.regs.rsp = stackPointer (height + 1) ∧ s'.stackWord (height + 1) = v ∧
      Kept height s s' ∧ (∀ a, E.world.isData a = true → s'.memory.read a = s.memory.read a) ∧
      s'.steps = s.steps := by
  have hrsp' : s.regs.rsp - 8 = stackPointer (height + 1) := by rw [hrsp, stackPointer_sub]
  refine ⟨_, fun maxSteps => push_of_room (by rw [hrsp', toUInt64_stackPointer])
    (Setting.not_lt_stackLimit hfits hroom maxSteps)
    (Setting.accessible_stack hfits (Nat.succ_pos _) hroom maxSteps), hrsp', ?_, ?_, ?_, rfl⟩
  · rw [MachineState.stackWord_setWord_stack hfits _ hroom hroom, if_pos rfl]
  · intro k _ hk
    rw [MachineState.stackWord_setWord_stack hfits _ (by omega) hroom, if_neg (by omega)]
    rfl
  · intro a ha
    rw [MachineState.setWord_memory, Memory.read_write,
      if_neg (Setting.stackAddress_ne_data hfits hroom ha)]
    rfl

/-- The arguments lie on the stack in order, the first one lowest. -/
theorem pushArgs_leads (hfits : E.Fits) {args : List Word}
    (hrsp : s.regs.rsp = stackPointer height) (hroom : height + args.length ≤ E.stackWords) :
    ∃ s', (∀ maxSteps, pushArgs (E.image maxSteps) args s = .ok () s') ∧
      s'.regs.rsp = stackPointer (height + args.length) ∧ StackHolds s' height args ∧
      Kept height s s' ∧ (∀ a, E.world.isData a = true → s'.memory.read a = s.memory.read a) ∧
      s'.steps = s.steps := by
  induction args generalizing s height with
  | nil =>
      refine ⟨s, fun _ => rfl, hrsp, ?_, .refl _ _, fun _ _ => rfl, rfl⟩
      intro k v hk
      cases hk
  | cons v rest ih =>
      rw [List.length_cons] at hroom ⊢
      obtain ⟨s₁, hpush, hrsp₁, hword₁, hkept₁, hdata₁, hsteps₁⟩ :=
        pushWord_leads hfits hrsp (by omega) v
      obtain ⟨s₂, hrest, hrsp₂, hholds₂, hkept₂, hdata₂, hsteps₂⟩ := ih hrsp₁ (by omega)
      refine ⟨s₂, ?_, ?_, ?_, hkept₁.trans (hkept₂.mono (Nat.le_succ _)), ?_,
        hsteps₂.trans hsteps₁⟩
      · intro maxSteps
        rw [pushArgs, bind_of_ok (hpush maxSteps), hrest maxSteps]
      · rw [hrsp₂]
        congr 1
        omega
      · refine StackHolds.cons ?_ hholds₂
        rw [hkept₂ _ (Nat.succ_pos _) le_rfl, hword₁]
      · intro a ha
        rw [hdata₂ a ha, hdata₁ a ha]

/-- A call whose run comes to the return of its first activation. -/
theorem callFunction_of_reaches {name : String} {args : List Word} {u : Nat} {s₁ s₂ s₃ : MachineState}
    {line : UInt32} (hfits : E.Fits)
    (hlookup : ∀ maxSteps, (E.image maxSteps).functions.lookup name = some u)
    (hargs : ∀ maxSteps, pushArgs (E.image maxSteps) args
      { s with regs := { rsp := Image.stackTop.toInt64 } } = .ok () s₁)
    (hpush : ∀ maxSteps, Exec.push (E.image maxSteps) returnSentinel s₁ = .ok () s₂)
    (hreaches : Relation.ReflTransGen E.Steps { s₂ with unit := u, ip := 0 } s₃)
    (hfetch : E.fetch? s₃.unit s₃.ip = some (.make .ret [] line)) (hroom : height + 1 ≤ E.stackWords)
    (hrsp : s₃.regs.rsp = stackPointer (height + 1))
    (hlast : s₃.stackWord (height + 1) = returnSentinel) (maxSteps : Nat)
    (hlimit : s₃.steps + 1 ≤ maxSteps) :
    callFunction (E.image maxSteps) name args s =
      .ok s₃.regs.rax (s₃.next.setReg .rsp (stackPointer height)) := by
  have haddress : s₃.next.regs.rsp.toUInt64 = stackAddress (height + 1) := by
    rw [MachineState.next_regs, hrsp, toUInt64_stackPointer]
  have hret : instruction (E.image maxSteps) (.make .ret [] line) s₃.next =
      .ok true (s₃.next.setReg .rsp (stackPointer height)) := by
    rw [← stackPointer_add, ← hrsp]
    refine instruction_ret_last ?_ ?_
    · rw [haddress]
      exact Setting.accessible_stack hfits (Nat.succ_pos _) hroom maxSteps
    · rw [haddress]
      exact hlast
  have himage : Relation.ReflTransGen (E.image maxSteps).Steps { s₂ with unit := u, ip := 0 } s₃ :=
    Relation.ReflTransGen.mono (fun _ _ (hstep : E.Steps _ _) => hstep maxSteps) _ _ hreaches
  have hrax : ∀ v, (s₃.next.setReg .rsp v).regs.rax = s₃.regs.rax := fun _ => rfl
  rw [callFunction_of_run (hlookup maxSteps) (hargs maxSteps) (hpush maxSteps)
    (run_of_reaches himage ((Image.fetch?_ofProgram _ _ _ _).trans hfetch) hret hlimit), hrax]

end Entry

/-- A call of a function from a state that holds the store. What it does to the state does
not depend on how many more steps than its own the machine allows. -/
theorem Simulates.callFunction_leads {E : Setting} {labels : Nat → Nat → Nat} {I : Interpreter}
    (hI : Simulates E labels I) (hcompiled : E.Compiled labels) {owner : Nat} {fn : FunctionDef}
    {args : List Word} {σ : Store} {o : Finished Word} {s : MachineState}
    (hfn : E.world.functions[owner]? = some fn) (hargs : args.length = fn.params.length)
    (heval : I.invoke owner fn 0 args σ = some o) (hneed : o.need ≤ E.stackWords)
    (hdata : ∀ a, E.world.isData a = true → s.memory.read a = σ.data a) :
    ∃ s', s.steps ≤ s'.steps ∧
      (∀ maxSteps, s'.steps ≤ maxSteps →
        callFunction (E.image maxSteps) fn.name args s = .ok o.value s') ∧
      ∀ a, E.world.isData a = true → s'.memory.read a = o.store.data a := by
  have hfits := hcompiled.fits
  have hroom : 0 + args.length + 1 ≤ E.stackWords := by
    have := Interpreter.need_of_invoke heval
    omega
  have hrsp : ({ s with regs := { rsp := Image.stackTop.toInt64 } } : MachineState).regs.rsp =
      stackPointer 0 := rfl
  obtain ⟨s₁, hpushArgs, hrsp₁, hholds₁, -, hdata₁, hsteps₁⟩ :=
    pushArgs_leads hfits hrsp (Nat.le_of_succ_le hroom)
  obtain ⟨s₂, hpush, hrsp₂, hword₂, hkept₂, hdata₂, hsteps₂⟩ :=
    pushWord_leads hfits hrsp₁ hroom returnSentinel
  have hentered : Entered E owner 0 args σ { s₂ with unit := owner, ip := 0 } := by
    refine { unit_eq := rfl, ip_eq := rfl, rsp_eq := hrsp₂, room := hroom, args_eq := ?_,
             data := ?_ }
    · intro k v hk
      have hlt : k < args.length := (List.getElem?_eq_some_iff.mp hk).1
      exact (hkept₂ _ (by omega) (by omega)).trans (hholds₁ k v hk)
    · intro a ha
      exact (hdata₂ a ha).trans ((hdata₁ a ha).trans (hdata a ha))
  obtain ⟨-, s₃, hreaches, h₃⟩ := hI.invoke_leads hcompiled hfn hargs hentered heval hneed
  obtain ⟨line, hfetch⟩ := h₃.fetch
  have himage : Relation.ReflTransGen (E.image 0).Steps { s₂ with unit := owner, ip := 0 } s₃ :=
    Relation.ReflTransGen.mono (fun _ _ (hstep : E.Steps _ _) => hstep 0) _ _ hreaches
  refine ⟨s₃.next.setReg .rsp (stackPointer (0 + args.length)), ?_, ?_, ?_⟩
  · have hsteps := Image.steps_le_of_reaches himage
    rw [MachineState.setReg_steps, MachineState.next_steps]
    calc s.steps = s₂.steps := (hsteps₂.trans hsteps₁).symm
      _ ≤ s₃.steps := hsteps
      _ ≤ s₃.steps + 1 := Nat.le_succ _
  · intro maxSteps hlimit
    rw [MachineState.setReg_steps, MachineState.next_steps] at hlimit
    rw [← h₃.value]
    exact callFunction_of_reaches hfits (hcompiled.functions_lookup hfn) hpushArgs hpush hreaches
      hfetch hroom h₃.rsp_eq (h₃.return_eq.trans hword₂) maxSteps hlimit
  · intro a ha
    rw [MachineState.setReg_memory, MachineState.next_memory, h₃.data a ha]

/-- Compiled programs are correct. If the interpreter finishes a call, the machine finishes
it with the same value and the same words in the data area, from every state that holds
the same words and with every limit that leaves room for the stack words and the steps of
the run. -/
theorem compile_correct {s : Source} {jobs : Nat} {p : Program}
    (hcompile : s.compile jobs = .ok p) (hp : p.Addressable) {fn : FunctionDef}
    (hfn : fn ∈ s.functions) {args : List Word} (hargs : args.length = fn.params.length)
    {fuel : Nat} {data : Address → Word} {o : Finished Word}
    (heval : (s.world p).run fuel fn.name args data = some o) {stackWords : Nat}
    (hneed : o.need ≤ stackWords) (hfits : p.Fits stackWords) {state : MachineState}
    (hdata : ∀ a, (s.world p).isData a = true → state.memory.read a = data a) :
    ∃ steps, ∀ maxSteps, state.steps + steps ≤ maxSteps →
      ∃ m m' : Machine,
        Machine.load p { maxSteps := maxSteps, maxStackWords := stackWords } = .ok m ∧
        ({ m with state := state } : Machine).call fn.name args = (.ok o.value, m') ∧
        (∀ a, (s.world p).isData a = true → m'.state.memory.read a = o.store.data a) ∧
        m'.state.steps = state.steps + steps := by
  obtain ⟨fns, rfl, hlinks⟩ := Source.compile_links hcompile
  have hfunctions : Source.functions (fns.map some) = fns := by simp [Source.functions]
  obtain ⟨_, _, hfind, hinvoke, rfl⟩ := Eval.bind_eq_some heval
  obtain ⟨⟨owner, gn⟩, hgn, rfl⟩ := Eval.ofOption_eq_some hfind
  obtain ⟨howner, hname⟩ := World.find?_eq_some hgn
  have hcompiled : Setting.Compiled
      { world := Source.world (fns.map some) p, stackWords := stackWords }
      (Compile.inOrderLabels fns) := by
    refine { links := ?_, fits := hfits, addressable := hp }
    rw [Source.world, hfunctions]
    exact hlinks
  obtain ⟨k, hk⟩ := List.mem_iff_getElem?.mp hfn
  obtain rfl : k = owner := by
    rw [Source.world, hfunctions] at howner
    rw [hfunctions] at hk
    exact hlinks.declarable.index_eq hk howner hname.symm
  obtain rfl : fn = gn := Option.some.inj (hk.symm.trans howner)
  obtain ⟨s', hsteps, hcall, hdata'⟩ := (World.interpreter_simulates _ _ fuel).callFunction_leads
    hcompiled howner hargs hinvoke (le_max_right _ _ |>.trans hneed) hdata
  refine ⟨s'.steps - state.steps, fun maxSteps hlimit =>
    ⟨_, { image := Image.ofProgram p { maxSteps := maxSteps, maxStackWords := stackWords },
          state := s' }, hlinks.load_eq _, ?_, hdata', (Nat.add_sub_cancel' hsteps).symm⟩⟩
  have hcall' : callFunction (Image.ofProgram p { maxSteps := maxSteps, maxStackWords := stackWords })
      fn.name args state = .ok _ s' := hcall maxSteps (by omega)
  simp only [Machine.call, Machine.fresh, hcall']

/-- Counts down with one list for all activations, and adds a global on the way back. -/
def countdown : FunctionDef where
  name := "countdown"
  params := ["n"]
  body := [
    .ifElse 2 (.compare 2 .less (.name 2 "n") (.constant 2 (.int 1)))
      [.ret 3 (.constant 3 (.int 0))] [],
    .assign 4 [.name 4 "xs"] (.list 4 [.name 4 "n", .name 4 "n"]),
    .augAssign 5 (.subscript 5 (.name 5 "xs") (.constant 5 (.int 1))) .add (.name 5 "n"),
    .ret 6 (.binary 6 .add
      (.binary 6 .add (.subscript 6 (.name 6 "xs") (.constant 6 (.int 1)))
        (.call 6 "countdown" [.binary 6 .sub (.name 6 "n") (.constant 6 (.int 1))]))
      (.name 6 "bonus"))]

def countdownProgram : Program := (Source.compile [some countdown] 1).toOption.getD {}

def countdownState : MachineState := { memory := Memory.write {} Layout.base 5 }

theorem countdown_correct :
    Source.compile [some countdown] 1 = .ok countdownProgram ∧
    ∃ steps, ∀ maxSteps, steps ≤ maxSteps → ∃ m m' : Machine,
      Machine.load countdownProgram { maxSteps := maxSteps, maxStackWords := 64 } = .ok m ∧
      ({ m with state := countdownState } : Machine).call "countdown" [2] = (.ok 16, m') := by
  have hcompile : Source.compile [some countdown] 1 = .ok countdownProgram := rfl
  have hresult : ((Source.world [some countdown] countdownProgram).run 20 "countdown" [2]
      countdownState.memory.read).map (fun o => (o.value, o.need)) = some (16, 14) := by
    decide +kernel
  obtain ⟨o, heval, ho⟩ := Option.map_eq_some_iff.mp hresult
  obtain ⟨hvalue, hneed⟩ := Prod.mk.inj ho
  have hmem : countdown ∈ Source.functions [some countdown] := List.mem_singleton.mpr rfl
  have hroom : o.need ≤ 64 := by omega
  have hfits : countdownProgram.Fits 64 := by decide
  have hdata : ∀ a, (Source.world [some countdown] countdownProgram).isData a = true →
      countdownState.memory.read a = countdownState.memory.read a := fun _ _ => rfl
  obtain ⟨steps, hsteps⟩ := compile_correct hcompile ⟨by decide, by decide⟩ hmem rfl heval hroom
    hfits hdata
  refine ⟨hcompile, steps, fun maxSteps hlimit => ?_⟩
  obtain ⟨m, m', hload, hcall, -, -⟩ := hsteps maxSteps ((Nat.zero_add steps).le.trans hlimit)
  rw [hvalue] at hcall
  exact ⟨m, m', hload, hcall⟩

end Arbor
