import Mathlib.Tactic
import Arbor.Proofs.Snapshot
import Arbor.Proofs.Lockstep.Passes

/-!
Calls do not see each other's frames. Memory below the stack pointer and the compared
words stay as earlier calls left them, yet a call whose locals are stored to before they
are loaded answers from its arguments and the data area alone. A local that is loaded
first shows what an earlier call left in its slot.
-/

namespace Arbor

open Exec

namespace Tree

mutual

/-- Whether a subscript occurs in a tree. -/
def hasSubscript : Tree → Bool
  | .absent | .name .. | .constant .. => false
  | .functionDef _ _ _ body => anySubscript body
  | .assign _ targets value => anySubscript targets || value.hasSubscript
  | .augAssign _ target _ value => target.hasSubscript || value.hasSubscript
  | .ret _ value | .expr _ value | .attribute _ value _ => value.hasSubscript
  | .ifElse _ test body orelse => test.hasSubscript || anySubscript body || anySubscript orelse
  | .whileLoop _ test body => test.hasSubscript || anySubscript body
  | .binary _ _ left right | .compare _ _ left right => left.hasSubscript || right.hasSubscript
  | .call _ _ args => anySubscript args
  | .list _ elements => anySubscript elements
  | .dict _ keys values => anySubscript keys || anySubscript values
  | .subscript .. => true

def anySubscript : List Tree → Bool
  | [] => false
  | t :: rest => t.hasSubscript || anySubscript rest

end

end Tree

def Source.hasSubscript (s : Source) : Bool := s.functions.any fun fn => Tree.anySubscript fn.body

def Phrase.hasSubscript : Phrase → Bool
  | .expression t | .target t | .statement t => t.hasSubscript
  | .pushes _ ts | .targets ts | .block ts => Tree.anySubscript ts
  | .pairs _ keys values => Tree.anySubscript keys || Tree.anySubscript values

namespace Operand

@[simp] theorem isElement_ofReg (r : Reg) : (ofReg r).isElement = false := rfl

@[simp] theorem isElement_imm (v : Word) : (imm v).isElement = false := rfl

@[simp] theorem isElement_frameSlot (d : Word) : (frameSlot d).isElement = false := rfl

@[simp] theorem isElement_global (symbol : String) (d : Word) :
    (global symbol d).isElement = false := rfl

@[simp] theorem isElement_sym (symbol : String) : (sym symbol).isElement = false := rfl

end Operand

namespace Code

/-- Whether code addresses elements. -/
def isIndexed (code : Code) : Bool := code.any fun i => i.operands.any (·.isElement)

@[simp] theorem isIndexed_nil : isIndexed [] = false := rfl

@[simp] theorem isIndexed_append (a b : Code) : isIndexed (a ++ b) = (isIndexed a || isIndexed b) :=
  List.any_append

@[simp] theorem isIndexed_cons_make (m : Mnemonic) (os : List Operand) (line : UInt32)
    (code : Code) : isIndexed (.make m os line :: code) = (os.any (·.isElement) || isIndexed code) :=
  rfl

@[simp] theorem isIndexed_cons_labelled (name : String) (line : UInt32) (code : Code) :
    isIndexed (.labelled name line :: code) = isIndexed code := rfl

end Code

namespace Emit

open Code

@[simp] theorem isIndexed_mov (line : UInt32) (dst src : Operand) (code : Code) :
    isIndexed (mov line dst src :: code) = (dst.isElement || (src.isElement || isIndexed code)) := by
  simp [mov, Bool.or_assoc]

@[simp] theorem isIndexed_push (line : UInt32) (o : Operand) (code : Code) :
    isIndexed (push line o :: code) = (o.isElement || isIndexed code) := by
  simp [push]

@[simp] theorem isIndexed_pop (line : UInt32) (o : Operand) (code : Code) :
    isIndexed (pop line o :: code) = (o.isElement || isIndexed code) := by
  simp [pop]

@[simp] theorem isIndexed_jump (line : UInt32) (m : Mnemonic) (label : String) (code : Code) :
    isIndexed (jump line m label :: code) = isIndexed code := rfl

@[simp] theorem isIndexed_lea (line : UInt32) (r : Reg) (symbol : String) (code : Code) :
    isIndexed (lea line (.ofReg r) symbol :: code) = isIndexed code := rfl

@[simp] theorem isIndexed_storeElement (line : UInt32) (code : Code) :
    isIndexed (storeElement line :: code) = true := rfl

@[simp] theorem isIndexed_loadElement (line : UInt32) : isIndexed (loadElement line) = true := rfl

@[simp] theorem isIndexed_rightOperand (line : UInt32) (leaf : Bool) (right : Code) :
    isIndexed (rightOperand line leaf right) = isIndexed right := by
  cases leaf <;> simp [rightOperand, rax, rbx]

@[simp] theorem isIndexed_applyOperator (line : UInt32) (op : BinaryOperator) :
    isIndexed (applyOperator line op) = false := by
  cases op <;> rfl

@[simp] theorem isIndexed_applyCompare (line : UInt32) (op : CompareOperator) (id : Nat) :
    isIndexed (applyCompare line op id) = false := rfl

@[simp] theorem isIndexed_callPushed (line : UInt32) (callee : String) (count : Nat) :
    isIndexed (callPushed line callee count) = false := by
  unfold callPushed
  split <;> rfl

@[simp] theorem isIndexed_popWords (line : UInt32) (region : String) (n : Nat) :
    isIndexed (popWords line region n) = false := by
  induction n with
  | zero => rfl
  | succ n ih => simp [popWords, ih, rax]

@[simp] theorem isIndexed_fillRegion (line : UInt32) (region : String) (count staged : Nat) :
    isIndexed (fillRegion line region count staged) = false := by
  simp [fillRegion, rax]

@[simp] theorem isIndexed_epilogue (line : UInt32) : isIndexed (epilogue line) = false := rfl

@[simp] theorem isIndexed_branchIfZero (line : UInt32) (label : String) :
    isIndexed (branchIfZero line label) = false := rfl

@[simp] theorem isIndexed_conditional (line : UInt32) (id : Nat) (test body orelse : Code) :
    isIndexed (conditional line id test body orelse) =
      (isIndexed test || isIndexed body || isIndexed orelse) := by
  simp [conditional, Bool.or_assoc]

@[simp] theorem isIndexed_loop (line : UInt32) (id : Nat) (test body : Code) :
    isIndexed (loop line id test body) = (isIndexed test || isIndexed body) := by
  simp [loop]

theorem isIndexed_functionCode (fn : FunctionDef) (slots : Nat) (body : Code) :
    isIndexed (functionCode fn slots body) = isIndexed body := by
  unfold functionCode prologue reserve fallthrough
  split <;> simp [rax, rsp, rbp]

end Emit

/-- Lowered code addresses elements exactly if a subscript occurs in what was lowered. -/
theorem Lowers.isIndexed_eq {env : LoweringEnv} {phrase : Phrase} {st st' : LoweringState}
    {code : Code} (h : Lowers env phrase st code st') :
    code.isIndexed = phrase.hasSubscript := by
  induction h with
  | constant | string | builtin | slot | global | storeName | bareReturn => rfl
  | pushesNil | pairsNil | targetsNil | blockNil => rfl
  | binary _ _ hleft hright | compare _ _ hleft hright =>
      simp [hleft, hright, Phrase.hasSubscript, Tree.hasSubscript]
  | call _ _ hargs | externalCall _ _ _ hargs =>
      simp [hargs, Phrase.hasSubscript, Tree.hasSubscript]
  | list _ helements => simp [helements, Phrase.hasSubscript, Tree.hasSubscript]
  | dict _ _ hpairs => simp [hpairs, Phrase.hasSubscript, Tree.hasSubscript]
  | subscript | storeElement | augElement => simp [Phrase.hasSubscript, Tree.hasSubscript]
  | pushesCons _ _ hhead htail =>
      simp [hhead, htail, Phrase.hasSubscript, Tree.anySubscript, Emit.rax]
  | pairsCons _ _ _ hkey hvalue htail =>
      simp only [Phrase.hasSubscript] at hkey hvalue htail
      simp [hkey, hvalue, htail, Phrase.hasSubscript, Tree.anySubscript, Emit.rax]
      ac_rfl
  | targetsCons _ _ hhead htail | blockCons _ _ hhead htail =>
      simp [hhead, htail, Phrase.hasSubscript, Tree.anySubscript]
  | assign _ _ _ _ hvalue hstores =>
      simp [hvalue, hstores, Phrase.hasSubscript, Tree.hasSubscript, Bool.or_comm]
  | augName _ _ _ _ hname hvalue hstore =>
      simp [hname, hvalue, hstore, Phrase.hasSubscript, Tree.hasSubscript]
  | ret _ hvalue => simp [hvalue, Phrase.hasSubscript, Tree.hasSubscript]
  | expr _ hvalue | bare _ hvalue => simpa [Phrase.hasSubscript, Tree.hasSubscript] using hvalue
  | ifElse _ _ _ htest hbody horelse =>
      simp [htest, hbody, horelse, Phrase.hasSubscript, Tree.hasSubscript]
  | whileLoop _ _ htest hbody => simp [htest, hbody, Phrase.hasSubscript, Tree.hasSubscript]

/-- Without subscripts no access to an element touches the stack, as there is none. -/
theorem Links.elementsOffStack {fns : List FunctionDef} {labels : Nat → Nat → Nat} {p : Program}
    (h : Links fns labels p) (hplain : ∀ fn ∈ fns, Tree.anySubscript fn.body = false)
    (limits : Limits) (s : MachineState) (name : String) (args : List Word) :
    (Machine.mk (Image.ofProgram p limits) s).ElementsOffStack name args := by
  apply Machine.everyStep_of_forall
  intro u k i s _ hfetch
  rw [Image.fetch?_ofProgram] at hfetch
  obtain ⟨unit, hunit, hi⟩ := Option.bind_eq_some_iff.mp hfetch
  obtain ⟨fn, hfn⟩ := h.exists_function hunit
  obtain ⟨entry, body, final, hlowered⟩ := lower_eq_ok (h.lowered hfn hunit)
  have hcode : unit.code.isIndexed = false := by
    rw [hlowered.unit_eq, Emit.isIndexed_functionCode, hlowered.lowers.isIndexed_eq]
    exact hplain fn (List.mem_of_getElem? hfn)
  have hoperands := List.any_eq_false.mp hcode i (List.mem_of_getElem? hi)
  rw [Bool.not_eq_true, List.any_eq_false] at hoperands
  apply List.all_eq_true.mpr
  intro o ho
  simp [hoperands o ho]

/-- A careful call does the same from every state with the same data and steps to spare. -/
theorem Program.Disciplined.callFunction_alike {p : Program} {limits : Limits}
    (h : p.Disciplined limits.maxStackWords) {name : String} {args : List Word} {v : Word}
    {s s' t : MachineState} (hdata : ∀ a, p.IsData a → s.memory.read a = t.memory.read a)
    (hcall : callFunction (Image.ofProgram p limits) name args s = .ok v s')
    (hcareful : Machine.everyStep ⟨Image.ofProgram p limits, s⟩ (Image.ofProgram p limits).careful
      name args = true)
    (hroom : t.steps + (s'.steps - s.steps) ≤ limits.maxSteps) :
    ∃ t', callFunction (Image.ofProgram p limits) name args t = .ok v t' ∧
      ∀ a, p.IsData a → s'.memory.read a = t'.memory.read a := by
  let L : Lockstep := { program := p, plan := fun _ => .whole, limits := limits, limits' := limits }
  have hL : L.Sound :=
    { toDisciplined := h, plans := fun unit _ => Code.Plan.whole_sound unit.code, stackWords := rfl }
  have hthinned : L.thinned = p := by
    have hcodes : L.thinned = p.mapCode fun code => code :=
      mapCode_congr fun unit _ => Code.thin_true unit.code
    rw [hcodes, mapCode_id]
  obtain ⟨t', hcall', -, hdata', -⟩ := hL.callFunction hdata hcall hcareful hroom
  rw [Lockstep.target, hthinned] at hcall'
  exact ⟨t', hcall', hdata'⟩

/-- Calls are isolated. Take two machines on one compiled program without subscripts, with the
same snapshot and whatever frames, registers and compared words earlier calls left behind. If
a call returns on the one and loads no local before the activation has stored to it, the call
returns the same word on the other and leaves the same snapshot, as long as the other allows
as many steps. -/
theorem compile_isolated {source : Source} {jobs : Nat} {p : Program}
    (hcompile : source.compile jobs = .ok p) (hplain : source.hasSubscript = false)
    (hp : p.Addressable) (hframes : p.widestFrame < 2 ^ 60) {limits : Limits}
    (hfits : p.Fits limits.maxStackWords)
    {m m' : Machine} {s t : MachineState} (hload : Machine.load p limits = .ok m)
    (hsnapshot : ({ m with state := s } : Machine).snapshot = ({ m with state := t } : Machine).snapshot)
    {name : String} {args : List Word} {v : Word}
    (hcall : ({ m with state := s } : Machine).call name args = (.ok v, m'))
    (hloads : ({ m with state := s } : Machine).LoadsFollowStores name args)
    (hroom : t.steps + (m'.state.steps - s.steps) ≤ limits.maxSteps) :
    ∃ n' data, ({ m with state := t } : Machine).call name args = (.ok v, n') ∧
      m'.snapshot = .ok data ∧ n'.snapshot = .ok data := by
  obtain ⟨fns, rfl, hlinks⟩ := Source.compile_links hcompile
  obtain rfl := hlinks.eq_of_load hload
  have hfree : ∀ fn ∈ fns, Tree.anySubscript fn.body = false := by
    rw [Source.hasSubscript, Source.functions_map_some, List.any_eq_false] at hplain
    intro fn hfn
    exact Bool.eq_false_iff.mpr (hplain fn hfn)
  obtain ⟨s', hcall', rfl⟩ := Machine.call_eq_ok.mp hcall
  have helements := hlinks.elementsOffStack hfree limits s name args
  have hcareful := Machine.everyStep_careful.mpr ⟨hloads, helements⟩
  have hdata := (hlinks.snapshot_iff hfits rfl rfl).mp hsnapshot
  obtain ⟨t', hanswer, hdata'⟩ :=
    (hlinks.disciplined hp hfits hframes).callFunction_alike hdata hcall' hcareful hroom
  obtain ⟨data, hend⟩ : ∃ data, (Machine.mk (Image.ofProgram p limits) s').snapshot = .ok data :=
    hfits.exists_snapshot rfl
  have hsame : (Machine.mk (Image.ofProgram p limits) t').snapshot =
      (Machine.mk (Image.ofProgram p limits) s').snapshot :=
    ((hlinks.snapshot_iff hfits rfl rfl).mpr hdata').symm
  exact ⟨_, data, Machine.call_eq_ok.mpr ⟨t', hanswer, rfl⟩, hend, hsame.trans hend⟩

/-- Leaves `x` behind in one branch and loads it in both. -/
def leftover : FunctionDef where
  name := "leftover"
  params := ["c"]
  body := [
    .ifElse 2 (.name 2 "c") [.assign 3 [.name 3 "x"] (.constant 3 (.int 5))] [],
    .ret 4 (.name 4 "x")]

def leftoverMachine : Machine :=
  .fresh (Image.ofProgram ((Source.compile [some leftover] 1).toOption.getD {}) {})

/-- The word of a local that is loaded before it is stored to comes from an earlier call. -/
theorem leftover_observed :
    Source.hasSubscript [some leftover] = false ∧
    (∃ p, Source.compile [some leftover] 1 = .ok p ∧ Machine.load p {} = .ok leftoverMachine) ∧
    (leftoverMachine.call "leftover" [1]).2.snapshot = leftoverMachine.snapshot ∧
    (leftoverMachine.call "leftover" [0]).1 = .ok 0 ∧
    ((leftoverMachine.call "leftover" [1]).2.call "leftover" [0]).1 = .ok 5 := by
  refine ⟨by decide, ⟨_, rfl, rfl⟩, ?_, ?_, ?_⟩
  · decide +kernel
  · decide +kernel
  · decide +kernel

/-- Stores to `x` on both ways, one of them through a call of its own. -/
def settle : FunctionDef where
  name := "settle"
  params := ["n"]
  body := [
    .ifElse 2 (.compare 2 .greater (.name 2 "n") (.constant 2 (.int 0)))
      [.assign 3 [.name 3 "x"]
        (.call 3 "settle" [.binary 3 .sub (.name 3 "n") (.constant 3 (.int 1))])]
      [.assign 4 [.name 4 "x"] (.name 4 "bonus")],
    .assign 5 [.name 5 "pair"] (.list 5 [.name 5 "x", .name 5 "n"]),
    .ret 6 (.binary 6 .add (.name 6 "x") (.name 6 "n"))]

def settleProgram : Program := (Source.compile [some settle] 1).toOption.getD {}

def settleMachine : Machine := .fresh (Image.ofProgram settleProgram {})

/-- After one call, and after two. The last call is the same, so the data are. -/
def settleShort : MachineState := (settleMachine.call "settle" [1]).2.state

def settleLong : MachineState := ((settleMachine.call "settle" [3]).2.call "settle" [1]).2.state

theorem settle_isolated :
    Source.compile [some settle] 1 = .ok settleProgram ∧
    ∃ n', ({ settleMachine with state := settleLong } : Machine).call "settle" [2] = (.ok 3, n') ∧
      n'.snapshot =
        (({ settleMachine with state := settleShort } : Machine).call "settle" [2]).2.snapshot := by
  let m : Machine := { settleMachine with state := settleShort }
  have hcompile : Source.compile [some settle] 1 = .ok settleProgram := rfl
  have hload : Machine.load settleProgram {} = .ok settleMachine := rfl
  have hsnapshot : m.snapshot = ({ settleMachine with state := settleLong } : Machine).snapshot := by
    decide +kernel
  have hresult : (m.call "settle" [2]).1.toOption = some 3 := by decide +kernel
  have hloads : m.LoadsFollowStores "settle" [2] := by
    unfold Machine.LoadsFollowStores
    decide +kernel
  have hroom : settleLong.steps + ((m.call "settle" [2]).2.state.steps - settleShort.steps) ≤
      ({} : Limits).maxSteps := by decide +kernel
  have hcall : m.call "settle" [2] = (.ok 3, (m.call "settle" [2]).2) := by
    generalize m.call "settle" [2] = answer at hresult
    obtain ⟨result, m'⟩ := answer
    cases result with
    | error e => cases hresult
    | ok v => rw [Option.some.inj hresult]
  obtain ⟨n', data, hcall', hdata, hdata'⟩ := compile_isolated hcompile (by decide)
    ⟨by decide, by decide +kernel⟩ (by decide +kernel) (by decide +kernel) hload hsnapshot hcall
    hloads hroom
  exact ⟨hcompile, n', hcall', hdata'.trans hdata.symm⟩

end Arbor
