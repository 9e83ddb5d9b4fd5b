import Mathlib.Tactic
import Arbor.Proofs.Snapshot
import Arbor.Proofs.Lockstep.Passes
import Arbor.Proofs.Overhang.Run

/-!
Optimization changes no answer. A call on an optimized program returns what the call on
the compiled program returns, leaves the same data and takes no more steps, as long as
the call keeps its hands off the stack and off locals that hold nothing yet. What such a
call would find there depends on the code: return addresses and the words that dead
stores would have left are not the same. Nor may a frame reach the data area, where the
word of a dead store would be seen.
-/

namespace Arbor

/-- Optimization is transparent. Take any call on a compiled program that returns, loads no
local before the activation has stored to it and accesses no element in the stack area. On
what any pipeline makes of the program, and from any state with the same data that has used
no more of the step limit, the call returns the same word, ends with the same snapshot and
takes no more steps. If the pipeline removes dead stores, no frame may reach the data area. -/
theorem Pipeline.run_transparent {source : Source} {jobs : Nat} {p : Program}
    (hcompile : source.compile jobs = .ok p) (hp : p.Addressable)
    (hframes : p.widestFrame < 2 ^ 60) {limits : Limits} (hfits : p.Fits limits.maxStackWords)
    (pipeline : Pipeline)
    (hapart : ⟨.deadStore, true⟩ ∈ pipeline.stages → p.FramesApart limits.maxStackWords)
    {m m' : Machine} {s : MachineState} (hload : Machine.load p limits = .ok m) {name : String}
    {args : List Word} {v : Word}
    (hcall : ({ m with state := s } : Machine).call name args = (.ok v, m'))
    (hloads : ({ m with state := s } : Machine).LoadsFollowStores name args)
    (helements : ({ m with state := s } : Machine).ElementsOffStack name args) :
    ∃ n, Machine.load (pipeline.run p).1 limits = .ok n ∧
      ∀ t : MachineState, t.steps ≤ s.steps →
        ({ n with state := t } : Machine).snapshot = ({ m with state := s } : Machine).snapshot →
        ∃ n' data, ({ n with state := t } : Machine).call name args = (.ok v, n') ∧
          m'.snapshot = .ok data ∧ n'.snapshot = .ok data ∧
          n'.state.steps - t.steps ≤ m'.state.steps - s.steps := by
  obtain ⟨fns, rfl, hlinks⟩ := Source.compile_links hcompile
  obtain rfl := hlinks.eq_of_load hload
  have hreplaces := (hlinks.disciplined hp hfits hframes).replaces_runAll hapart
  rw [← pipeline.run_eq_mapCode] at hreplaces
  obtain ⟨s', hcall', rfl⟩ := Machine.call_eq_ok.mp hcall
  have hcareful := Machine.everyStep_careful.mpr ⟨hloads, helements⟩
  have hload' : Machine.load (pipeline.run p).1 limits =
      .ok (Machine.fresh (Image.ofProgram (pipeline.run p).1 limits)) := by
    rw [pipeline.run_eq_mapCode]
    exact hlinks.load_mapCode limits
  refine ⟨_, hload', ?_⟩
  intro t hsteps hsnapshot
  have hlayout : Layout.ofRequests (Layout.requests (pipeline.run p).1) =
      Layout.ofRequests (Layout.requests p) := congrArg Layout.ofRequests hreplaces.requests
  have hdata := (hlinks.snapshot_iff hfits rfl hlayout).mp hsnapshot.symm
  obtain ⟨t', hanswer, -, hdata', hsteps'⟩ := hreplaces.call hdata hsteps hcall' hcareful
  obtain ⟨data, hend⟩ : ∃ data, (Machine.mk (Image.ofProgram p limits) s').snapshot = .ok data :=
    hfits.exists_snapshot rfl
  have hsame : (Machine.mk (Image.ofProgram (pipeline.run p).1 limits) t').snapshot =
      (Machine.mk (Image.ofProgram p limits) s').snapshot :=
    ((hlinks.snapshot_iff hfits rfl hlayout).mpr hdata').symm
  refine ⟨_, data, Machine.call_eq_ok.mpr ⟨t', hanswer, rfl⟩, hend, hsame.trans hend, ?_⟩
  dsimp only at hsteps' ⊢
  omega

/-- Adds up a list from the end, with a store that nothing reads and a bonus that is a global. -/
def ascent : FunctionDef where
  name := "ascent"
  params := ["n"]
  body := [
    .assign 2 [.name 2 "xs"] (.list 2 [.name 2 "n", .constant 2 (.int 4)]),
    .assign 3 [.name 3 "spare", .name 3 "i"] (.constant 3 (.int 2)),
    .assign 4 [.name 4 "sum"] (.name 4 "bonus"),
    .whileLoop 5 (.name 5 "i") [
      .augAssign 6 (.name 6 "i") .sub (.constant 6 (.int 1)),
      .augAssign 7 (.name 7 "sum") .add (.subscript 7 (.name 7 "xs") (.name 7 "i"))],
    .ifElse 8 (.compare 8 .greater (.name 8 "n") (.constant 8 (.int 0)))
      [.ret 9 (.call 9 "ascent" [.binary 9 .sub (.constant 9 (.int 0)) (.name 9 "sum")])] [],
    .ret 10 (.name 10 "sum")]

def ascentProgram : Program := (Source.compile [some ascent] 1).toOption.getD {}

def ascentState : MachineState := { memory := Memory.write {} Layout.base 5 }

def ascentMachine : Machine :=
  { image := Image.ofProgram ascentProgram {}, state := ascentState }

theorem ascent_transparent :
    Source.compile [some ascent] 1 = .ok ascentProgram ∧
    ∃ n n', Machine.load (Pipeline.standard.run ascentProgram).1 {} = .ok n ∧
      ({ n with state := ascentState } : Machine).call "ascent" [3] = (.ok (-3), n') ∧
      n'.snapshot = (ascentMachine.call "ascent" [3]).2.snapshot ∧ n'.state.steps ≤ 175 := by
  have hcompile : Source.compile [some ascent] 1 = .ok ascentProgram := rfl
  have hload : Machine.load ascentProgram {} = .ok (Machine.fresh (Image.ofProgram ascentProgram {})) :=
    rfl
  have hresult : (ascentMachine.call "ascent" [3]).1.toOption = some (-3) := by decide +kernel
  have hsteps : (ascentMachine.call "ascent" [3]).2.state.steps = 175 := by decide +kernel
  have hloads : ascentMachine.LoadsFollowStores "ascent" [3] := by
    unfold Machine.LoadsFollowStores
    decide +kernel
  have helements : ascentMachine.ElementsOffStack "ascent" [3] := by
    unfold Machine.ElementsOffStack
    decide +kernel
  have hcall : ascentMachine.call "ascent" [3] = (.ok (-3), (ascentMachine.call "ascent" [3]).2) := by
    generalize ascentMachine.call "ascent" [3] = answer at hresult
    obtain ⟨result, m'⟩ := answer
    cases result with
    | error e => cases hresult
    | ok v => rw [Option.some.inj hresult]
  have hload' : Machine.load (Pipeline.standard.run ascentProgram).1 {} =
      .ok (Machine.fresh (Image.ofProgram (Pipeline.standard.run ascentProgram).1 {})) :=
    Machine.load_eq (by decide +kernel) {}
  have hsnapshot : (Machine.mk (Image.ofProgram (Pipeline.standard.run ascentProgram).1 {})
      ascentState).snapshot = ascentMachine.snapshot := by decide +kernel
  obtain ⟨n, hn, htransparent⟩ := Pipeline.run_transparent hcompile
    ⟨by decide, by decide +kernel⟩ (by decide +kernel) (by decide +kernel) Pipeline.standard
    (fun _ => by decide +kernel) hload hcall hloads helements
  obtain rfl := Except.ok.inj (hload'.symm.trans hn)
  obtain ⟨n', data, hcall', hdata, hdata', hle⟩ := htransparent ascentState le_rfl hsnapshot
  refine ⟨hcompile, _, n', hload', hcall', hdata'.trans hdata.symm, ?_⟩
  rw [hsteps] at hle
  exact hle

/-- All words between the data area of one global and the top of the stack. -/
def plungeLimits : Limits := { maxStackWords := 268426751 }

def plungeState : MachineState := { memory := {} }

/-- A frame that reaches the data area. From its first word to the top of the stack there is
room for 524271 frames of 512 words, so the last slot of the deepest activation is the global `y`
and the dead store to it is a store to `y`. -/
theorem plunge_not_transparent :
    ∃ p m o, Source.compile [some (plunge ((List.range 508).map (numbered "spare")))] 1 = .ok p ∧
      p.Addressable ∧ p.Fits plungeLimits.maxStackWords ∧ Machine.load p plungeLimits = .ok m ∧
      Machine.load ((Pipeline.standard.setEnabled "peephole" false).run p).1 plungeLimits = .ok o ∧
      ({ m with state := plungeState } : Machine).LoadsFollowStores "plunge" [524270] ∧
      ({ m with state := plungeState } : Machine).ElementsOffStack "plunge" [524270] ∧
      ({ m with state := plungeState } : Machine).snapshot =
        ({ o with state := plungeState } : Machine).snapshot ∧
      (({ m with state := plungeState } : Machine).call "plunge" [524270]).1 = .ok 7 ∧
      (({ o with state := plungeState } : Machine).call "plunge" [524270]).1 = .ok 0 := by
  have hlength : ((List.range 508).map (numbered "spare")).length = 508 := by simp
  have hover : Layout.base.toNat + 8 * ((524270 + 1) * (508 + 4)) = Image.stackTop.toNat := by decide
  have hblank : plungeState.memory.read Layout.base = 0 := Memory.read_empty _
  rw [← hblank]
  refine plunge_differs (Plunge.spare_numbered (by decide)) ?_ ?_ ?_ plungeState (by decide) <;>
    rw [hlength]
  · exact hover
  · decide
  · decide

end Arbor
