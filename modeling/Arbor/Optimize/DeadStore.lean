import Arbor.Optimize.Liveness

/-!
Removal of dead stores: moves into a frame slot whose value no path reads. Nothing is live when
the function returns, because its frame is gone.
-/

namespace Arbor

namespace Code

/-- The slots that some move of the code overwrites, each once. -/
def slotsWritten (code : Code) : List Word :=
  (code.filterMap (·.slotWritten?)).eraseDups

/-- A move may go if it has no label, reads no slot itself and its slot is not live after it. -/
def isDeadStore (liveness : List (Word × Array Bool)) (node : FlowNode) : Bool :=
  let i := node.instruction
  match i.slotWritten? with
  | none => false
  | some slot =>
    i.label.isNone && !i.readsAllSlots && i.slotsRead.isEmpty &&
      !Flow.liveAfter ((liveness.lookup slot).getD #[]) node

def removeDeadStores (code : Code) : Code :=
  let flow := code.flow
  let liveness := code.slotsWritten.map fun slot => (slot, flow.live slot)
  (flow.toList.filter fun node => !isDeadStore liveness node).map (·.instruction)

end Code

end Arbor
