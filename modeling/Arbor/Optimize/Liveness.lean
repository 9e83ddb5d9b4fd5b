import Arbor.Assembly.Instruction

/-!
Liveness of frame slots. A slot is live at a position if some path of the flow graph from there
reads it before overwriting it. Slots do not influence each other, so each is analysed alone: its
live positions are the least set closed under `Flow.liveAt`, found by sweeping backwards over the
code until a sweep adds nothing.
-/

namespace Arbor

namespace Operand

/-- A memory operand addressed from the frame base. -/
def isFrame (o : Operand) : Bool := o.kind == .memory && o.reg == .rbp && o.symbol.isEmpty

end Operand

namespace Instruction

/-- The frame slot that a move overwrites. -/
def slotWritten? (i : Instruction) : Option Word :=
  match i.mnemonic, i.operands with
  | .mov, o :: _ => if o.isFrame && o.index == .none then some o.value else none
  | _, _ => none

/-- The operands whose frame slots are read: all but the destination of a move. -/
def slotReaders (i : Instruction) : List Operand :=
  match i.slotWritten? with
  | some _ => i.operands.tail
  | none => i.operands

/-- An access indexed from the frame base may touch every slot. -/
def readsAllSlots (i : Instruction) : Bool := i.operands.any fun o => o.isFrame && o.index != .none

def slotsRead (i : Instruction) : List Word :=
  (i.slotReaders.filter fun o => o.isFrame && o.index == .none).map (·.value)

def readsSlot (i : Instruction) (slot : Word) : Bool :=
  i.readsAllSlots || i.slotsRead.contains slot

def jumpTarget? (i : Instruction) : Option String :=
  match i.operands with
  | o :: _ => if o.kind = .symbol then some o.symbol else none
  | [] => none

end Instruction

namespace Code

/-- The position a jump goes to, if its label is defined. -/
def target? (code : Code) (i : Instruction) : Option Nat :=
  match i.jumpTarget? with
  | some label => code.position? label
  | none => none

/-- The positions that may follow instruction `i` at position `k`. -/
def successorsOf (code : Code) (k : Nat) (i : Instruction) : List Nat :=
  let next := if k + 1 < code.length then [k + 1] else []
  if i.mnemonic = .ret then []
  else if i.mnemonic = .jmp then (code.target? i).toList
  else if i.mnemonic.isConditionalJump then (code.target? i).toList ++ next
  else next

end Code

/-- One position of the flow graph: its instruction and the positions that may follow. -/
structure FlowNode where
  instruction : Instruction
  successors : List Nat

abbrev Flow := Array FlowNode

def Code.flow (code : Code) : Flow :=
  (code.zipIdx.map fun (i, k) => { instruction := i, successors := code.successorsOf k i }).toArray

namespace Flow

/-- Whether the slot is live after a position, given where it is live before. -/
def liveAfter (live : Array Bool) (node : FlowNode) : Bool :=
  node.successors.any fun k => live.getD k false

/-- Whether the slot is live before a position, given where it is live before the others. -/
def liveAt (slot : Word) (live : Array Bool) (node : FlowNode) : Bool :=
  node.instruction.readsSlot slot ||
    (node.instruction.slotWritten? != some slot && liveAfter live node)

/-- Updates the positions below `n`, the last one first. -/
def sweep (flow : Flow) (slot : Word) : Nat → Array Bool → Array Bool
  | 0, live => live
  | n + 1, live =>
    match flow[n]? with
    | some node => sweep flow slot n (live.setIfInBounds n (liveAt slot live node))
    | none => sweep flow slot n live

/-- Sweeps until nothing changes. A sweep that changes something adds a position, so the bound on
the rounds is never what stops it. -/
def settle (flow : Flow) (slot : Word) : Nat → Array Bool → Array Bool
  | 0, live => live
  | rounds + 1, live =>
    let next := sweep flow slot flow.size live
    if next = live then live else settle flow slot rounds next

/-- Where the slot is live. -/
def live (flow : Flow) (slot : Word) : Array Bool :=
  settle flow slot (flow.size + 1) (Array.replicate flow.size false)

end Flow

end Arbor
