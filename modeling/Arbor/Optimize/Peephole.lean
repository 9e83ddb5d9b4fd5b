import Arbor.Assembly.Instruction

/-!
Removal of instructions that a short window shows to be without effect. A window starts anywhere
and never reaches past a label except at its first instruction. Five rules are tried in turn at
every position of a sweep; sweeps repeat until one removes nothing.
-/

namespace Arbor

namespace Instruction

/-- The operands of a two-operand move. -/
def moveOperands? (i : Instruction) : Option (Operand × Operand) :=
  match i.mnemonic, i.operands with
  | .mov, [dst, src] => some (dst, src)
  | _, _ => none

/-- An instruction with a label may be a jump target, and one without mnemonic is no instruction. -/
def isRemovable (i : Instruction) : Bool := i.label.isNone && !i.isLabelOnly

/-- A register moved to itself. -/
def isSelfMove (i : Instruction) : Bool :=
  match i.moveOperands? with
  | some (dst, src) => i.isRemovable && dst.kind == .register && dst == src
  | none => false

/-- The second of two equal moves, unless the first changes what its source reads. -/
def repeats (first second : Instruction) : Bool :=
  match first.moveOperands?, second.moveOperands? with
  | some (dst, src), some (dst', src') =>
    second.isRemovable && dst == dst' && src == src' &&
      !(dst.kind == .register && src.usesReg dst.reg)
  | _, _ => false

/-- A move back between a register and a memory word that the first move made equal. -/
def undoes (first second : Instruction) : Bool :=
  match first.moveOperands?, second.moveOperands? with
  | some (dst, src), some (dst', src') =>
    second.isRemovable && dst' == src && src' == dst &&
      ((dst.kind == .memory && src.kind == .register && !dst.usesReg src.reg) ||
        (dst.kind == .register && src.kind == .memory && !src.usesReg dst.reg))
  | _, _ => false

/-- A jump that directly follows an instruction which never falls through. -/
def shadows (first second : Instruction) : Bool :=
  (first.mnemonic == .ret || first.mnemonic == .jmp) && second.mnemonic == .jmp &&
    second.isRemovable

end Instruction

namespace Code

/-- Whether the label is among those at the very start of the code. -/
def startsAt (label : String) : Code → Bool
  | [] => false
  | i :: rest =>
    match i.label with
    | none => false
    | some l => l == label || (i.isLabelOnly && startsAt label rest)

/-- A jump to the position that follows it anyway. -/
def jumpsToNext (i : Instruction) (rest : Code) : Bool :=
  match i.operands with
  | o :: _ =>
    i.mnemonic == .jmp && i.label.isNone && o.kind == .symbol && startsAt o.symbol rest
  | [] => false

/-- What a rule removes at the start of a window. -/
inductive WindowMatch where
  | first | second | nothing
deriving DecidableEq, Repr

/-- The first rule that applies to the window at `i` decides. -/
def matchWindow (i : Instruction) (rest : Code) : WindowMatch :=
  if i.isSelfMove then .first
  else if rest.head?.any i.repeats then .second
  else if rest.head?.any i.undoes then .second
  else if jumpsToNext i rest then .first
  else if rest.head?.any i.shadows then .second
  else .nothing

/-- One sweep over the code. The window moves on by one position after every step, so when the
first instruction of a window goes, the one after it starts no window of its own in this sweep. -/
def sweepWindows : Code → Code
  | [] => []
  | i :: rest =>
    match matchWindow i rest, rest with
    | .first, [] => []
    | .first, next :: rest => next :: sweepWindows rest
    | .second, [] => [i]
    | .second, _ :: rest => i :: sweepWindows rest
    | .nothing, rest => i :: sweepWindows rest

def peephole (code : Code) : Code :=
  let next := sweepWindows code
  if next.length < code.length then peephole next else code
termination_by code.length

end Code

end Arbor
