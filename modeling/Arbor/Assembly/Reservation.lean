import Arbor.Assembly.Instruction

/-!
The frame reservation. A function opens with `sub rsp, 0` as a placeholder, because the number of
its frame slots is known only after the body is lowered; `patchReservation` then fills in the
size, or deletes the placeholder when the frame holds no slot.
-/

namespace Arbor

structure ReservationError where
  offset : Nat
deriving DecidableEq, Repr

def ReservationError.message (e : ReservationError) : String :=
  "Frame reservation not found at offset " ++ toString e.offset

namespace Code

def reservation (line : UInt32) : Instruction :=
  .make .sub [.ofReg .rsp, .imm 0] line

def setImmediate (i : Instruction) (v : Word) : Instruction :=
  { i with operands := i.operands.set 1 (.imm v) }

def patchReservation (code : Code) (offset slots : Nat) : Except ReservationError Code :=
  match code[offset]? with
  | some i =>
    if i.mnemonic = .sub then
      if slots = 0 then .ok (code.eraseIdx offset)
      else .ok (code.set offset (setImmediate i (Int64.ofNat (8 * slots))))
    else .error ⟨offset⟩
  | none => .error ⟨offset⟩

end Code

end Arbor
