import Arbor.Lowering.Statement

/-!
Lowering of a whole function: parameters, prologue, body, and an exit that returns 0 for a body
that runs off its end.
-/

namespace Arbor

/-- The outcome of lowering one function. The numbers drawn and the names promoted count for the
compilation whether or not a unit came out. -/
structure LoweredFunction where
  result : Except CompileError CompiledUnit
  drawn : Nat := 0
  promoted : Names := []

namespace Emit

def prologue (name : String) (line : UInt32) : Code :=
  [.labelled name line, push line rbp, mov line rbp rsp]

def fallthrough (line : UInt32) : Code := mov line rax (.imm 0) :: epilogue line

/-- A function's code with the placeholder of its frame reservation. -/
def unpatched (fn : FunctionDef) (body : Code) : Code :=
  prologue fn.name fn.line ++ Code.reservation fn.line :: (body ++ fallthrough fn.line)

end Emit

namespace LoweringEnv

def lower (env : LoweringEnv) (fn : FunctionDef) : LoweredFunction :=
  let scope : Scope := { owner := fn.name }
  match scope.declareParams 0 fn.params.length fn.params with
  | .error e => { result := .error (.scope e) }
  | .ok scope =>
    match Lower.block "body" 0 (Lower.statements env 0 fn.body) { scope := scope } with
    | .error e s => { result := .error (.node fn.name e), drawn := s.drawn, promoted := s.promoted }
    | .ok body s =>
      let result :=
        match Code.patchReservation (Emit.unpatched fn body) 3 s.scope.frameSlots with
        | .error e => .error (.reservation e)
        | .ok code =>
          .ok {
            name := fn.name
            params := fn.params.length
            locals := s.scope.slots.length
            slots := s.scope.frameSlots
            code := code
            data := s.data
            externs := s.externs }
      { result := result, drawn := s.drawn, promoted := s.promoted }

end LoweringEnv

end Arbor
