import Arbor.Main
import Arbor.Proofs.DocumentRoundTrip
import Arbor.Proofs.Compilation
import Arbor.Proofs.Symbols
import Arbor.Proofs.Uniqueness
import Arbor.Proofs.Interleaving
import Arbor.Proofs.Renaming
import Arbor.Proofs.Closure
import Arbor.Proofs.Parallel
import Arbor.Proofs.Acceptance
import Arbor.Proofs.Thinning
import Arbor.Proofs.Resolution
import Arbor.Proofs.SymbolClosure
import Arbor.Proofs.Semantics
import Arbor.Proofs.Space
import Arbor.Proofs.Frames
import Arbor.Proofs.Activation
import Arbor.Proofs.Simulation.Relation
import Arbor.Proofs.Simulation.Expression
import Arbor.Proofs.Simulation.Function
import Arbor.Proofs.Simulation.Statement
import Arbor.Proofs.Correctness
import Arbor.Proofs.Discipline
import Arbor.Proofs.Landing
import Arbor.Proofs.Liveness
import Arbor.Proofs.Watched
import Arbor.Proofs.Inversion
import Arbor.Proofs.Lockstep.Relation
import Arbor.Proofs.Lockstep.Step
import Arbor.Proofs.Lockstep.Calls
import Arbor.Proofs.Lockstep.Effects
import Arbor.Proofs.Lockstep.Removal
import Arbor.Proofs.Lockstep.Run
import Arbor.Proofs.Lockstep.Entry
import Arbor.Proofs.Lockstep.Passes
import Arbor.Proofs.Snapshot
import Arbor.Proofs.Overhang.Program
import Arbor.Proofs.Overhang.Run
import Arbor.Proofs.Transparency
import Arbor.Proofs.Isolation
import Arbor.Proofs.DeadStores
import Arbor.Proofs.StackHeight
import Arbor.Proofs.StackBalance
import Arbor.Proofs.Alike
import Arbor.Proofs.ReturnRun
import Arbor.Proofs.Sweeping
import Arbor.Proofs.CallFree.Reckoning
import Arbor.Proofs.CallFree.Forward
import Arbor.Proofs.CallFree.Desk
import Arbor.Proofs.CallFree.Fragments
import Arbor.Proofs.CallFree.Expression
import Arbor.Proofs.Variables
import Arbor.Proofs.OneStorage
import Arbor.Proofs.FrameLayout
import Arbor.Proofs.ErrorPaths
import Arbor.Proofs.ReadErrors
import Arbor.Proofs.Mirroring
import Arbor.Proofs.Refusals
import Arbor.Proofs.DeadStoreResidue
import Arbor.Proofs.PeepholeNormalForm
import Arbor.Proofs.Accounting
import Arbor.Proofs.Sessions
import Arbor.Proofs.Separation
import Arbor.Proofs.StringData
import Arbor.Proofs.RaisedLimits
import Arbor.Proofs.ByteOperands
import Arbor.Proofs.Expansion
import Arbor.Proofs.Quoting
import Arbor.Proofs.RunArguments
