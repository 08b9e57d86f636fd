import ResourceMachine.Code.Listing
import ResourceMachine.Proofs.DisposalOrder
import ResourceMachine.Proofs.DisposalPass
import ResourceMachine.Proofs.Faults
import ResourceMachine.Proofs.PromisedReturn
import ResourceMachine.Proofs.SynchronousRun
import ResourceMachine.Proofs.VerifiedRun
import ResourceMachine.Proofs.Trail
import ResourceMachine.Proofs.TrailTrace
import ResourceMachine.Proofs.Corruption
import ResourceMachine.Proofs.Scheduling
import ResourceMachine.Proofs.IteratorClosing
import ResourceMachine.Proofs.ClosingSignal
import ResourceMachine.Proofs.ExceptionChain
import ResourceMachine.Proofs.Acceptance
import ResourceMachine.Proofs.Truncation
import ResourceMachine.Proofs.Budget
import ResourceMachine.Proofs.Termination
import ResourceMachine.Proofs.LoopFree
import ResourceMachine.Proofs.Fitness
import ResourceMachine.Proofs.Quiescence
import ResourceMachine.Proofs.Counters
import ResourceMachine.Proofs.Resumption
import ResourceMachine.Proofs.Separation
import ResourceMachine.Proofs.AwaitAccounting
import ResourceMachine.Proofs.AwaitExpressions
import ResourceMachine.Proofs.FunctionKinds
import ResourceMachine.Proofs.BlockRewriting
import ResourceMachine.Proofs.EmptyScope
import ResourceMachine.Proofs.RewrittenModules
import ResourceMachine.Proofs.EagerRegistration
import ResourceMachine.Proofs.InstructionCoding
import ResourceMachine.Proofs.EmittedCode
import ResourceMachine.Proofs.OperandUse
import ResourceMachine.Proofs.ClosedGenerators
import ResourceMachine.Proofs.Interning
import ResourceMachine.Proofs.Shuffling
import ResourceMachine.Proofs.UnaccountedPasses
