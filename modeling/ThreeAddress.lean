import ThreeAddress.Main
import ThreeAddress.Proofs.Labels
import ThreeAddress.Proofs.LoweringCorrect
import ThreeAddress.Proofs.AssemblyCorrect
import ThreeAddress.Proofs.CompileCorrect
import ThreeAddress.Proofs.Acceptance
import ThreeAddress.Proofs.Temporaries
import ThreeAddress.Proofs.RegisterCalls
import ThreeAddress.Proofs.TemporaryNames
import ThreeAddress.Proofs.OperandRegisters
import ThreeAddress.Proofs.BuilderSessions
import ThreeAddress.Proofs.FormReading
import ThreeAddress.Proofs.CommandRuns
import ThreeAddress.Proofs.FewestLoads
import ThreeAddress.Proofs.UsefulStores
import ThreeAddress.Proofs.ConditionFragments
import ThreeAddress.Proofs.DeadNames
import ThreeAddress.Proofs.ReachedReads
import ThreeAddress.Proofs.EvictionPolicy
import ThreeAddress.Proofs.BackwardJumps
import ThreeAddress.Proofs.NegationNormalForm
import ThreeAddress.Proofs.EnoughRegisters
import ThreeAddress.Proofs.Declarations
import ThreeAddress.Proofs.AssemblyOutcomes
import ThreeAddress.Proofs.Renaming
import ThreeAddress.Proofs.CodeText
