import GraphReduction.Main
import GraphReduction.Session.Command
import GraphReduction.Proofs.Cells
import GraphReduction.Proofs.OverApplication
import GraphReduction.Proofs.Conduct
import GraphReduction.Proofs.Deadlock
import GraphReduction.Proofs.Halting
import GraphReduction.Proofs.Memoization
import GraphReduction.Proofs.PoolDelivery
import GraphReduction.Proofs.Yielding
import GraphReduction.Proofs.WeakHead
import GraphReduction.Proofs.PoolDrain
import GraphReduction.Proofs.Closed
import GraphReduction.Proofs.Exchange
import GraphReduction.Proofs.KnownLayouts
import GraphReduction.Proofs.Raising
import GraphReduction.Proofs.Registry
import GraphReduction.Proofs.StackLimit
import GraphReduction.Proofs.Lasting
import GraphReduction.Proofs.Unsaturated
import GraphReduction.Proofs.Bodies
import GraphReduction.Proofs.InternalErrors
import GraphReduction.Proofs.Rendering
import GraphReduction.Proofs.SumStages
import GraphReduction.Proofs.SumSteps
import GraphReduction.Proofs.Chronicle
import GraphReduction.Proofs.SumPool
import GraphReduction.Proofs.SumWorkload
import GraphReduction.Proofs.SumPotential
import GraphReduction.Proofs.SumOutcome
import GraphReduction.Proofs.CommandLine
import GraphReduction.Proofs.RoundTrip
import GraphReduction.Proofs.Balance
import GraphReduction.Proofs.CycleCheck
import GraphReduction.Proofs.ArgumentRegisters
import GraphReduction.Proofs.StackHistory
