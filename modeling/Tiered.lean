import Tiered.Inspect
import Tiered.Main
import Tiered.Proofs.EngineTransparency
import Tiered.Proofs.LoweredVerification
import Tiered.Proofs.LoweringMeaning
import Tiered.Proofs.MachineSafety
import Tiered.Proofs.Paths
import Tiered.Proofs.Acceptance
import Tiered.Proofs.Failures
import Tiered.Proofs.Coupling
import Tiered.Proofs.MachineCoupling
import Tiered.Proofs.InternalErrors
import Tiered.Proofs.Termination
import Tiered.Proofs.Decoders
import Tiered.Proofs.Requests
import Tiered.Proofs.CacheCoherence
import Tiered.Proofs.Reachability
import Tiered.Proofs.Binding
import Tiered.Proofs.StackNeed
import Tiered.Proofs.CallDepth
import Tiered.Proofs.DepthLimit
import Tiered.Proofs.UnitNames
import Tiered.Proofs.Counters
import Tiered.Proofs.Unpacking
import Tiered.Proofs.PoolContents
import Tiered.Proofs.ValueText
import Tiered.Proofs.JumpLabels
