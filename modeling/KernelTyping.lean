import KernelTyping.Inference.Basic
import KernelTyping.Target.CLike
import KernelTyping.Proofs.Inference.Divergence
import KernelTyping.Proofs.Inference.Idempotence
import KernelTyping.Proofs.Inference.BestEffort
import KernelTyping.Proofs.Inference.Assignments
import KernelTyping.Proofs.Inference.VisitedCalls
import KernelTyping.Proofs.Inference.References
import KernelTyping.Proofs.Inference.OtherEntries
import KernelTyping.Proofs.Inference.Locality
import KernelTyping.Proofs.Table.Sessions
import KernelTyping.Proofs.Inference.LastingFaults
import KernelTyping.Proofs.Inference.TargetCounts
import KernelTyping.Proofs.Inference.Findings
import KernelTyping.Proofs.Renaming.Plain
import KernelTyping.Proofs.Renaming.Known
import KernelTyping.Proofs.Inference.FreshNames
import KernelTyping.Proofs.Inference.Reductions
import KernelTyping.Proofs.Inference.DependencyGraph
import KernelTyping.Proofs.Inference.Grounded
import KernelTyping.Proofs.Inference.Stability
import KernelTyping.Proofs.ElementType.Combination
import KernelTyping.Proofs.Evaluation.Operators
import KernelTyping.Proofs.Callable
import KernelTyping.Proofs.Inference.Knowledge
import KernelTyping.Proofs.ElementType.Reordering
import KernelTyping.Proofs.Inference.ByName
import KernelTyping.Proofs.Table.Naming
import KernelTyping.Proofs.Expansion.Hygiene
