import RegisterAllocation.Generator.Moves
import RegisterAllocation.Generator.Program
import RegisterAllocation.Main
import RegisterAllocation.Proofs.Budget
import RegisterAllocation.Proofs.CanonicalRanges
import RegisterAllocation.Proofs.Coverage
import RegisterAllocation.Proofs.EdgeSplitting
import RegisterAllocation.Proofs.GreatestSolution
import RegisterAllocation.Proofs.LocationMap
import RegisterAllocation.Proofs.Readability
import RegisterAllocation.Proofs.Survival
import RegisterAllocation.Proofs.Tiling
import RegisterAllocation.Proofs.Turns
