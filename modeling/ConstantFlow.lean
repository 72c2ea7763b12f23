import ConstantFlow.Fact.Pool
import ConstantFlow.Log.Event
import ConstantFlow.Proofs.Arithmetic
import ConstantFlow.Proofs.Facts
import ConstantFlow.Proofs.Evaluation
import ConstantFlow.Proofs.Monotonicity
import ConstantFlow.Proofs.Worklist
import ConstantFlow.Proofs.Iteration
import ConstantFlow.Proofs.LeastSolution
import ConstantFlow.Proofs.DivisionFree
import ConstantFlow.Proofs.OrderIndependence
import ConstantFlow.Proofs.Execution
import ConstantFlow.Proofs.Soundness
import ConstantFlow.Proofs.Termination
import ConstantFlow.Proofs.Stability
import ConstantFlow.Proofs.Checks
import ConstantFlow.Proofs.Cutoff
import ConstantFlow.Proofs.SinglePass
import ConstantFlow.Proofs.Mirror
import ConstantFlow.Proofs.Independence
import ConstantFlow.Proofs.Untracked
import ConstantFlow.Proofs.Texts
import ConstantFlow.Proofs.Words
import ConstantFlow.Proofs.Postorder
import ConstantFlow.Proofs.StraightLine
import ConstantFlow.Proofs.ControlFlow
import ConstantFlow.Proofs.Unbounded
import ConstantFlow.Proofs.Division
import ConstantFlow.Proofs.Joins
import ConstantFlow.Proofs.StrongUpdate
import ConstantFlow.Proofs.Adjacency
import ConstantFlow.Proofs.Growth
import ConstantFlow.Proofs.Refusals
import ConstantFlow.Proofs.Settings
import ConstantFlow.Proofs.Options
import ConstantFlow.Proofs.Attendance
import ConstantFlow.Proofs.Occurrences
import ConstantFlow.Proofs.InPlace
import ConstantFlow.Proofs.Stores
