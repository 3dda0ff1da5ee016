import Simplex.Scalar.Binary
import Simplex.Solve
import Simplex.Proofs.Program
import Simplex.Proofs.BasicSolution
import Simplex.Proofs.Choice
import Simplex.Proofs.Construction
import Simplex.Proofs.Points
import Simplex.Proofs.Stages
import Simplex.Proofs.Removal
import Simplex.Proofs.Reachable
import Simplex.Proofs.Certificates
import Simplex.Proofs.Breach
import Simplex.Proofs.Cycling
import Simplex.Proofs.Feasibility
import Simplex.Proofs.Exact
import Simplex.Proofs.SmallTolerance
import Simplex.Proofs.Costs
import Simplex.Proofs.Encoding
import Simplex.Proofs.Pivots
import Simplex.Proofs.BasisInvariant
import Simplex.Proofs.SameBasis
import Simplex.Proofs.Simulation
import Simplex.Proofs.Splitting
import Simplex.Proofs.Independence
import Simplex.Proofs.RatioTest
import Simplex.Proofs.PivotLimit
import Simplex.Proofs.ArtificialCost
import Simplex.Proofs.RedundantRows
import Simplex.Proofs.PhaseChange
import Simplex.Proofs.Descent
import Simplex.Proofs.ObjectiveValue
import Simplex.Proofs.Geometry
import Simplex.Proofs.OppositeColumns
import Simplex.Proofs.Reversal
import Simplex.Proofs.Defects
import Simplex.Proofs.Records
import Simplex.Proofs.Replay
import Simplex.Proofs.Log
import Simplex.Proofs.Rewriting
import Simplex.Proofs.Words
import Simplex.Proofs.Fields
import Simplex.Proofs.NumberTexts
import Simplex.Proofs.Rendering
import Simplex.Proofs.EnteringColumn
import Simplex.Proofs.RemovedPositions
