import EarliestFinish.Estimator.Selection
import EarliestFinish.Metrics
import EarliestFinish.Schedule
import EarliestFinish.Proofs.Balance
import EarliestFinish.Proofs.Chart
import EarliestFinish.Proofs.Commits
import EarliestFinish.Proofs.Conservation
import EarliestFinish.Proofs.Declarations
import EarliestFinish.Proofs.Dependencies
import EarliestFinish.Proofs.EarliestFit
import EarliestFinish.Proofs.FallbackChain
import EarliestFinish.Proofs.Greedy
import EarliestFinish.Proofs.IdleTime
import EarliestFinish.Proofs.MakespanBound
import EarliestFinish.Proofs.Relinking
import EarliestFinish.Proofs.Scaling
import EarliestFinish.Proofs.Scarcity
import EarliestFinish.Proofs.SharedFiles
import EarliestFinish.Proofs.Trace
import EarliestFinish.Proofs.Views
import EarliestFinish.Proofs.Winner
import EarliestFinish.Proofs.WorkUnit
