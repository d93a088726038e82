import BranchCutPrice.Proofs.Outcome
import BranchCutPrice.Proofs.Slots
import BranchCutPrice.Session.Rounds
import BranchCutPrice.Session.Search
import BranchCutPrice.Proofs.Users
import BranchCutPrice.Proofs.Holdings
import BranchCutPrice.Proofs.Relaxation
import BranchCutPrice.Proofs.Loading
import BranchCutPrice.Proofs.Ledger
import BranchCutPrice.Proofs.Pools
import BranchCutPrice.Proofs.Ranking
import BranchCutPrice.Proofs.Rounds
import BranchCutPrice.Proofs.Stranding
import BranchCutPrice.Proofs.Lineage
import BranchCutPrice.Proofs.Moves
import BranchCutPrice.Proofs.Coherence
import BranchCutPrice.Proofs.Persistence
import BranchCutPrice.Proofs.Content
import BranchCutPrice.Proofs.Focus
import BranchCutPrice.Proofs.History
import BranchCutPrice.Proofs.Growth
import BranchCutPrice.Proofs.Promotion
import BranchCutPrice.Proofs.Removal
import BranchCutPrice.Proofs.Cuts
import BranchCutPrice.Proofs.Session
import BranchCutPrice.Proofs.Search
import BranchCutPrice.Proofs.Calls
import BranchCutPrice.Proofs.World
import BranchCutPrice.Proofs.Steps
import BranchCutPrice.Proofs.Runs
import BranchCutPrice.Proofs.Conservation
import BranchCutPrice.Proofs.Reconstruction
import BranchCutPrice.Proofs.Agreement
import BranchCutPrice.Proofs.TreeShape
import BranchCutPrice.Proofs.PoolIndex
import BranchCutPrice.Proofs.PoolRuns
import BranchCutPrice.Proofs.Market
import BranchCutPrice.Proofs.Columns
import BranchCutPrice.Proofs.Doubles
import BranchCutPrice.Proofs.Rounding
import BranchCutPrice.Proofs.Retention
import BranchCutPrice.Proofs.Dedup
import BranchCutPrice.Proofs.Heap
import BranchCutPrice.Proofs.Leaves
import BranchCutPrice.Proofs.Shedding
import BranchCutPrice.Proofs.Budding
import BranchCutPrice.Proofs.Turnover
import BranchCutPrice.Proofs.Passages
import BranchCutPrice.Proofs.Fates
import BranchCutPrice.Proofs.Edits
import BranchCutPrice.Proofs.Filing
import BranchCutPrice.Proofs.Editing
import BranchCutPrice.Proofs.CallEdits
import BranchCutPrice.Proofs.Orderly
import BranchCutPrice.Proofs.Dating
import BranchCutPrice.Proofs.Farkas
import BranchCutPrice.Proofs.Separating
import BranchCutPrice.Proofs.ActivePath
import BranchCutPrice.Proofs.Bounds
import BranchCutPrice.Proofs.Exactness
import BranchCutPrice.Proofs.Selection
import BranchCutPrice.Proofs.Reporting
import BranchCutPrice.Proofs.DualBound
import BranchCutPrice.Proofs.Careers
import BranchCutPrice.Proofs.Aging
import BranchCutPrice.Proofs.Lifespans
import BranchCutPrice.Proofs.Atomicity
import BranchCutPrice.Proofs.Changes
import BranchCutPrice.Proofs.Surveys
import BranchCutPrice.Proofs.Custody
import BranchCutPrice.Proofs.Inspections
import BranchCutPrice.Proofs.Dockets
import BranchCutPrice.Proofs.Handover
import BranchCutPrice.Proofs.Admission
import BranchCutPrice.Proofs.Rebuilding
import BranchCutPrice.Proofs.Flattening
import BranchCutPrice.Proofs.Cursor
import BranchCutPrice.Proofs.Switching
import BranchCutPrice.Proofs.Snapshots
import BranchCutPrice.Proofs.Felling
import BranchCutPrice.Proofs.Brood
import BranchCutPrice.Proofs.Restart
import BranchCutPrice.Proofs.Advancing
import BranchCutPrice.Proofs.Branching
import BranchCutPrice.Proofs.Pruning
import BranchCutPrice.Proofs.Diving
import BranchCutPrice.Proofs.Offers
import BranchCutPrice.Proofs.CutSelection
import BranchCutPrice.Proofs.TotalOrder
import BranchCutPrice.Proofs.Scores
import BranchCutPrice.Proofs.Quotes
import BranchCutPrice.Proofs.ColumnSelection
import BranchCutPrice.Proofs.Construction
import BranchCutPrice.Proofs.InnerProduct
import BranchCutPrice.Proofs.Rosters
import BranchCutPrice.Proofs.Membership
import BranchCutPrice.Proofs.Modifiables
