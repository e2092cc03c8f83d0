import MipPump.Number.Arith
import MipPump.Number.Binary64
import MipPump.Number.ExtRat
import MipPump.Number.Decimal
import MipPump.Random.Generator
import MipPump.Settings
import MipPump.Table
import MipPump.Domain.Scope
import MipPump.Propagation.Queue
import MipPump.Nested
import MipPump.Rounding.Propagated
import MipPump.Rounding.Randomized
import MipPump.Distance
import MipPump.Projection
import MipPump.Perturbation
import MipPump.Oracle.Vertices
import MipPump.Pump.Text
import MipPump.Pool
import MipPump.Main
import MipPump.Oracle.Relaxation
import MipPump.Proofs.Actions
import MipPump.Proofs.Scopes
import MipPump.Proofs.Lockstep
import MipPump.Proofs.RestingBounds
import MipPump.Proofs.Ledger
import MipPump.Proofs.Sightings
import MipPump.Proofs.Transitions
import MipPump.Proofs.Moves
import MipPump.Proofs.TraceShape
import MipPump.Proofs.Launches
import MipPump.Proofs.Laps
import MipPump.Proofs.CycleWindows
import MipPump.Proofs.ExactNumbers
import MipPump.Proofs.Feasibility
import MipPump.Proofs.SoundSuccess
import MipPump.Proofs.Escalations
import MipPump.Proofs.EpochWeights
import MipPump.Proofs.Mirrors
import MipPump.Proofs.Relaxations
import MipPump.Proofs.Cells
import MipPump.Proofs.ProjectionOptima
import MipPump.Proofs.WholePoints
import MipPump.Proofs.SoundRows
import MipPump.Proofs.SoundPropagation
import MipPump.Proofs.PropagatedRounding
import MipPump.Proofs.WholeTargets
import MipPump.Proofs.Convergence
import MipPump.Proofs.LinearPrograms
import MipPump.Proofs.AuxiliaryColumns
import MipPump.Proofs.ProgramCosts
import MipPump.Proofs.KeptRelaxations
import MipPump.Proofs.Incumbents
import MipPump.Proofs.Pools
import MipPump.Proofs.SharedStores
import MipPump.Proofs.Twins
import MipPump.Proofs.SharedRuns
import MipPump.Proofs.CoherentProblems
import MipPump.Proofs.Rankings
import MipPump.Proofs.Perturbations
import MipPump.Proofs.QueueWork
import MipPump.Proofs.VariableFixing
import MipPump.Proofs.BoundedPropagation
import MipPump.Proofs.Candidates
import MipPump.Proofs.GuardedRounding
import MipPump.Proofs.SaneRuns
import MipPump.Proofs.CheckedTargets
import MipPump.Proofs.SolveLogs
import MipPump.Proofs.SeedFreedom
import MipPump.Proofs.ScopeScripts
import MipPump.Proofs.FixedVariables
import MipPump.Proofs.KeptSolutions
import MipPump.Proofs.VisitedRows
import MipPump.Proofs.OpenBoxes
import MipPump.Proofs.DecidedRows
import MipPump.Proofs.Cancellations
import MipPump.Proofs.RoundedSolutions
import MipPump.Proofs.BlendedDistances
import MipPump.Proofs.ReportedChanges
import MipPump.Proofs.BoundsInStep
import MipPump.Proofs.RowlessRounding
import MipPump.Proofs.StartingDomains
import MipPump.Proofs.MovedEntries
import MipPump.Proofs.DrawnNumbers
import MipPump.Proofs.ValidPerturbations
import MipPump.Proofs.ChangedCandidates
import MipPump.Proofs.NearestIntegers
import MipPump.Proofs.ProjectionBoxes
import MipPump.Proofs.RoundingByDraws
import MipPump.Proofs.RowlessAgreement
import MipPump.Proofs.Tallies
import MipPump.Proofs.LockCounts
import MipPump.Proofs.NumberOrders
import MipPump.Proofs.SortedRankings
import MipPump.Proofs.RankingDominance
import MipPump.Proofs.MeasuredDistances
import MipPump.Proofs.VisitWindows
import MipPump.Proofs.RunVisits
import MipPump.Proofs.FloatParts
import MipPump.Proofs.CandidateKeys
import MipPump.Proofs.NumericSuccess
import MipPump.Proofs.AdmittedSettings
import MipPump.Proofs.RepresentedInstances
import MipPump.Proofs.ListingOrders
import MipPump.Proofs.StatedObjectives
import MipPump.Proofs.DrainedQueues
