import ProbCore.Decimal.Places
import ProbCore.Decimal.Reading
import ProbCore.Value.Equality
import ProbCore.Value.Literal
import ProbCore.Store
import ProbCore.Notice
import ProbCore.Value.Key
import ProbCore.Data.Reader
import ProbCore.Score.Weights
import ProbCore.Score.Resampling
import ProbCore.Random.Selection
import ProbCore.Random.Draws
import ProbCore.Special.LogGamma
import ProbCore.Value.Arithmetic
import ProbCore.Dist.Draw
import ProbCore.Marginal.Queries
import ProbCore.Strategy.Enumeration
import ProbCore.Strategy.Rejection
import ProbCore.Strategy.Chain
import ProbCore.Strategy.OpeningChain
import ProbCore.Strategy.Cascade
import ProbCore.Program.World
import ProbCore.Program.Eval
import ProbCore.Program.Machine
import ProbCore.Data.File
import ProbCore.Logging
import ProbCore.Instance.Estimates
import ProbCore.Program.Workbench
import ProbCore.Proofs.AcceptedSettings
import ProbCore.Proofs.LawfulHost
import ProbCore.Proofs.PlainProgram
import ProbCore.Proofs.ExecutionTree
import ProbCore.Proofs.FrontierContents
import ProbCore.Proofs.ExhaustiveSearch
import ProbCore.Proofs.ExactScore
import ProbCore.Proofs.NumberIdentity
import ProbCore.Proofs.ValueIdentity
import ProbCore.Proofs.MarginalMass
import ProbCore.Proofs.ExhaustiveMarginal
import ProbCore.Proofs.KernelRecording
import ProbCore.Proofs.ProgramRun
import ProbCore.Proofs.KernelRuns
import ProbCore.Proofs.Proposal
import ProbCore.Proofs.Rerun
import ProbCore.Proofs.TraceReplay
import ProbCore.Proofs.Recurrence
import ProbCore.Proofs.ChainState
import ProbCore.Proofs.Reversibility
import ProbCore.Proofs.ProposalSymmetry
import ProbCore.Proofs.PlainMachine
import ProbCore.Proofs.Yields
import ProbCore.Proofs.KernelOutcomes
import ProbCore.Proofs.Executions
import ProbCore.Proofs.StrategyValues
import ProbCore.Proofs.CarefulScript
import ProbCore.Proofs.Lockstep
import ProbCore.Proofs.ScoreLaws
import ProbCore.Proofs.ImpossibleEvidence
import ProbCore.Proofs.SampledValues
import ProbCore.Proofs.Expectation
import ProbCore.Proofs.SelectionMeans
import ProbCore.Proofs.Prospects
import ProbCore.Proofs.EvidenceMean
import ProbCore.Proofs.Mirroring
import ProbCore.Proofs.Relabelling
import ProbCore.Proofs.Tracking
import ProbCore.Proofs.StrategyTracking
import ProbCore.Proofs.MachineMoves
import ProbCore.Proofs.Watching
import ProbCore.Proofs.WatchedRuns
import ProbCore.Proofs.StackDiscipline
import ProbCore.Proofs.KeyTree
import ProbCore.Proofs.Placement
import ProbCore.Proofs.Relocation
import ProbCore.Proofs.RelocatedMoves
import ProbCore.Proofs.LocationIndependence
import ProbCore.Proofs.Continuation
import ProbCore.Proofs.Traversal
import ProbCore.Proofs.Conclusions
import ProbCore.Proofs.FiniteExecutions
import ProbCore.Proofs.EndlessDraws
import ProbCore.Proofs.Halting
import ProbCore.Proofs.CascadeSchedule
import ProbCore.Proofs.FilterRounds
import ProbCore.Proofs.StraightPrograms
import ProbCore.Proofs.StraightFilter
import ProbCore.Proofs.StraightStrategies
import ProbCore.Proofs.StraightPopulations
import ProbCore.Proofs.Agreement
import ProbCore.Proofs.SharedStrategies
import ProbCore.Proofs.GuardedRuns
import ProbCore.Proofs.Remembered
import ProbCore.Proofs.KeptTables
import ProbCore.Proofs.RememberedMoves
import ProbCore.Proofs.Memoization
import ProbCore.Proofs.SharedRecords
import ProbCore.Proofs.Chronicle
import ProbCore.Proofs.MinibatchRecord
import ProbCore.Proofs.ParameterRegistry
import ProbCore.Proofs.Telling
import ProbCore.Proofs.HandedBounces
import ProbCore.Proofs.Bounces
import ProbCore.Proofs.BounceTransparency
import ProbCore.Proofs.ExitDiscipline
import ProbCore.Proofs.OrderlyStrategies
import ProbCore.Proofs.PromptRefusal
import ProbCore.Proofs.AcceptedValues
import ProbCore.Proofs.Course
import ProbCore.Proofs.Redrawing
import ProbCore.Proofs.RatioAccounting
import ProbCore.Proofs.ScoreBounds
import ProbCore.Proofs.ReuseRule
import ProbCore.Proofs.ChainClosure
import ProbCore.Proofs.BoundedSearch
import ProbCore.Proofs.ExplorationOrder
import ProbCore.Proofs.CascadeBranching
import ProbCore.Proofs.ScoreOrder
import ProbCore.Proofs.RoundedSums
import ProbCore.Proofs.RejectionModes
import ProbCore.Proofs.HeapOrder
import ProbCore.Proofs.BestFirst
import ProbCore.Proofs.Chances
import ProbCore.Proofs.MassConservation
import ProbCore.Proofs.EvenSpacing
import ProbCore.Proofs.Likelihood
import ProbCore.Proofs.SingleParticle
import ProbCore.Proofs.OpeningStates
import ProbCore.Proofs.FirstFactor
import ProbCore.Proofs.OpeningRatio
import ProbCore.Proofs.EffectiveSize
import ProbCore.Proofs.GroupedMarginal
import ProbCore.Proofs.NoisySelection
import ProbCore.Proofs.GroupingKeys
import ProbCore.Proofs.SerializedData
import ProbCore.Proofs.RecentUse
import ProbCore.Proofs.SharedLabels
import ProbCore.Proofs.StandingTables
import ProbCore.Proofs.LateResults
import ProbCore.Proofs.Proportions
import ProbCore.Proofs.RecordingSchedule
import ProbCore.Proofs.NearestDouble
import ProbCore.Proofs.ReadNotation
import ProbCore.Proofs.DataFiles
import ProbCore.Proofs.OperandDomains
import ProbCore.Proofs.InstanceFields
import ProbCore.Proofs.InstanceEstimates
import ProbCore.Proofs.PlainRuns
import ProbCore.Proofs.EarlierCalls
import ProbCore.Proofs.ArrivalMeans
