import Tyr.Lib.Fold
import Tyr.Lib.LexFirst
import Tyr.Lib.WeightedPath
import Tyr.Common.FloatTolerance
import Tyr.Common.Number
import Tyr.Formalism.FunctionExpression
import Tyr.Datalog.KpkcGraph
import Tyr.Datalog.NewCliques
import Tyr.Datalog.AssignmentSets
import Tyr.Datalog.ApplicabilityCheck
import Tyr.Planning.RelaxedPlan
import Tyr.Planning.MetricAccumulation
import Tyr.Planning.SearchSpace
import Tyr.Planning.AstarOptimal
import Tyr.Datalog.RuleGraph
import Tyr.Datalog.RuleMatching
import Tyr.Datalog.BottomUp
import Tyr.Datalog.PerfectModel
import Tyr.Datalog.RuleProcessing
import Tyr.Datalog.BottomUpInvariant
import Tyr.Datalog.BodyCosts
import Tyr.Datalog.BottomUpCosts
import Tyr.Datalog.BottomUpCorrect
import Tyr.Datalog.LeastCosts
import Tyr.Formalism.Unification.Substitution
import Tyr.Graphs.BronKerbosch
import Tyr.Planning.Abstractions.ExplicitProjection
import Tyr.Planning.Heuristics.Canonical
import Tyr.Formalism.Unification.Matching
import Tyr.Planning.Abstractions.TaskProjection
import Tyr.Planning.Abstractions.ProjectionGenerator
import Tyr.Common.Canonicalization
import Tyr.Common.NumberAlgebra
import Tyr.Formalism.Canonicalization
import Tyr.Formalism.Planning.CanonicalGrounding
import Tyr.Common.Bit
import Tyr.Datalog.NumericIntervals
import Tyr.Lib.Interning
import Tyr.Planning.StateRepository
import Tyr.Planning.HashSetStorage
import Tyr.Formalism.ExpressionEquality
import Tyr.Lib.Categories
import Tyr.Planning.MatchTree
import Tyr.Planning.MatchTreeExact
import Tyr.Formalism.Planning.LiftedTask
import Tyr.Lib.StratifiedModel
import Tyr.Formalism.Evaluation
import Tyr.Planning.Evaluation
import Tyr.Planning.EffectFamilies
import Tyr.Planning.NumericUpdates
import Tyr.Planning.ApplyAction
import Tyr.Formalism.Planning.Mutexes
import Tyr.Planning.MutexGroups
import Tyr.Planning.GbfsLazy
import Tyr.Planning.GbfsLazyComplete
import Tyr.Datalog.IntervalSoundness
import Tyr.Planning.LiftedSemantics
import Tyr.Analysis.VariableDomains
import Tyr.Analysis.VariableDomainsSound
import Tyr.Datalog.MachineCosts
import Tyr.Datalog.Termination
import Tyr.Planning.Programs.Rpg
import Tyr.Planning.Programs.Ground
import Tyr.Planning.Heuristics.RpgMax
import Tyr.Datalog.FunctionFactSet
import Tyr.Datalog.CostRange
import Tyr.Datalog.PendingBindings
import Tyr.Datalog.AssignmentProjections
import Tyr.Lib.LayeredInterning
import Tyr.Formalism.Repository
import Tyr.Formalism.Planning.FDRContext
import Tyr.Formalism.Planning.Constraints
import Tyr.Analysis.Stratification
import Tyr.Datalog.MirroredBuckets
import Tyr.Common.SegmentedVector
import Tyr.Common.BitPackedArrayPool
import Tyr.Common.BlockArrayPool
import Tyr.Common.BitPackedArraySet
import Tyr.Common.BitsetSpan
import Tyr.Datalog.AdjacencyMatrix
import Tyr.Formalism.Unification.GroundMatch
import Tyr.Formalism.Unification.Resolution
import Tyr.Formalism.Unification.Composition
import Tyr.Formalism.Planning.InvariantMatcher
import Tyr.Formalism.Planning.InvariantRefinement
import Tyr.Lib.Worklist
import Tyr.Formalism.Planning.InvariantSynthesis
import Tyr.Common.SharedObjectPool
import Tyr.Planning.Abstractions.ProjectionMapping
import Tyr.Planning.TaskGrounder
import Tyr.Planning.GroundTaskInstantiation
import Tyr.Lib.DepthFirst
import Tyr.Datalog.Witnesses
import Tyr.Planning.Heuristics.RpgFF
import Tyr.Lib.StableModel
import Tyr.Planning.GroundAxiomEvaluator
import Tyr.Planning.GroundSuccessors
import Tyr.Datalog.StableModel
import Tyr.Formalism.Definedness
import Tyr.Planning.Programs.Translation
import Tyr.Planning.Programs.Axiom
import Tyr.Datalog.BottomUpEnds
import Tyr.Planning.Programs.Action
import Tyr.Datalog.GrowingCliques
import Tyr.Datalog.NewBindings
import Tyr.Datalog.KpkcEvaluation
import Tyr.Datalog.SettledEstimates
import Tyr.Planning.MergedInstances
import Tyr.Datalog.SolvedCosts
import Tyr.Datalog.MachineEnds
import Tyr.Planning.Heuristics.RpgFFHistory
import Tyr.Datalog.FlatPrograms
import Tyr.Planning.LiftedSuccessors
