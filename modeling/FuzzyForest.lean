import FuzzyForest.CommandLine
import FuzzyForest.Main
import FuzzyForest.Population.Probe
import FuzzyForest.Proofs.AgreeingSpecies
import FuzzyForest.Proofs.ArisingForests
import FuzzyForest.Proofs.BlindSpecies
import FuzzyForest.Proofs.Boundaries
import FuzzyForest.Proofs.CacheCoherence
import FuzzyForest.Proofs.ChosenDraws
import FuzzyForest.Proofs.Chronicle
import FuzzyForest.Proofs.ClosedRun
import FuzzyForest.Proofs.ClosedSpecies
import FuzzyForest.Proofs.ComputedWinner
import FuzzyForest.Proofs.Conservation
import FuzzyForest.Proofs.Crossing
import FuzzyForest.Proofs.Denotation
import FuzzyForest.Proofs.Depth
import FuzzyForest.Proofs.DistinctParents
import FuzzyForest.Proofs.DotTexts
import FuzzyForest.Proofs.Drawing
import FuzzyForest.Proofs.Dumps
import FuzzyForest.Proofs.ErasedRow
import FuzzyForest.Proofs.ExactArithmetic
import FuzzyForest.Proofs.Exchange
import FuzzyForest.Proofs.FailedStep
import FuzzyForest.Proofs.FirstRows
import FuzzyForest.Proofs.FitnessOrder
import FuzzyForest.Proofs.FuzzyRun
import FuzzyForest.Proofs.GroundedTrees
import FuzzyForest.Proofs.Growth
import FuzzyForest.Proofs.HeldSettings
import FuzzyForest.Proofs.InPlaceMutation
import FuzzyForest.Proofs.InputColumns
import FuzzyForest.Proofs.JsonTexts
import FuzzyForest.Proofs.KeptAggregates
import FuzzyForest.Proofs.LaggedEstimates
import FuzzyForest.Proofs.LeftOutRow
import FuzzyForest.Proofs.Lineage
import FuzzyForest.Proofs.MutationPass
import FuzzyForest.Proofs.NestedSpans
import FuzzyForest.Proofs.Order
import FuzzyForest.Proofs.Placeholders
import FuzzyForest.Proofs.PopulationOrder
import FuzzyForest.Proofs.ProportionalWheel
import FuzzyForest.Proofs.RandomGrowth
import FuzzyForest.Proofs.Ranking
import FuzzyForest.Proofs.ReadBack
import FuzzyForest.Proofs.Restrictions
import FuzzyForest.Proofs.Rows
import FuzzyForest.Proofs.RunsAlike
import FuzzyForest.Proofs.ShownForests
import FuzzyForest.Proofs.SortedInsertion
import FuzzyForest.Proofs.SoundEvaluation
import FuzzyForest.Proofs.Span
import FuzzyForest.Proofs.StaticCheck
import FuzzyForest.Proofs.Subtree
import FuzzyForest.Proofs.Succession
import FuzzyForest.Proofs.TokenGrammar
import FuzzyForest.Proofs.Tokens
import FuzzyForest.Proofs.TreeBoundaries
import FuzzyForest.Proofs.TreeExecution
import FuzzyForest.Proofs.Triple
import FuzzyForest.Proofs.UnbeatenWinner
import FuzzyForest.Proofs.UniqueLeader
import FuzzyForest.Proofs.UnitDraw
import FuzzyForest.Proofs.UnitInterval
import FuzzyForest.Proofs.Visits
import FuzzyForest.Proofs.WeightLens
import FuzzyForest.Random.SplitMix
