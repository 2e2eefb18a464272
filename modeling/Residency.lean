import Residency.Text.Phrase
import Residency.Text.Numeral
import Residency.Text.Space
import Residency.Text.Letters
import Residency.Text.Printable
import Residency.Text.Quoted
import Residency.Text.Integer
import Residency.Text.Lines
import Residency.Text.File
import Residency.Memory.Kind
import Residency.Memory.PowerOfTwo
import Residency.Memory.Rounding
import Residency.Memory.CacheGeometry
import Residency.Memory.ScratchpadGeometry
import Residency.Flow.NodeId
import Residency.Flow.Graph
import Residency.Flow.Adjacency
import Residency.Flow.Path
import Residency.Flow.Solver
import Residency.Fault
import Residency.Journal
import Residency.Usage
import Residency.Analysis
import Residency.Sorting
import Residency.EntrySet
import Residency.State
import Residency.FunctionTable.Basic
import Residency.FunctionTable.Listing
import Residency.Settings.Options
import Residency.Settings.Basic
import Residency.Policy.LruCache
import Residency.Policy.DirectMapped
import Residency.Policy.Scratchpad
import Residency.Policy.Basic
import Residency.Policy.Selection
import Residency.Verdict
import Residency.Concrete
import Residency.Derivation
import Residency.Precision
import Residency.Proofs.Results
import Residency.Proofs.EntrySets
import Residency.Proofs.Layout
import Residency.Proofs.Ageing
import Residency.Proofs.Derivations
import Residency.Proofs.LruCacheAges
import Residency.Proofs.ScratchpadAges
import Residency.Proofs.Packing
import Residency.Proofs.HitAges
import Residency.Proofs.Wording
import Residency.Proofs.Turns
import Residency.Proofs.Dataflow
import Residency.Proofs.FailedRuns
import Residency.Proofs.Runs
import Residency.Proofs.Judging
import Residency.Proofs.PathVerdicts
import Residency.Proofs.DirectMappedPaths
import Residency.Proofs.ScratchpadFaults
import Residency.Proofs.Faults
import Residency.Proofs.RegularStates
import Residency.Proofs.Representation
import Residency.Proofs.AgeMaps
import Residency.Proofs.Parallel
import Residency.Proofs.Inclusion
import Residency.Proofs.UniformSizes
import Residency.Proofs.ConstructionOrder
import Residency.Proofs.Lines
import Residency.Proofs.ListingLines
import Residency.Proofs.Listings
import Residency.Proofs.OptionLines
import Residency.Proofs.OptionTexts
import Residency.Proofs.ValueTexts
import Residency.Proofs.SettingsTexts
import Residency.Proofs.Silence
import Residency.Proofs.Sessions
import Residency.Proofs.Recency
import Residency.Proofs.SinglePaths
import Residency.Proofs.LeastJoins
import Residency.Proofs.Monotonicity
import Residency.Proofs.Reachability
import Residency.Proofs.OutsizedFunctions
import Residency.Proofs.RepeatedAccesses
import Residency.Proofs.ListingFormats
import Residency.Proofs.CacheLines
import Residency.Proofs.Summaries
import Residency.Proofs.UsageCounts
import Residency.Proofs.RepeatedAddresses
import Residency.Proofs.Granularity
import Residency.Proofs.Adjacency
