import Fum.Analysis.Loops
import Fum.Analysis.Rules
import Fum.Base.SwapRemove
import Fum.Base.Rounding
import Fum.Model.World
import Fum.Analysis.Arena
import Fum.Analysis.Lifetime
import Fum.Analysis.Ledger
import Fum.Analysis.Frames
import Fum.Analysis.Accounting
import Fum.Analysis.Disposal
import Fum.Analysis.FieldInvariants
import Fum.Analysis.Objects
import Fum.Analysis.WorldAccounts
import Fum.Analysis.Statements
import Fum.Analysis.Assignments
import Fum.Analysis.Merging
import Fum.Analysis.Programs
import Fum.Analysis.Iteration
import Fum.Analysis.Runs
import Fum.Model.Instances
import Fum.Interface.ArenaInvariant
import Fum.Interface.ResourceBalance
import Fum.Analysis.TableInvariants
import Fum.Interface.CapacityCurrent
import Fum.Analysis.Index
import Fum.Analysis.Lookup
import Fum.Analysis.Consistency
import Fum.Analysis.Insertion
import Fum.Analysis.Emplacement
import Fum.Analysis.Removal
import Fum.Analysis.Resizing
import Fum.Analysis.Keys
import Fum.Analysis.Operations
import Fum.Analysis.Growth
import Fum.Analysis.WellFormedness
import Fum.Base.DenseMap
import Fum.Analysis.Contents
import Fum.Analysis.Absorption
import Fum.Analysis.Reachability
import Fum.Interface.MergeLaw
import Fum.Analysis.Ownership
import Fum.Interface.StorageOwnership
import Fum.Analysis.Handles
import Fum.Interface.HandlePairing
import Fum.Interface.NodeInsertion
import Fum.Analysis.Walks
import Fum.Interface.EraseIf
import Fum.Interface.IteratorStability
import Fum.Interface.RangeErasure
import Fum.Analysis.Histories
import Fum.Interface.OrderIndependence
import Fum.Analysis.LoadFactors
import Fum.Interface.FactorRespected
import Fum.Interface.Reservation
import Fum.Interface.IndexInvariant
import Fum.Interface.HistoryIndependence
import Fum.Interface.BasicGuarantee
import Fum.Interface.StrongGuarantee
import Fum.Base.Words
import Fum.Analysis.Termination
import Fum.Analysis.SpareBuckets
import Fum.Interface.EmptyBucket
import Fum.Model.Observers
import Fum.Analysis.QuietCalls
import Fum.Interface.BucketPartition
import Fum.Interface.ContainerEquality
import Fum.Analysis.Addresses
import Fum.Analysis.Extraction
import Fum.Analysis.Refilling
import Fum.Interface.Copying
import Fum.Interface.Moving
import Fum.Interface.NodeRoundTrip
import Fum.Interface.SwapIterators
import Fum.Interface.TransferredReferences
import Fum.Analysis.Traces
import Fum.Interface.ProbeLoops
import Fum.Analysis.Distances
import Fum.Interface.ProbeDistance
import Fum.Analysis.Transit
import Fum.Analysis.Interruption
import Fum.Interface.FailedTransfer
import Fum.Analysis.Bystanders
import Fum.Analysis.Residence
import Fum.Interface.ElementStability
import Fum.Base.PlainMap
import Fum.Analysis.Representation
import Fum.Interface.MapRefinement
import Fum.Base.Mixing
import Fum.Interface.HashMixing
import Fum.Analysis.SlotNumbers
import Fum.Analysis.PerfectHashing
import Fum.Interface.SlotNumbers
import Fum.Analysis.Thresholds
import Fum.Interface.LoadFactorBound
import Fum.Base.Checked
import Fum.Model.Fuzzing
import Fum.Analysis.MapWorlds
import Fum.Interface.StatementMeaning
import Fum.Interface.ProgramRefinement
import Fum.Interface.MovedFrom
import Fum.Interface.DriverCalls
import Fum.Interface.DriverLoop
import Fum.Interface.MapDriver
import Fum.Interface.SetDriver
import Fum.Base.ShortestWalks
import Fum.Analysis.Searches
import Fum.Interface.ShortestSearches
import Fum.Analysis.GrowthCosts
import Fum.Interface.AmortisedGrowth
import Fum.Analysis.AbandonedCalls
import Fum.Interface.FailingStatements
import Fum.Interface.FailingPrograms
import Fum.Analysis.Footprints
import Fum.Interface.Footprint
