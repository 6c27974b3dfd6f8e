import Moqx.Lib.NatIntervals
import Moqx.Lib.Maps
import Moqx.Moxygen
import Moqx.Moxygen.Ranked
import Moqx.Cache.Types
import Moqx.Cache.Object
import Moqx.Cache.Ranges
import Moqx.Cache.Iterator
import Moqx.Cache.Coverage
import Moqx.Cache.Evict
import Moqx.Cache.Subscribe
import Moqx.Cache.FetchWriteback
import Moqx.Cache.FetchImpl
import Moqx.World
import Moqx.Cache.Acts
import Moqx.Cache.Traces
import Moqx.Cache.WriterTraces
import Moqx.WorldTraces
import Moqx.Wellformed
import Moqx.Marked
import Moqx.Owners
import Moqx.Whole
import Moqx.DeliveryShape
import Moqx.Reachable
import Moqx.Bytes
import Moqx.Keys
import Moqx.Registration
import Moqx.Lru
import Moqx.Holders
import Moqx.Rejected
import Moqx.Accepted
import Moqx.TaskSteps
import Moqx.WakeUp
import Moqx.ByteLimit
import Moqx.Tracks
import Moqx.Iterators
import Moqx.Lib.Runs
import Moqx.Lib.OrderedMaps
import Moqx.Lib.Ranks
import Moqx.Relay.PropertyRanking
import Moqx.Relay.Ranked
import Moqx.Relay.Turns
import Moqx.Relay.Replay
import Moqx.Relay.Selection
import Moqx.Relay.Reconciled
import Moqx.Relay.SelfExclusion
import Moqx.Relay.Delivery
import Moqx.Relay.Bounds
import Moqx.Relay.Registry
import Moqx.Relay.Registrations
import Moqx.Relay.Awaiters
import Moqx.Relay.NamespaceTree
import Moqx.Relay.TreeRecords
import Moqx.Relay.TreeOps
import Moqx.Relay.RelayState
import Moqx.Relay.MoqxRelay
import Moqx.Relay.RelaySteps
import Moqx.Relay.RelayWork
import Moqx.Relay.RelayInvariant
import Moqx.Relay.Retired
import Moqx.Relay.Backed
import Moqx.Relay.ActivityTarget
import Moqx.Relay.RankingView
import Moqx.Relay.RelayRankings
import Moqx.Relay.Membership
import Moqx.Relay.RankedTracks
import Moqx.Relay.Succession
import Moqx.Relay.Observers
import Moqx.Relay.CurrentValues
import Moqx.Relay.InStep
import Moqx.Relay.FlatMap
import Moqx.Relay.Prefixes
import Moqx.Relay.TreeCounts
import Moqx.Config.Resolver
import Moqx.Config.ServiceMatcher
import Moqx.Config.Routing
import Moqx.Config.Duplicates
import Moqx.Lab.Links
import Moqx.Wire.Cursor
import Moqx.Sbd.ReceiveIntervals
import Moqx.Sbd.Buckets
import Moqx.Sbd.FeedbackLoss
import Moqx.Sbd.LossLedger
import Moqx.Sbd.WeiDetector
import Moqx.Sbd.WeiGroups
import Moqx.Sbd.WeiObservations
import Moqx.Sbd.WeiCompletion
import Moqx.Sbd.WeiRuns
import Moqx.CrossExec.Lifetime
import Moqx.CrossExec.Filters
import Moqx.CrossExec.References
import Moqx.CrossExec.Delivery
import Moqx.Upstream.UpstreamProvider
import Moqx.Upstream.Connection
import Moqx.Lifetime
