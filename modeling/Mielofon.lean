import Mielofon.Lib.Runs
import Mielofon.Lib.Map
import Mielofon.Lib.Keyed
import Mielofon.Lib.Newest
import Mielofon.Lib.Flat
import Mielofon.Lib.Last
import Mielofon.Lib.LastWriter
import Mielofon.Proto
import Mielofon.Kv
import Mielofon.Gossip.Cluster
import Mielofon.Gossip.Expiry
import Mielofon.Gossip.Convergence
import Mielofon.Gossip.SingleWriter
import Mielofon.Tsdb.Sample
import Mielofon.Tsdb.Bucket
import Mielofon.Tsdb.Ring
import Mielofon.Tsdb.Store
import Mielofon.Tsdb.Batch
import Mielofon.Tsdb.Redelivery
import Mielofon.Tsdb.Concurrent
import Mielofon.Tsdb.Watermark
import Mielofon.Tsdb.Counting
import Mielofon.Tsdb.Linearise
import Mielofon.Worker
import Mielofon.Fence
import Mielofon.Session.Controller
import Mielofon.Session.Registration
import Mielofon.Session.InFlight
import Mielofon.Session.Lease
import Mielofon.Session.Apply
import Mielofon.Tsdb.Window
import Mielofon.Tsdb.MarkBlocks
import Mielofon.Classifier.Quality
import Mielofon.Classifier.Mark
import Mielofon.Classifier.Pass
import Mielofon.Lib.Folds
import Mielofon.Classifier.Hysteresis
import Mielofon.Classifier.Totals
import Mielofon.Agent.Node
import Mielofon.Agent.Cost
import Mielofon.Agent.Blocks
import Mielofon.Agent.Marker
import Mielofon.Agent.Marking
import Mielofon.Session.Throughput
import Mielofon.Tsdb.Database
import Mielofon.Tsdb.History
import Mielofon.Tsdb.Restore
import Mielofon.Tsdb.Durable
import Mielofon.Lib.Generated
import Mielofon.Gossip.Samples
import Mielofon.Gossip.Quiesce
import Mielofon.Lib.Stream
import Mielofon.Transport.Frame
import Mielofon.Session.Directory
import Mielofon.Session.Reply
import Mielofon.Agent.Reads
import Mielofon.Classifier.Symmetric
import Mielofon.Lib.Spaced
import Mielofon.Tsdb.Retention
import Mielofon.Lib.Bfs
import Mielofon.Trace.Walk
import Mielofon.Classifier.LossWindow
import Mielofon.Json
import Mielofon.Agent.Discover
import Mielofon.Agent.Remember
import Mielofon.Agent.Runtime
import Mielofon.Exclusion
import Mielofon.Classifier.Pairing
import Mielofon.Classifier.Severity
import Mielofon.Classifier.Join
import Mielofon.Tsdb.Meaning
import Mielofon.Tsdb.Reference
import Mielofon.Tsdb.ReplaySafe
import Mielofon.Tsdb.RollUp
import Mielofon.Session.Scheduler
import Mielofon.Trace.Complete
import Mielofon.Gossip.Exchange
import Mielofon.Agent.Gate
import Mielofon.Tsdb.Expired
import Mielofon.Text
import Mielofon.Lib.Path
import Mielofon.Assets
import Mielofon.Lib.IpAddr
import Mielofon.Transport.Endpoint
import Mielofon.Session.LinkIds
import Mielofon.Session.Names
import Mielofon.Session.Rename
import Mielofon.Lib.Checked
import Mielofon.Classifier.Checked
import Mielofon.Lib.Bounded
import Mielofon.Agent.Window
import Mielofon.Lib.Doc
import Mielofon.Agent.Throughput
import Mielofon.Agent.Probing
import Mielofon.Agent.Exclusive
import Mielofon.Agent.Prober
import Mielofon.Agent.Pinging
import Mielofon.Agent.Undisturbed
import Mielofon.Lib.Record
import Mielofon.Lib.Btree
import Mielofon.Wire
import Mielofon.Gossip.Messages
import Mielofon.Transport.Request
import Mielofon.Lib.Detour
import Mielofon.Gossip.Costs
import Mielofon.Lib.Lexer
import Mielofon.Agent.Script
import Mielofon.Lib.Exposition
import Mielofon.Metrics
import Mielofon.Agent.Dialing
import Mielofon.Lib.Glob
import Mielofon.Agent.Glob
import Mielofon.Gossip.Fabric
import Mielofon.Lib.Owned
import Mielofon.Lib.Tally
import Mielofon.Agent.Executor
