import DsDns.Text.Basic
import DsDns.Text.Equiv.Basic
import DsDns.DataPlane.Ipv4
import DsDns.DataPlane.Shard
import DsDns.DataPlane.State
import DsDns.DataPlane.Node
import DsDns.DataPlane.Raft
import DsDns.DataPlane.Reader
import DsDns.DataPlane.Writer
import DsDns.DataPlane.Equiv.Writer
import DsDns.Cluster.Equiv.Replicas
import DsDns.DataPlane.Equiv.Server
import DsDns.DataPlane.Equiv.Raft
import DsDns.Transition
import DsDns.DataPlane.Election
import DsDns.DataPlane.Equiv.Election
import DsDns.DataPlane.Equiv.Reader
import DsDns.DataPlane.Equiv.Commit
import DsDns.DataPlane.Equiv.Lifetime
import DsDns.Cluster.World
import DsDns.ReplicatedLog
import DsDns.Cluster.Equiv.World
import DsDns.Cluster.Equiv.LogMatching
import DsDns.Cluster.Equiv.Quorum
import DsDns.BalancedPartition
import DsDns.DataPlane.Equiv.Shard
import DsDns.DataPlane.Equiv.Beat
import DsDns.Cluster.Membership
import DsDns.DataPlane.Equiv.Membership
import DsDns.Cluster.Equiv.Membership
import DsDns.Interaction
import DsDns.Caches.Lru
import DsDns.Caches.Server
import DsDns.ControlPlane.DnsRequestParser
import DsDns.ControlPlane.CacheClient
import DsDns.ControlPlane.Equiv.DnsRequestParser
import DsDns.Caches.Equiv.Server
import DsDns.ControlPlane.Equiv.CacheClient
import DsDns.ControlPlane.Equiv.Injection
import DsDns.ControlPlane.Calls
import DsDns.ControlPlane.Equiv.Calls
import DsDns.DataPlane.Equiv.Step
import DsDns.Cluster.Equiv.Life
import DsDns.Cluster.Equiv.Election
import DsDns.Cluster.Life
import DsDns.Cluster.Quorum
import DsDns.Cluster.Replicas
import DsDns.DataPlane.Equiv.State
import DsDns.DataPlane.Lifetime
import DsDns.DataPlane.Server
import DsDns.KeyedStore
import DsDns.OrderedDict
import DsDns.Cluster.Equiv.Reads
import DsDns.Cluster.Reads
import DsDns.DataPlane.Equiv.Counters
import DsDns.DataPlane.Equiv.Interleaving
import DsDns.DataPlane.Interleaving
import DsDns.DataPlane.Equiv.Resolution
import DsDns.DataPlane.Equiv.ReadYourWrites
import DsDns.DataPlane.Equiv.Alike
import DsDns.Caches.Equiv.Leases
import DsDns.Caches.Leases
import DsDns.History
import DsDns.ControlPlane.Stage
import DsDns.ControlPlane.Equiv.Stage
import DsDns.ControlPlane.Leasing
import DsDns.ControlPlane.Equiv.Leasing
import DsDns.ControlPlane.Equiv.Staleness
import DsDns.Caches.Accesses
import DsDns.Caches.Equiv.Lru
import DsDns.Recency
import DsDns.ControlPlane.RateLimiter
import DsDns.SlidingWindow
import DsDns.ControlPlane.Equiv.RateLimiter
import DsDns.ControlPlane.Equiv.QueryName
import DsDns.DnsMessage
import DsDns.ControlPlane.DnsResponseBuilder
import DsDns.ControlPlane.Equiv.DnsResponseBuilder
import DsDns.ControlPlane.AclManager
import DsDns.ControlPlane.DnsServer
import DsDns.ControlPlane.Equiv.DnsServer
import DsDns.DataPlane.Equiv.Replication
import DsDns.DataPlane.Equiv.Ownership
import DsDns.DataPlane.Equiv.Discovery
import DsDns.DataPlane.Equiv.Rejection
import DsDns.DataPlane.Equiv.Publication
import DsDns.Caches.Equiv.RoundTrip
import DsDns.ControlPlane.Equiv.NameText
import DsDns.ControlPlane.Equiv.Silence
import DsDns.KeyedRows
import DsDns.DataPlane.Equiv.CommitOrder
import DsDns.DataPlane.Batch
import DsDns.DataPlane.Equiv.Batch
import DsDns.Records.Equiv.Parse
import DsDns.Records.Parse
import DsDns.BatchedScan
import DsDns.Records.Equiv.Journal
import DsDns.Records.Equiv.Import
import DsDns.ControlPlane.Indexed
import DsDns.WhileLoop
import DsDns.ControlPlane.Equiv.Indexed
import DsDns.ControlPlane.Equiv.Process
import DsDns.ControlPlane.Process
import DsDns.DataPlane.Equiv.StatesFile
import DsDns.DataPlane.StatesFile
import DsDns.Json.Basic
import DsDns.Json.Equiv.RoundTrip
import DsDns.Cluster.Equiv.Acks
import DsDns.Cluster.Equiv.Origin
import DsDns.DataPlane.Equiv.Suspicion
import DsDns.ControlPlane.Equiv.Bill
import DsDns.ControlPlane.Equiv.Requests
import DsDns.ControlPlane.Requests
import DsDns.CriticalSection
import DsDns.DataPlane.Committing
import DsDns.DataPlane.Equiv.Committing
import DsDns.CellMap
import DsDns.Cluster.Equiv.Answers
import DsDns.ControlPlane.Equiv.SharedLimiter
import DsDns.ControlPlane.SharedLimiter
import DsDns.DataPlane.Bootstrap
import DsDns.DataPlane.Equiv.Bootstrap
import DsDns.Cluster.Equiv.Stability
import DsDns.Cluster.Stability
import DsDns.Watchdog
import DsDns.Records.Equiv.Served
import DsDns.Records.Equiv.Sourced
import DsDns.ListFacts
import DsDns.Cluster.Equiv.Volumes
import DsDns.Cluster.Volumes
import DsDns.DataPlane.Equiv.Address
import DsDns.DataPlane.Message
