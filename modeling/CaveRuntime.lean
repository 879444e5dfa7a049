import CaveRuntime.Apiserver.Bookmarks
import CaveRuntime.Apiserver.RbacHistory
import CaveRuntime.Apiserver.ServerSideApply
import CaveRuntime.Apiserver.WatchList
import CaveRuntime.Cache.BitRange
import CaveRuntime.Cache.Glob
import CaveRuntime.Cache.HashSlot
import CaveRuntime.Cache.Psync
import CaveRuntime.Cache.RespReader
import CaveRuntime.Cache.StreamIds
import CaveRuntime.ControllerManager.Cascade
import CaveRuntime.ControllerManager.Cidr
import CaveRuntime.ControllerManager.Rolling
import CaveRuntime.Crossplane.Dependency
import CaveRuntime.Etcd.Election
import CaveRuntime.Etcd.Guards
import CaveRuntime.Etcd.Intervals
import CaveRuntime.Etcd.JointChange
import CaveRuntime.Etcd.JointQuorum
import CaveRuntime.Etcd.MultiLock
import CaveRuntime.Etcd.RangeAccess
import CaveRuntime.Etcd.Restore
import CaveRuntime.Etcd.SnapshotWire
import CaveRuntime.Etcd.WalIndex
import CaveRuntime.Etcd.Watch
import CaveRuntime.Ha.LogContract
import CaveRuntime.Ha.Reassembly
import CaveRuntime.Kernel.LengthPrefix
import CaveRuntime.Metrics.LabelIndex
import CaveRuntime.Net.Maglev
import CaveRuntime.Net.Policy
import CaveRuntime.Net.Snat
import CaveRuntime.RaftCore.Durability
import CaveRuntime.RaftCore.Election
import CaveRuntime.RaftCore.Repair
import CaveRuntime.RaftCore.Replay
import CaveRuntime.RaftCore.Safety
import CaveRuntime.Registry.Tags
import CaveRuntime.Registry.Uploads
import CaveRuntime.Scheduler.Cache
import CaveRuntime.Scheduler.PreemptSmallest
import CaveRuntime.Scheduler.Topology
import CaveRuntime.Streams.IdempotentProducer
import CaveRuntime.Streams.KafkaDecode
import CaveRuntime.Streams.LogCompaction
import CaveRuntime.Streams.ManagedLedger
import CaveRuntime.Streams.MetadataLog
import CaveRuntime.Streams.Transactions
import CaveRuntime.Vault.Kv2Deletion
import CaveRuntime.Vault.Patterns
import CaveRuntime.Vault.Sharing
import CaveRuntime.Vault.TokenLife
import CaveRuntime.Vault.Unsealing
