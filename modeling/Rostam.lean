import Rostam.Cache.Proofs.Capacity
import Rostam.Cache.Proofs.Crash
import Rostam.Cluster.Proofs.LinearRead
import Rostam.Cluster.Proofs.Merge
import Rostam.Cluster.Proofs.Migrate
import Rostam.Cluster.Proofs.ReadIndex
import Rostam.Cluster.Proofs.Readmit
import Rostam.Direct.Proofs.Atomic
import Rostam.Pbisr.Proofs.GroupAck
import Rostam.Record.Proofs.Grammar
import Rostam.Shard.Proofs.Apply
import Rostam.Shard.Proofs.Coalesce
import Rostam.Shard.Proofs.Poison
import Rostam.Shard.Proofs.Snapshot
import Rostam.Shard.Proofs.Staging
import Rostam.Vector.Proofs.Payload
import Rostam.Vector.Proofs.Replicas
import Rostam.Wire.Proofs.Math
import Rostam.Wire.Proofs.Operate
