import ReplicatedMapReduce.LogCodec
import ReplicatedMapReduce.Retention
import ReplicatedMapReduce.SnapshotParsing
import ReplicatedMapReduce.Recovery
import ReplicatedMapReduce.AsyncSnapshot
import ReplicatedMapReduce.CommitIndex
import ReplicatedMapReduce.Results
import ReplicatedMapReduce.Commands
import ReplicatedMapReduce.MapReduceCommand
import ReplicatedMapReduce.KeyIndependence
import ReplicatedMapReduce.Arithmetic
import ReplicatedMapReduce.Removal
import ReplicatedMapReduce.Foundation.Window
import ReplicatedMapReduce.LogStore
import ReplicatedMapReduce.LogReads
import ReplicatedMapReduce.LogPack
import ReplicatedMapReduce.LogRuns
import ReplicatedMapReduce.Cluster
import ReplicatedMapReduce.Foundation.Words
import ReplicatedMapReduce.Listing
import ReplicatedMapReduce.SharedLedger
import ReplicatedMapReduce.Startup
import ReplicatedMapReduce.OwnEntries
import ReplicatedMapReduce.Status
import ReplicatedMapReduce.SlowDisk
import ReplicatedMapReduce.Clients
import ReplicatedMapReduce.EntryCommits
