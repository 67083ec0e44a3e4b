import LabSystems.ViewService.Theorems.Acknowledgement
import LabSystems.ViewService.Theorems.History
import LabSystems.ViewService.Theorems.Timeouts
import LabSystems.ViewService.Theorems.FirstPrimary
import LabSystems.Synod.Agreement
import LabSystems.Network.Call
import LabSystems.Paxos.Theorems.Step
import LabSystems.Paxos.Theorems.Peer
import LabSystems.Paxos.Theorems.Agreement
import LabSystems.Paxos.Theorems.Forgotten
import LabSystems.Paxos.Theorems.Minimum
import LabSystems.Paxos.Theorems.Maximum
import LabSystems.Paxos.Theorems.Crash
import LabSystems.Paxos.Theorems.Numbers
import LabSystems.PBService.Theorems.Invariant
import LabSystems.PBService.Theorems.Server
import LabSystems.PBService.Theorems.Copies
import LabSystems.PBService.Theorems.Deposed
import LabSystems.PBService.Theorems.Pairs
import LabSystems.PBService.Theorems.Backup
import LabSystems.PBService.Theorems.Returns
import LabSystems.PBService.Theorems.LostPings
import LabSystems.PBService.Theorems.Clients
import LabSystems.PBService.Theorems.Duplicates
import LabSystems.PBService.Theorems.Alone
import LabSystems.Ssdb.Theorems.GapFree
import LabSystems.Ssdb.Theorems.Maps
import LabSystems.Ssdb.Theorems.Sizes
import LabSystems.Ssdb.Theorems.Covered
import LabSystems.Ssdb.Theorems.Resumes
import LabSystems.Ssdb.Theorems.Skipped
import LabSystems.Ssdb.Theorems.Packets
import LabSystems.Ssdb.Theorems.Requests
import LabSystems.PBService.Theorems.Records
import LabSystems.MapReduce.Theorems.Barrier
import LabSystems.Nsqd.Theorems.Delivery
import LabSystems.MapReduce.Theorems.Reference
import LabSystems.Ssdb.Theorems.Replies
import LabSystems.Nsqd.Theorems.Codec
import LabSystems.Nsqd.Guid
import LabSystems.Nsqd.Theorems.Guid
import LabSystems.Nsqd.Theorems.Clock
import LabSystems.Nsqd.Protocol
import LabSystems.Nsqd.Theorems.Names
import LabSystems.Ssdb.Theorems.Lookup
import LabSystems.Ssdb.Theorems.Bounds
import LabSystems.Ssdb.Theorems.Stale
import LabSystems.Ssdb.Theorems.Open
import LabSystems.Ssdb.Theorems.Capacity
import LabSystems.Heap.Basic
import LabSystems.Nsqd.InFlightPqueue
import LabSystems.Nsqd.Theorems.Pqueue
import LabSystems.Nsqd.Channel
import LabSystems.Nsqd.Theorems.Refused
import LabSystems.Cipher.Theorems.Rsa
import LabSystems.Redis.Theorems.Sds
import LabSystems.Nsqd.Theorems.Subscribe
import LabSystems.MapReduce.Theorems.Split
import LabSystems.MapReduce.Theorems.KillWorkers
import LabSystems.Linked.Basic
import LabSystems.Linked.Ring
import LabSystems.Algorithm.SkipList
import LabSystems.Algorithm.Theorems.SkipList
import LabSystems.Algorithm.Theorems.SkipListSet
import LabSystems.Paxos.Theorems.Promises
import LabSystems.Posix.Theorems.Read
import LabSystems.Copycat.Theorems.KVStateMachine
import LabSystems.ThreadPool.Basic
import LabSystems.ThreadPool.Theorems.Queue
import LabSystems.ThreadPool.Theorems.Pool
import LabSystems.Ae.TimeEvents
import LabSystems.Ae.Theorems.TimeEvents
import LabSystems.Ae.Theorems.Passes
import LabSystems.RdsParser.Basic
import LabSystems.RdsParser.Theorems.Phases
import LabSystems.RdsParser.Command
import LabSystems.RdsParser.Theorems.Payload
import LabSystems.RdsParser.Theorems.Steps
import LabSystems.RdsParser.Theorems.Runs
import LabSystems.RdsParser.Theorems.Commands
import LabSystems.RdsParser.Theorems.Parses
import LabSystems.Linked.Tree
import LabSystems.Linked.Sides
import LabSystems.Linked.RedBlack
import LabSystems.RbTree.Basic
import LabSystems.RbTree.Theorems.Updates
import LabSystems.RbTree.Theorems.Insertion
import LabSystems.RbTree.Theorems.Removal
import LabSystems.RbTree.Theorems.Deletion
import LabSystems.RbTree.Theorems.Contents
import LabSystems.RbTree.Theorems.Reads
import LabSystems.RbTree.Theorems.Runs
import LabSystems.Ae.TimeTree
import LabSystems.Ae.Theorems.TimeTree
import LabSystems.Algorithm.SearchTree
import LabSystems.Algorithm.Theorems.SearchTree
import LabSystems.Algorithm.Theorems.SearchTreeUpdates
import LabSystems.Algorithm.Theorems.SearchTreeSet
import LabSystems.Algorithm.Theorems.SearchTreeRuns
import LabSystems.Algorithm.BTree
import LabSystems.Linked.Multiway
import LabSystems.Algorithm.Theorems.BTreeSlots
import LabSystems.Algorithm.Theorems.BTreeNodes
import LabSystems.Algorithm.Theorems.BTree
import LabSystems.Algorithm.Theorems.BTreeInsert
import LabSystems.Algorithm.Theorems.BTreeSet
import LabSystems.Bytes.Base32
import LabSystems.Crash.Basic
import LabSystems.Files.Disk
import LabSystems.Diskv.Server
import LabSystems.Diskv.Theorems.Directories
import LabSystems.Diskv.Theorems.Calls
import LabSystems.Diskv.Theorems.Shards
import LabSystems.Diskv.Theorems.Runs
