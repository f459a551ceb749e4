import NeuralKV.Cluster.ConfigLoad
import NeuralKV.Concurrency.ThreadPool
import NeuralKV.Net.Backpressure
import NeuralKV.Net.EpollServer
import NeuralKV.Net.RoundTrip
import NeuralKV.Persistence.BurstErrors
import NeuralKV.Persistence.Durability
import NeuralKV.Persistence.DurableOrder
import NeuralKV.Persistence.GroupCommit
import NeuralKV.Persistence.ReadFaults
import NeuralKV.Persistence.WritePath
import NeuralKV.Raft.Acknowledge
import NeuralKV.Raft.Availability
import NeuralKV.Raft.CatchUp
import NeuralKV.Raft.CommitRule
import NeuralKV.Raft.Partition
import NeuralKV.Raft.Progress
import NeuralKV.Raft.Proposals
import NeuralKV.Raft.Reads
import NeuralKV.Raft.Rejections
import NeuralKV.Raft.StateMachine
import NeuralKV.Raft.Terms
import NeuralKV.Raft.Timers
import NeuralKV.Raft.VoteFile
import NeuralKV.Raft.Voting
import NeuralKV.Raft.WriteOrder
import NeuralKV.Server.AcceptLoop
import NeuralKV.Server.Answers
import NeuralKV.Server.Modes
import NeuralKV.Server.Rpc
import NeuralKV.Storage.PlainMap
import NeuralKV.Testing.LinearizabilityChecker
