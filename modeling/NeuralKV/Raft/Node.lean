import NeuralKV.Cluster.Config
import NeuralKV.Raft.Log

/-!
# One Raft node

Model of `src/raft/node.cpp`, `src/raft/types.h` and the message types of
`src/raft/rpc_codec.h`.  Every function of `RaftNode` that takes `mutex_` is cut at its lock
scopes; each lock scope is one definition here:

* `startElection`, `voteReply`, `finishElection` — the three scopes of `StartElection`;
* `handleRequestVote`, `handleAppendEntries` — the RPC handlers;
* `proposeAppend`, `proposeResult` — the two scopes of `Propose`;
* `replicateRequest`, `replicateReply` — the two scopes of `ReplicateToPeer`;
* `beginConfirm`, `confirmRequest`, `confirmReply` — the scopes of `ConfirmLeadershipQuorum`;
* `restart` — a new process: `DurableStorage::Open` and the `RaftNode` constructor.

Writes to `state.bin` and the WAL succeed here.  Terms and indices are unbounded: a 64-bit
counter that is only incremented does not wrap in any run of fewer than `2^64` steps.  The
election deadline and the heartbeat timer only decide when `RunLoop` calls these functions, and
are left out: here they may be called at any time.
-/

set_option autoImplicit false

namespace NeuralKV

inductive RaftState where
  | kFollower
  | kCandidate
  | kLeader
  deriving DecidableEq, Repr

/-- `PersistentState`, the contents of `state.bin`. -/
structure PersistentState where
  currentTerm : Nat := 0
  votedFor : NodeId := 0
  deriving DecidableEq, Repr

structure RequestVoteRequest where
  term : Nat
  candidateId : NodeId
  lastLogIndex : Nat
  lastLogTerm : Nat
  deriving DecidableEq, Repr

structure RequestVoteResponse where
  term : Nat
  voteGranted : Bool
  deriving DecidableEq, Repr

structure AppendEntriesRequest where
  term : Nat
  leaderId : NodeId
  prevLogIndex : Nat
  prevLogTerm : Nat
  leaderCommit : Nat
  entries : List LogEntry
  deriving DecidableEq, Repr

structure AppendEntriesResponse where
  term : Nat
  success : Bool
  deriving DecidableEq, Repr

/-! ## Maps keyed by peer id -/

/-- `std::unordered_map<uint32_t, uint64_t>`; the order of the pairs is never observed. -/
abbrev PeerMap := List (NodeId × Nat)

namespace PeerMap

/-- `map[id]` as a value; an absent key reads as `0`. -/
def valueAt (m : PeerMap) (id : NodeId) : Nat := ((m.find? (fun p => p.1 == id)).map (·.2)).getD 0

/-- `map[id] = v`. -/
def put (id : NodeId) (v : Nat) : PeerMap → PeerMap
  | [] => [(id, v)]
  | p :: m => if p.1 = id then (id, v) :: m else p :: put id v m

end PeerMap

/-! ## Storage as the Raft apply path sees it -/

/-- The in-memory part of `DurableStorage`.  `applied` is a history variable: the records handed
to `ApplyCommitted` since the process started, oldest first. -/
structure Storage where
  kv : ShardedKV
  lastAppliedIndex : Nat := 0
  applied : List WalRecord := []

namespace Storage

/-- `DurableStorage::ApplyCommitted`. -/
def applyCommitted (s : Storage) (record : WalRecord) : Storage where
  kv := applyRecord s.kv record
  lastAppliedIndex := record.index
  applied := s.applied ++ [record]

/-- `RecoverFromWal` into an empty store: every record of the file is replayed. -/
def recover (hash : Bytes → Nat) (records : List WalRecord) : Storage where
  kv := replay (ShardedKV.empty hash) records
  lastAppliedIndex := (records.getLast?.map (·.index)).getD 0

end Storage

/-- The fields of `RaftNode`, together with its two files. -/
structure RaftNode where
  state : RaftState := .kFollower
  currentTerm : Nat := 0
  votedFor : NodeId := 0
  leaderId : NodeId := 0
  commitIndex : Nat := 0
  nextIndex : PeerMap := []
  matchIndex : PeerMap := []
  lastAckTime : PeerMap := []
  log : Log := {}
  storage : Storage
  stateBin : Option PersistentState := none

/-- `kHeartbeatInterval` in milliseconds. -/
def kHeartbeatInterval : Nat := 75

namespace RaftNode

/-- A node started on an empty data directory. -/
def fresh (hash : Bytes → Nat) : RaftNode := { storage := { kv := ShardedKV.empty hash } }

/-- `RaftNode::PersistStateLocked`. -/
def persistState (node : RaftNode) : RaftNode :=
  { node with stateBin := some ⟨node.currentTerm, node.votedFor⟩ }

/-- `RaftNode::BecomeFollowerLocked`. -/
def becomeFollower (node : RaftNode) (term : Nat) : RaftNode :=
  persistState
    { node with
      currentTerm := term
      votedFor := 0
      state := .kFollower
      leaderId := 0
      lastAckTime := [] }

/-- `RaftNode::BecomeLeaderLocked`. -/
def becomeLeader (config : ClusterConfig) (node : RaftNode) : RaftNode :=
  { node with
    state := .kLeader
    leaderId := config.localNodeId
    nextIndex := config.otherPeers.map (fun id => (id, node.log.lastIndex + 1))
    matchIndex := config.otherPeers.map (fun id => (id, 0))
    lastAckTime := [] }

/-- `RaftNode::HasRecentMajorityContactLocked`. -/
def hasRecentMajorityContact (config : ClusterConfig) (node : RaftNode) (now : Nat) : Bool :=
  node.state == .kLeader &&
    decide (config.majority ≤
      1 + node.lastAckTime.countP (fun p => decide (now - p.2 ≤ kHeartbeatInterval)))

/-- The loop of `ApplyCommittedEntriesLocked`.  Each round advances `last_applied_index` by one,
so `commit_index_ - last_applied_index` rounds are all there can be (`applyLoop_eq`). -/
def applyLoop (log : Log) (commitIndex : Nat) : Nat → Storage → Storage
  | 0, storage => storage
  | fuel + 1, storage =>
    if storage.lastAppliedIndex < commitIndex then
      match log.get (storage.lastAppliedIndex + 1) with
      | none => storage
      | some entry => applyLoop log commitIndex fuel (storage.applyCommitted entry)
    else storage

/-- `RaftNode::ApplyCommittedEntriesLocked`. -/
def applyCommittedEntries (node : RaftNode) : RaftNode :=
  { node with
    storage := applyLoop node.log node.commitIndex
      (node.commitIndex - node.storage.lastAppliedIndex) node.storage }

/-- `RaftNode::lag_entries`, an unsigned 64-bit subtraction. -/
def lagEntries (node : RaftNode) : UInt64 :=
  UInt64.ofNat node.commitIndex - UInt64.ofNat node.storage.lastAppliedIndex

/-- `RaftNode::replication_lag_entries`. -/
def replicationLagEntries (config : ClusterConfig) (node : RaftNode) (peer : NodeId) : Nat :=
  if peer = config.localNodeId then 0
  else if node.state ≠ .kLeader then 0
  else
    match node.matchIndex.find? (fun p => p.1 == peer) with
    | none => 0
    | some p => if p.2 < node.log.lastIndex then node.log.lastIndex - p.2 else 0

/-! ## Elections -/

/-- First lock scope of `StartElection`: stand for the next term. -/
def startElection (config : ClusterConfig) (node : RaftNode) : RaftNode × RequestVoteRequest :=
  let node := persistState
    { node with
      currentTerm := node.currentTerm + 1
      votedFor := config.localNodeId
      state := .kCandidate
      leaderId := 0 }
  (node,
    { term := node.currentTerm
      candidateId := config.localNodeId
      lastLogIndex := node.log.lastIndex
      lastLogTerm := node.log.lastTerm })

/-- Lock scope of `StartElection` for one reply: `none` returns from the function, `some votes`
continues the loop. -/
def voteReply (node : RaftNode) (term votes : Nat) (resp : RequestVoteResponse) :
    RaftNode × Option Nat :=
  if node.state ≠ .kCandidate ∨ node.currentTerm ≠ term then (node, none)
  else if node.currentTerm < resp.term then (node.becomeFollower resp.term, none)
  else if resp.voteGranted then (node, some (votes + 1))
  else (node, some votes)

/-- Last lock scope of `StartElection`; the flag says whether `BecomeLeaderLocked` ran. -/
def finishElection (config : ClusterConfig) (node : RaftNode) (term votes : Nat) :
    RaftNode × Bool :=
  if node.state = .kCandidate ∧ node.currentTerm = term ∧ config.majority ≤ votes then
    (node.becomeLeader config, true)
  else (node, false)

/-- `req.last_log_term > LastTerm() || (== && req.last_log_index >= LastIndex())`. -/
def challengerUpToDate (node : RaftNode) (req : RequestVoteRequest) : Bool :=
  decide (node.log.lastTerm < req.lastLogTerm) ||
    (decide (req.lastLogTerm = node.log.lastTerm) && decide (node.log.lastIndex ≤ req.lastLogIndex))

/-- `RaftNode::HandleRequestVote`. -/
def handleRequestVote (node : RaftNode) (req : RequestVoteRequest) :
    RaftNode × RequestVoteResponse :=
  let node := if node.currentTerm < req.term then node.becomeFollower req.term else node
  if req.term < node.currentTerm then (node, ⟨node.currentTerm, false⟩)
  else if (node.votedFor = 0 ∨ node.votedFor = req.candidateId) ∧ node.challengerUpToDate req then
    (persistState { node with votedFor := req.candidateId }, ⟨node.currentTerm, true⟩)
  else (node, ⟨node.currentTerm, false⟩)

/-! ## Replication -/

/-- The loop over `req.entries`: skip an entry whose term is already there, truncate at a
conflict, append. -/
def appendLoop (log : Log) : Nat → List LogEntry → Log
  | _, [] => log
  | index, entry :: rest =>
    match log.get (index + 1) with
    | some existing =>
      if existing.term = entry.term then appendLoop log (index + 1) rest
      else appendLoop ((log.truncateFrom (index + 1)).append entry) (index + 1) rest
    | none => appendLoop (log.append entry) (index + 1) rest

/-- `prev == nullptr || prev->term != req.prev_log_term` for a non-zero `prev_log_index`. -/
def prevMismatch (node : RaftNode) (req : AppendEntriesRequest) : Bool :=
  decide (0 < req.prevLogIndex) &&
    match node.log.get req.prevLogIndex with
    | none => true
    | some prev => decide (prev.term ≠ req.prevLogTerm)

/-- The head of `HandleAppendEntries` for a request that is not stale: adopt a newer term, or
give up a candidacy, and note the leader. -/
def acceptLeader (node : RaftNode) (req : AppendEntriesRequest) : RaftNode :=
  let node :=
    if node.currentTerm < req.term then node.becomeFollower req.term
    else if node.state = .kCandidate then { node with state := .kFollower }
    else node
  { node with leaderId := req.leaderId }

/-- The tail of `HandleAppendEntries`: take over the leader's commit index, bounded by the
node's own last index. -/
def followCommit (node : RaftNode) (leaderCommit : Nat) : RaftNode :=
  if node.commitIndex < leaderCommit then
    applyCommittedEntries { node with commitIndex := min leaderCommit node.log.lastIndex }
  else node

/-- `RaftNode::HandleAppendEntries`. -/
def handleAppendEntries (node : RaftNode) (req : AppendEntriesRequest) :
    RaftNode × AppendEntriesResponse :=
  if req.term < node.currentTerm then (node, ⟨node.currentTerm, false⟩)
  else
    let node := node.acceptLeader req
    if node.prevMismatch req then (node, ⟨node.currentTerm, false⟩)
    else
      let node := { node with log := appendLoop node.log req.prevLogIndex req.entries }
      (node.followCommit req.leaderCommit, ⟨node.currentTerm, true⟩)

/-- The first lock scope of `ReplicateToPeer` and the send scope of `ConfirmLeadershipQuorum`
both read `next_index_[peer]`, the entry before it and `commit_index_`. -/
def appendEntriesRequest (config : ClusterConfig) (node : RaftNode) (term : Nat) (peer : NodeId)
    (entries : List LogEntry) : AppendEntriesRequest :=
  let prevLogIndex := node.nextIndex.valueAt peer - 1
  { term := term
    leaderId := config.localNodeId
    prevLogIndex := prevLogIndex
    prevLogTerm := ((node.log.get prevLogIndex).map (·.term)).getD 0
    leaderCommit := node.commitIndex
    entries := entries }

/-- First lock scope of `ReplicateToPeer`; `none` when this node is not the leader. -/
def replicateRequest (config : ClusterConfig) (node : RaftNode) (peer : NodeId) :
    Option AppendEntriesRequest :=
  if node.state ≠ .kLeader then none
  else
    some (appendEntriesRequest config node node.currentTerm peer
      (node.log.entriesFrom (node.nextIndex.valueAt peer)))

/-- `RaftNode::AdvanceCommitIndexLocked`. -/
def advanceCommitIndex (node : RaftNode) : RaftNode :=
  let indices := node.log.lastIndex :: node.matchIndex.map (·.2)
  match Quorum.nthLargest indices (Quorum.majority indices.length) with
  | none => node
  | some candidate =>
    if candidate ≤ node.commitIndex then node
    else
      match node.log.get candidate with
      | none => node
      | some entry =>
        if entry.term = node.currentTerm then
          applyCommittedEntries { node with commitIndex := candidate }
        else node

/-- Second lock scope of `ReplicateToPeer`: `term` and `entries` are the locals of the call. -/
def replicateReply (node : RaftNode) (term : Nat) (entries : List LogEntry) (peer : NodeId)
    (resp : AppendEntriesResponse) (now : Nat) : RaftNode :=
  if node.state ≠ .kLeader ∨ node.currentTerm ≠ term then node
  else if node.currentTerm < resp.term then node.becomeFollower resp.term
  else if resp.success then
    let node := { node with lastAckTime := node.lastAckTime.put peer now }
    let node :=
      match entries.getLast? with
      | none => node
      | some last =>
        { node with
          matchIndex := node.matchIndex.put peer last.index
          nextIndex := node.nextIndex.put peer (last.index + 1) }
    node.advanceCommitIndex
  else if 1 < node.nextIndex.valueAt peer then
    { node with nextIndex := node.nextIndex.put peer (node.nextIndex.valueAt peer - 1) }
  else node

/-! ## Proposals -/

def notLeader : Status := ⟨.kInvalidArgument, "not leader"⟩

def proposeTimedOut : Status := ⟨.kIOError, "propose timed out waiting for commit"⟩

/-- First lock scope of `Propose`: the entry as appended, or the refusal. -/
def proposeAppend (node : RaftNode) (entry : LogEntry) : Except Status (RaftNode × LogEntry) :=
  if node.state ≠ .kLeader then .error notLeader
  else
    let entry := { entry with term := node.currentTerm, index := node.log.wal.lastIndex + 1 }
    .ok ({ node with log := node.log.append entry }, entry)

/-- Last lock scope of `Propose`, at a wake-up of its wait; `none` when it goes on waiting. -/
def proposeResult (node : RaftNode) (index : Nat) (timedOut : Bool) : Option Status :=
  if index ≤ node.storage.lastAppliedIndex ∨ node.state ≠ .kLeader then
    if node.storage.lastAppliedIndex < index then some notLeader else some .Ok
  else if timedOut then some proposeTimedOut
  else none

/-! ## Read confirmation -/

/-- Outcomes of the first lock scope of `ConfirmLeadershipQuorum`. -/
inductive ConfirmStart where
  | notLeader
  | recentContact
  | round (term : Nat)
  deriving DecidableEq, Repr

/-- First lock scope of `ConfirmLeadershipQuorum`. -/
def beginConfirm (config : ClusterConfig) (node : RaftNode) (now : Nat) : ConfirmStart :=
  if node.state ≠ .kLeader then .notLeader
  else if node.hasRecentMajorityContact config now then .recentContact
  else .round node.currentTerm

/-- Send scope of `ConfirmLeadershipQuorum`; `none` returns false. -/
def confirmRequest (config : ClusterConfig) (node : RaftNode) (term : Nat) (peer : NodeId) :
    Option AppendEntriesRequest :=
  if node.state ≠ .kLeader ∨ node.currentTerm ≠ term then none
  else some (appendEntriesRequest config node term peer [])

/-- Reply scope of `ConfirmLeadershipQuorum`: `none` returns false, `some acks` continues. -/
def confirmReply (node : RaftNode) (term acks : Nat) (peer : NodeId)
    (resp : AppendEntriesResponse) (now : Nat) : RaftNode × Option Nat :=
  if node.currentTerm < resp.term then (node.becomeFollower resp.term, none)
  else if node.state ≠ .kLeader ∨ node.currentTerm ≠ term then (node, none)
  else if resp.success then
    ({ node with lastAckTime := node.lastAckTime.put peer now }, some (acks + 1))
  else (node, some acks)

/-! ## Restart -/

/-- `RaftNode::LoadPersistedState`: a missing file is a fresh node. -/
def loadPersistedState (stateBin : Option PersistentState) : PersistentState :=
  stateBin.getD {}

/-- A new process on the node's files: `DurableStorage::Open` replays the WAL into the store and
the constructor loads `state.bin` and the log.  `none` when a reader rejects the WAL, in which
case the server exits. -/
def restart (node : RaftNode) : Option RaftNode :=
  match Log.load node.log.wal.records with
  | none => none
  | some log =>
    let persisted := loadPersistedState node.stateBin
    some
      { currentTerm := persisted.currentTerm
        votedFor := persisted.votedFor
        log := log
        storage := Storage.recover node.storage.kv.hash node.log.wal.records
        stateBin := node.stateBin }

end RaftNode

end NeuralKV
