import NeuralKV.Protocol.Types
import NeuralKV.Raft.Node

/-!
# Client requests on one node

Model of `RequestHandler::Handle` of `src/server/handler.cpp` with a `RaftNode` and
`allow_stale_reads_` false.  A request is a thread that passes through the lock scopes of
`IsLeader`, `Propose` / `ConfirmLeadershipQuorum` and `leader_id` one by one; between two of them
any other thread may run.  `Write` and `Read` are the program points of such threads, and
`Write.step` / `Read.step` take a thread from one to the next.

`Event` is the history variable of the cluster: what has happened, in order.  It is never read
by the code.
-/

set_option autoImplicit false

namespace NeuralKV

/-- `ClientResponse` without the echoed request id. -/
structure ClientResponse where
  status : ResponseStatus
  value : Bytes := []
  leaderHint : NodeId := 0
  deriving DecidableEq, Repr

/-- `ToResponseStatus`. -/
def toResponseStatus : ErrorCode → ResponseStatus
  | .kOk => .kOk
  | .kNotFound => .kNotFound
  | .kInvalidArgument => .kBadRequest
  | .kIOError => .kInternalError
  | .kInternal => .kInternalError

/-- The answer built from `storage_.Get(req.key)`. -/
def getResponse (kv : ShardedKV) (key : Bytes) : ClientResponse :=
  match kv.get key with
  | .ok value => { status := .kOk, value := value }
  | .error status => { status := toResponseStatus status.code }

theorem getResponse_eq {kv : ShardedKV} {key : Bytes} (hkey : key ≠ []) :
    getResponse kv key = match kv.contents key with
      | some value => { status := .kOk, value := value }
      | none => { status := .kNotFound } := by
  unfold getResponse
  rw [kv.get_eq hkey]
  cases kv.contents key <;> rfl

/-- What happened in a run.  `start` is the length of the history when
`ConfirmLeadershipQuorum` took the lock for the first time, `invokedAt` its length when `Handle`
was called. -/
inductive Event where
  | becameLeader (node : NodeId) (term : Nat) (log : List LogEntry)
  | advanced (node : NodeId) (term index : Nat) (log : List LogEntry)
  | proposed (node : NodeId) (entry : LogEntry)
  | proposeReturned (node : NodeId) (entry : LogEntry) (status : Status) (log : List LogEntry)
  | confirmed (node : NodeId) (term start : Nat) (full : Bool)
  | readDone (node : NodeId) (key : Bytes) (invokedAt start : Nat) (full : Bool)
      (lastApplied : Nat) (resp : ClientResponse)
  | answered (node : NodeId) (entry : Option LogEntry) (resp : ClientResponse)
  deriving DecidableEq, Repr

/-! ## SET and DELETE -/

/-- Program points of `Handle` for a write.  `waiting` holds the entry `Propose` appended,
`rejected` the entry if there is one. -/
inductive WriteStage where
  | invoked
  | leaderSeen
  | waiting (entry : LogEntry)
  | rejected (entry : Option LogEntry)
  deriving DecidableEq, Repr

structure Write where
  entry : LogEntry
  stage : WriteStage := .invoked
  deriving DecidableEq, Repr

/-- How `Handle` continues after `Propose` has returned `status`. -/
def Write.afterPropose (n : NodeId) (w : Write) (appended : Option LogEntry) (status : Status) :
    Option Write × List Event :=
  if status.ok then (none, [.answered n appended { status := .kOk }])
  else if status.code = .kInvalidArgument then (some { w with stage := .rejected appended }, [])
  else (none, [.answered n appended { status := .kInternalError }])

/-- The next lock scope of a write: the node afterwards, the thread if it goes on, and the
events.  `none` while the thread is blocked. -/
def Write.step (n : NodeId) (raft : RaftNode) (w : Write) (timedOut : Bool) :
    Option (RaftNode × Option Write × List Event) :=
  match w.stage with
  | .invoked =>
    if raft.state = .kLeader then some (raft, some { w with stage := .leaderSeen }, [])
    else some (raft, some { w with stage := .rejected none }, [])
  | .leaderSeen =>
    match raft.proposeAppend w.entry with
    | .error status =>
      let r := w.afterPropose n none status
      some (raft, r.1, r.2)
    | .ok (raft', entry) =>
      some (raft', some { w with stage := .waiting entry }, [.proposed n entry])
  | .waiting entry =>
    match raft.proposeResult entry.index timedOut with
    | none => none
    | some status =>
      let r := w.afterPropose n (some entry) status
      some (raft, r.1, .proposeReturned n entry status raft.log.entries :: r.2)
  | .rejected entry =>
    some (raft, none,
      [.answered n entry { status := .kWrongLeader, leaderHint := raft.leaderId }])

/-! ## GET -/

/-- Program points of `Handle` for a GET.  In `round`, `todo` are the peers the loop of
`ConfirmLeadershipQuorum` has not reached and `pending` the peer and RPC it is waiting for. -/
inductive ReadStage where
  | invoked
  | leaderSeen
  | round (term start acks : Nat) (todo : List NodeId) (pending : Option (NodeId × Nat))
  | confirmed (start : Nat) (full : Bool)
  | rejected
  deriving DecidableEq, Repr

structure Read where
  key : Bytes
  invokedAt : Nat
  stage : ReadStage := .invoked
  deriving DecidableEq, Repr

/-- What a scope of a GET does: the node afterwards, the thread if it goes on, the peer and
request of an RPC it starts, and the events. -/
structure ReadOutcome where
  raft : RaftNode
  thread : Option Read
  send : Option (NodeId × AppendEntriesRequest) := none
  events : List Event := []

/-- The next lock scope of a GET.  `now` is the clock, `pos` the length of the history,
`nextRpc` the id the next RPC gets and `reply` the answer to the RPC the thread waits for, if it
has arrived.  `none` while the thread is blocked. -/
def Read.step (config : ClusterConfig) (raft : RaftNode) (r : Read) (now pos nextRpc : Nat)
    (reply : Option AppendEntriesResponse) : Option ReadOutcome :=
  let n := config.localNodeId
  match r.stage with
  | .invoked =>
    if raft.state = .kLeader then
      some { raft := raft, thread := some { r with stage := .leaderSeen } }
    else some { raft := raft, thread := some { r with stage := .rejected } }
  | .leaderSeen =>
    match raft.beginConfirm config now with
    | .notLeader => some { raft := raft, thread := some { r with stage := .rejected } }
    | .recentContact =>
      some
        { raft := raft
          thread := some { r with stage := .confirmed pos false }
          events := [.confirmed n raft.currentTerm pos false] }
    | .round term =>
      some { raft := raft, thread := some { r with stage := .round term pos 1 config.otherPeers none } }
  | .round term start acks [] none =>
    if config.majority ≤ acks then
      some
        { raft := raft
          thread := some { r with stage := .confirmed start true }
          events := [.confirmed n term start true] }
    else some { raft := raft, thread := some { r with stage := .rejected } }
  | .round term start acks (peer :: todo) none =>
    match raft.confirmRequest config term peer with
    | none => some { raft := raft, thread := some { r with stage := .rejected } }
    | some req =>
      some
        { raft := raft
          thread := some { r with stage := .round term start acks todo (some (peer, nextRpc)) }
          send := some (peer, req) }
  | .round term start acks todo (some (peer, _)) =>
    match reply with
    | none => none
    | some resp =>
      let (raft', result) := raft.confirmReply term acks peer resp now
      match result with
      | none => some { raft := raft', thread := some { r with stage := .rejected } }
      | some acks' =>
        some { raft := raft', thread := some { r with stage := .round term start acks' todo none } }
  | .confirmed start full =>
    some
      { raft := raft
        thread := none
        events := [.readDone n r.key r.invokedAt start full raft.storage.lastAppliedIndex
          (getResponse raft.storage.kv r.key)] }
  | .rejected =>
    some
      { raft := raft
        thread := none
        events := [.answered n none { status := .kWrongLeader, leaderHint := raft.leaderId }] }

end NeuralKV
