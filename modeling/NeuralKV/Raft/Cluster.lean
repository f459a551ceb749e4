import NeuralKV.Lib.Runs
import NeuralKV.Raft.RpcCodec
import NeuralKV.Server.Handler

/-!
# A cluster of Raft nodes

The transition system of the whole cluster.  A state holds every node with its threads, every
RPC ever started, the requests still on their way, the replies given, the steady clock and the
history.  A step is one lock scope of one thread, or an event outside the locks:

* `deliver` — a request reaches its callee, which handles it and answers.  A request may be
  delivered at any later time, in any order, or never; its reply may be picked up at any later
  time or never (`voteLost`, `readLost`: `SendRpc` failed and the loop goes on).
* `crash` / `restart` — between two lock scopes a process may end; its threads are gone, its
  files stay.
* `tick` — the clock advances.

`ReplicateToPeer` calls are made by `Propose` and `RunLoop`; here any number of them may be in
progress for any peer.  `StartElection` is only called by `RunLoop`, so a node runs at most one.

`Run` is the set of states reached by steps that all satisfy a condition on the state before the
step and the action.
-/

set_option autoImplicit false

namespace NeuralKV

open Runs (putThread)

inductive Request where
  | requestVote (req : RequestVoteRequest)
  | appendEntries (req : AppendEntriesRequest)
  deriving DecidableEq, Repr

inductive Response where
  | requestVote (resp : RequestVoteResponse)
  | appendEntries (resp : AppendEntriesResponse)
  deriving DecidableEq, Repr

/-- One `SendRpc` call; its id is its position among all calls.  `sentAt` is the length of the
history when it was made. -/
structure Rpc where
  caller : NodeId
  callee : NodeId
  req : Request
  sentAt : Nat
  deriving DecidableEq, Repr

/-- Program point of `StartElection` between two lock scopes. -/
structure Election where
  req : RequestVoteRequest
  votes : Nat
  todo : List NodeId
  pending : Option Nat := none
  deriving DecidableEq, Repr

/-- A process: its node and the threads in it.  `replications` are the RPCs that calls of
`ReplicateToPeer` wait for. -/
structure Server where
  up : Bool := true
  raft : RaftNode
  election : Option Election := none
  replications : List Nat := []
  writes : List Write := []
  reads : List Read := []

structure Cluster where
  servers : NodeId → Server
  rpcs : List Rpc := []
  inFlight : List Nat := []
  replies : List (Nat × Response) := []
  clock : Nat := 0
  history : List Event := []

/-- What one thread of node `n` can do next. -/
inductive ServerAction where
  | crash
  | restart
  | startElection
  | callVoter
  | voteLost
  | voteReply
  | endElection
  | replicate (peer : NodeId)
  | replicateReply (rpc : Nat)
  | write (op : WalOp) (key value : Bytes)
  | writeStep (thread : Nat) (timedOut : Bool)
  | read (key : Bytes)
  | readStep (thread : Nat)
  | readLost (thread : Nat)
  deriving DecidableEq, Repr

inductive Action where
  | tick (d : Nat)
  | deliver (rpc : Nat)
  | act (n : NodeId) (a : ServerAction)
  deriving DecidableEq, Repr

namespace Cluster

/-- Every node started on an empty data directory. -/
def init (hash : Bytes → Nat) : Cluster := { servers := fun _ => { raft := RaftNode.fresh hash } }

/-- The reply to an RPC, if the callee has given one. -/
def replyTo (s : Cluster) (rpc : Nat) : Option Response :=
  (s.replies.find? (fun p => p.1 == rpc)).map (·.2)

def voteReplyTo (s : Cluster) (rpc : Nat) : Option RequestVoteResponse :=
  match s.replyTo rpc with
  | some (.requestVote resp) => some resp
  | _ => none

def appendReplyTo (s : Cluster) (rpc : Nat) : Option AppendEntriesResponse :=
  match s.replyTo rpc with
  | some (.appendEntries resp) => some resp
  | _ => none

/-- Node `n` has done one scope: its process is now `srv`, it may have started an RPC, and the
events happened. -/
def update (s : Cluster) (n : NodeId) (srv : Server) (send : Option (NodeId × Request) := none)
    (events : List Event := []) : Cluster :=
  { s with
    servers := Function.update s.servers n srv
    rpcs := s.rpcs ++ (send.map fun p => ⟨n, p.1, p.2, s.history.length⟩).toList
    inFlight := s.inFlight ++ (send.map fun _ => s.rpcs.length).toList
    history := s.history ++ events }

/-- **A scope touches one process**: what holds of the new process of `n`, and of every other one
as it was, holds of every process. -/
theorem forall_update {s : Cluster} {n : NodeId} {srv : Server} {P : NodeId → Server → Prop}
    (self : P n srv) (other : ∀ k, k ≠ n → P k (s.servers k)) (k : NodeId) :
    P k (Function.update s.servers n srv k) :=
  (Function.forall_update_iff s.servers P).mpr ⟨self, other⟩ k

theorem mem_update {s : Cluster} {n k : NodeId} {srv : Server} {α : Type} {f : Server → List α}
    {x : α} (h : x ∈ f (Function.update s.servers n srv k)) :
    (k = n ∧ x ∈ f srv) ∨ (k ≠ n ∧ x ∈ f (s.servers k)) :=
  forall_update
    (P := fun k p => x ∈ f p → (k = n ∧ x ∈ f srv) ∨ (k ≠ n ∧ x ∈ f (s.servers k)))
    (fun h => Or.inl ⟨rfl, h⟩) (fun _ hk h => Or.inr ⟨hk, h⟩) k h

/-- The callee of an RPC handles the request and answers. -/
def deliver (s : Cluster) (rpc : Nat) : Option Cluster :=
  if rpc ∈ s.inFlight then
    match s.rpcs[rpc]? with
    | none => none
    | some r =>
      let srv := s.servers r.callee
      if srv.up then
        let (raft, resp) :=
          match r.req with
          | .requestVote req =>
            let (raft, resp) := srv.raft.handleRequestVote req
            (raft, Response.requestVote resp)
          | .appendEntries req =>
            let (raft, resp) := srv.raft.handleAppendEntries req
            (raft, Response.appendEntries resp)
        some
          { s.update r.callee { srv with raft := raft } with
            inFlight := s.inFlight.erase rpc
            replies := s.replies ++ [(rpc, resp)] }
      else none
  else none

/-- One step of a thread of node `n`. -/
def actStep (m : Membership) (s : Cluster) (n : NodeId) : ServerAction → Option Cluster
  | .crash =>
    let srv := s.servers n
    if srv.up then some (s.update n { up := false, raft := srv.raft }) else none
  | .restart =>
    let srv := s.servers n
    if srv.up then none
    else
      match srv.raft.restart with
      | none => none
      | some raft => some (s.update n { raft := raft })
  | .startElection =>
    let srv := s.servers n
    if srv.up ∧ srv.election = none then
      let config := m.configOf n
      let (raft, req) := srv.raft.startElection config
      some (s.update n
        { srv with raft := raft, election := some { req := req, votes := 1, todo := config.otherPeers } })
    else none
  | .callVoter =>
    let srv := s.servers n
    match srv.election with
    | some { req, votes, todo := peer :: todo, pending := none } =>
      some (s.update n
        { srv with election := some { req, votes, todo, pending := some s.rpcs.length } }
        (some (peer, .requestVote req)))
    | _ => none
  | .voteLost =>
    let srv := s.servers n
    match srv.election with
    | some { req, votes, todo, pending := some _ } =>
      some (s.update n { srv with election := some { req, votes, todo } })
    | _ => none
  | .voteReply =>
    let srv := s.servers n
    match srv.election with
    | some { req, votes, todo, pending := some rpc } =>
      match s.voteReplyTo rpc with
      | none => none
      | some resp =>
        let (raft, result) := srv.raft.voteReply req.term votes resp
        some (s.update n
          { srv with
            raft := raft
            election := result.map fun votes => { req, votes, todo } })
    | _ => none
  | .endElection =>
    let srv := s.servers n
    match srv.election with
    | some { req, votes, todo := [], pending := none } =>
      let (raft, won) := srv.raft.finishElection (m.configOf n) req.term votes
      some (s.update n { srv with raft := raft, election := none } none
        (if won then [.becameLeader n req.term srv.raft.log.entries] else []))
    | _ => none
  | .replicate peer =>
    let srv := s.servers n
    if srv.up ∧ peer ∈ (m.configOf n).otherPeers then
      match srv.raft.replicateRequest (m.configOf n) peer with
      | none => some s
      | some req =>
        -- `SendRpc` returns with the status of the encoder when the frame would be too long
        match Protocol.encodeClusterRequest (replicationRequest req) with
        | .error _ => some s
        | .ok _ =>
          some (s.update n { srv with replications := srv.replications ++ [s.rpcs.length] }
            (some (peer, .appendEntries req)))
    else none
  | .replicateReply rpc =>
    let srv := s.servers n
    if rpc ∈ srv.replications then
      match s.rpcs[rpc]?, s.appendReplyTo rpc with
      | some { callee, req := .appendEntries req, .. }, some resp =>
        let raft := srv.raft.replicateReply req.term req.entries callee resp s.clock
        some (s.update n { srv with raft := raft, replications := srv.replications.erase rpc } none
          (if raft.commitIndex = srv.raft.commitIndex then []
            else [.advanced n srv.raft.currentTerm raft.commitIndex srv.raft.log.entries]))
      | _, _ => none
    else none
  | .write op key value =>
    let srv := s.servers n
    if srv.up then
      some (s.update n { srv with writes := srv.writes ++ [{ entry := { op, key, value } }] })
    else none
  | .writeStep thread timedOut =>
    let srv := s.servers n
    match srv.writes[thread]? with
    | none => none
    | some w =>
      match w.step n srv.raft timedOut with
      | none => none
      | some (raft, next, events) =>
        some (s.update n { srv with raft := raft, writes := putThread srv.writes thread next }
          none events)
  | .read key =>
    let srv := s.servers n
    if srv.up then
      some (s.update n { srv with reads := srv.reads ++ [{ key, invokedAt := s.history.length }] })
    else none
  | .readStep thread =>
    let srv := s.servers n
    match srv.reads[thread]? with
    | none => none
    | some r =>
      let reply :=
        match r.stage with
        | .round _ _ _ _ (some (_, rpc)) => s.appendReplyTo rpc
        | _ => none
      match r.step (m.configOf n) srv.raft s.clock s.history.length s.rpcs.length reply with
      | none => none
      | some out =>
        some (s.update n { srv with raft := out.raft, reads := putThread srv.reads thread out.thread }
          (out.send.map fun p => (p.1, .appendEntries p.2)) out.events)
  | .readLost thread =>
    let srv := s.servers n
    match srv.reads[thread]? with
    | some { key, invokedAt, stage := .round term start acks todo (some _) } =>
      some (s.update n
        { srv with
          reads := srv.reads.set thread
            { key, invokedAt, stage := .round term start acks todo none } })
    | _ => none

/-- One step of the cluster. -/
def step (m : Membership) (s : Cluster) : Action → Option Cluster
  | .tick d => some { s with clock := s.clock + d }
  | .deliver rpc => s.deliver rpc
  | .act n a => if n ∈ m.ids then s.actStep m n a else none

/-- The states reached from the fresh cluster by steps that all satisfy `ok`, a condition on the
state before the step and the action. -/
abbrev Run (m : Membership) (hash : Bytes → Nat) (ok : Cluster → Action → Prop) : Cluster → Prop :=
  Runs.Run (step m) (Cluster.init hash) ok

/-- No process crashes, so none is restarted either. -/
def crashFree : Cluster → Action → Prop
  | _, .act _ .crash => False
  | _, .act _ .restart => False
  | _, _ => True

instance (s : Cluster) (a : Action) : Decidable (crashFree s a) := by
  unfold crashFree
  split <;> infer_instance

end Cluster

end NeuralKV
